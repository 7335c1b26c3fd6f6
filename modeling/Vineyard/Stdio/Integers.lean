import Vineyard.Stdio.Calls

/-!
# The size of an integer

How many digits the conversion of an integer stores, which elements of the local arrays it stores to,
and what a run counts of what it hands over.  The two arrays are too small for two kinds of
conversions, and the count leaves out everything but text, characters and digits.
-/

namespace Vineyard

open Programs Programs.Prog

/-! ## Digits -/

/-- The digits of a value are few when the value is small. -/
theorem bufLength_le_iff {base : ℕ} (radix : 2 ≤ base) (k : ℕ) :
    ∀ steps value, k < steps → (bufLength base steps value ≤ k + 1 ↔ value < base ^ (k + 1)) := by
  induction k with
  | zero =>
    intro steps value enough
    obtain ⟨steps, rfl⟩ := Nat.exists_eq_succ_of_ne_zero (Nat.ne_of_gt enough)
    unfold bufLength
    rw [Nat.zero_add, Nat.pow_one]
    split_ifs with more
    · have one : 1 ≤ bufLength base steps (value / base) := by
        unfold bufLength
        split <;> (try split_ifs) <;> omega
      omega
    · omega
  | succ k ih =>
    intro steps value enough
    obtain ⟨steps, rfl⟩ := Nat.exists_eq_succ_of_ne_zero (Nat.ne_of_gt (Nat.lt_of_le_of_lt
      (Nat.zero_le _) enough))
    unfold bufLength
    split_ifs with more
    · rw [Nat.add_le_add_iff_right, ih steps _ (by omega), Nat.div_lt_iff_lt_mul (by omega),
        ← Nat.pow_succ]
    · have small : value < base ^ (k + 1 + 1) :=
        Nat.lt_of_lt_of_le (Nat.lt_of_not_le more) (Nat.le_self_pow (by omega) base)
      exact ⟨fun _ => small, fun _ => by omega⟩

theorem two_le_conversionBase (specifier : Byte) : 2 ≤ conversionBase specifier := by
  unfold conversionBase
  split_ifs <;> omega

/-- A value of 64 bits has at most 64 digits. -/
theorem bufLength_le (specifier : Byte) {value : ℕ} (word : value < 2 ^ 64) :
    bufLength (conversionBase specifier) 64 value ≤ 64 :=
  (bufLength_le_iff (two_le_conversionBase specifier) 63 64 value (by omega)).mpr
    (Nat.lt_of_lt_of_le word (Nat.pow_le_pow_left (two_le_conversionBase specifier) 64))

@[simp] theorem bufDigits_length (specifier : Byte) (base n : ℕ) :
    ∀ value, (bufDigits specifier base n value).length = n := by
  induction n with
  | zero => exact fun _ => rfl
  | succ n ih =>
    intro value
    rw [bufDigits, List.length_append, ih, List.length_singleton]

@[simp] theorem integerDigits_length (specifier : Byte) (value : ℕ) :
    (integerDigits specifier value).length = bufLength (conversionBase specifier) 64 value :=
  bufDigits_length _ _ _ _

/-! ## The integers of a scan -/

/-- An integer that comes from an argument: a word, negative only where the conversion is signed. -/
def Part.FromArgument : Part → Prop
  | .integer _ specifier value negative =>
    value < 2 ^ 64 ∧ (negative = true → specifier = ascii 'd' ∨ specifier = ascii 'i')
  | _ => True

theorem fetched_of_bind {α : Type} {m : FetchM α} {f : α → Part} {part : Part}
    {args args' : List VaArg} (run : (m >>= fun a => pure (f a)).run args = (.ok part, args')) :
    ∃ a, part = f a := by
  rw [run_bind] at run
  cases outcome : m.run args with
  | mk result left =>
    rw [outcome] at run
    cases result with
    | ok a =>
      cases run
      exact ⟨a, rfl⟩
    | error stop => cases run

theorem fetchPart_fromArgument {d : Directive} {specifier : Byte} {fetch : FetchM Part} {part : Part}
    {args args' : List VaArg} (known : fetchPart d specifier = some fetch)
    (run : fetch.run args = (.ok part, args')) : part.FromArgument := by
  unfold fetchPart at known
  split_ifs at known with percent string char pointer signed unsigned
  · cases known
    cases run
    trivial
  · cases known
    obtain ⟨chars, rfl⟩ := fetched_of_bind run
    trivial
  · cases known
    obtain ⟨v, rfl⟩ := fetched_of_bind run
    trivial
  · cases known
    obtain ⟨v, rfl⟩ := fetched_of_bind run
    exact ⟨v.isLt, fun h => by cases h⟩
  · obtain ⟨arg, -, rfl⟩ := Option.map_eq_some_iff.mp known
    obtain ⟨v, rfl⟩ := fetched_of_bind run
    refine ⟨?_, fun _ => signed⟩
    split_ifs
    · exact (-v).isLt
    · exact v.isLt
  · obtain ⟨arg, -, rfl⟩ := Option.map_eq_some_iff.mp known
    obtain ⟨v, rfl⟩ := fetched_of_bind run
    exact ⟨v.isLt, fun h => by cases h⟩

/-- What holds of text and of what every conversion fetches holds of every part. -/
theorem scanStep_part {P : Part → Prop} (block : ∀ chars, P (.block chars))
    (fetched : ∀ d specifier fetch args part args', fetchPart d specifier = some fetch →
      fetch.run args = (.ok part, args') → P part)
    {bad : Bool} {format : List Byte} {args args' : List VaArg} {found : Found}
    (step : (scanStep bad format).run args = (.ok found, args')) : P found.part := by
  obtain ⟨-, rfl, -⟩ | ⟨-, -, rfl, -⟩ | ⟨-, -, rfl⟩ |
    ⟨-, d, specifier, fetch, part, left, rest, known, run, rfl⟩ := scanStep_cases step
  · exact block _
  · exact block _
  · exact block _
  · exact fetched d specifier fetch left part args' known run

theorem scanLoop_parts {P : Part → Prop} (block : ∀ chars, P (.block chars))
    (fetched : ∀ d specifier fetch args part args', fetchPart d specifier = some fetch →
      fetch.run args = (.ok part, args') → P part) (steps : ℕ) :
    ∀ bad format args, ∀ part ∈ (scanLoop steps bad format args).parts, P part := by
  induction steps with
  | zero =>
    intro bad format args part mem
    cases format <;> cases mem
  | succ steps ih =>
    intro bad format args part mem
    cases format with
    | nil => cases mem
    | cons c format =>
      cases step : (scanStep bad (c :: format)).run args with
      | mk result args' =>
        cases result with
        | error stop =>
          rw [scanLoop_succ_error step] at mem
          cases mem
        | ok found =>
          have here := scanStep_part block fetched step
          by_cases fits : found.part.Fits
          · rw [scanLoop_succ_ok fits step] at mem
            rcases List.mem_cons.mp mem with rfl | later
            · exact here
            · exact ih _ _ _ part later
          · rw [scanLoop_succ_stopped fits step] at mem
            rcases List.mem_singleton.mp mem with rfl
            exact here

theorem scan_fromArgument {format : List Byte} {args : List VaArg} {part : Part}
    (mem : part ∈ (scan format args).parts) : part.FromArgument :=
  scanLoop_parts (fun _ => trivial)
    (fun _ _ _ _ _ _ known run => fetchPart_fromArgument known run) _ _ _ _ part mem

/-! ## The local arrays -/

/-- The part is no hexadecimal integer with a sign and `0x`, and no octal one of 2 ^ 60 or more. -/
def Part.Roomy : Part → Prop
  | .integer d specifier value _ =>
    ¬ ((d.flags.plus ∨ d.flags.space) ∧ d.flags.hash ∧
        (specifier = ascii 'x' ∨ specifier = ascii 'X')) ∧
      ¬ (specifier = ascii 'o' ∧ 2 ^ 60 ≤ value)
  | _ => True

/-- The digits fit into `buf` except for the largest octal values. -/
theorem bufLength_le_twenty (specifier : Byte) {value : ℕ} (word : value < 2 ^ 64) :
    bufLength (conversionBase specifier) 64 value ≤ 20 ↔
      ¬ (specifier = ascii 'o' ∧ 2 ^ 60 ≤ value) := by
  rw [bufLength_le_iff (two_le_conversionBase specifier) 19 64 value (by omega)]
  unfold conversionBase
  split_ifs with hex octal
  · have other : specifier ≠ ascii 'o' := by
      rcases hex with rfl | rfl <;> decide
    simp only [other, false_and, not_false_eq_true, iff_true]
    exact Nat.lt_of_lt_of_le word (by decide)
  · have power : 8 ^ (19 + 1) = 2 ^ 60 := rfl
    rw [power]
    simp only [octal, true_and, Nat.not_le]
  · simp only [octal, false_and, not_false_eq_true, iff_true]
    exact Nat.lt_of_lt_of_le word (by decide)

theorem prefixChars_length (flags : PrintfFlags) (specifier : Byte) (negative : Bool) :
    (prefixChars flags specifier negative).length =
      (if negative ∨ flags.plus ∨ flags.space then 1 else 0) +
        (if flags.hash ∧ (specifier = ascii 'x' ∨ specifier = ascii 'X') then 2
          else if flags.hash ∧ specifier = ascii 'o' then 1 else 0) := by
  unfold prefixChars
  rw [List.length_append]
  congr 1
  · cases negative <;> cases flags.plus <;> cases flags.space <;> rfl
  · split_ifs <;> rfl

/-- The prefix fits except for a sign in front of `0x` or `0X`. -/
theorem prefixChars_length_le (flags : PrintfFlags) (specifier : Byte) {negative : Bool}
    (signed : negative = true → specifier = ascii 'd' ∨ specifier = ascii 'i') :
    (prefixChars flags specifier negative).length ≤ 2 ↔
      ¬ ((flags.plus ∨ flags.space) ∧ flags.hash ∧
        (specifier = ascii 'x' ∨ specifier = ascii 'X')) := by
  rw [prefixChars_length]
  by_cases hex : flags.hash = true ∧ (specifier = ascii 'x' ∨ specifier = ascii 'X')
  · have nonneg : negative = false := by
      by_contra h
      rcases signed (by simpa using h) with rfl | rfl <;> exact absurd hex.2 (by decide)
    rw [if_pos hex, nonneg]
    simp only [Bool.false_eq_true, false_or, hex, and_true]
    split_ifs with sign
    · exact ⟨fun le => by omega, fun none => absurd sign none⟩
    · exact ⟨fun _ => sign, fun _ => by omega⟩
  · rw [if_neg hex]
    have fits : ¬ ((flags.plus = true ∨ flags.space = true) ∧ flags.hash = true ∧
        (specifier = ascii 'x' ∨ specifier = ascii 'X')) := fun h => hex h.2
    simp only [fits, not_false_eq_true, iff_true]
    split_ifs <;> omega

/-- The stores of an integer from an argument are inside exactly when it has room. -/
theorem Part.fits_iff_roomy {part : Part} (argument : part.FromArgument) :
    part.Fits ↔ part.Roomy := by
  cases part with
  | block | percent | string | char => simp [Part.Fits, Part.targets, Part.Roomy]
  | integer d specifier value negative =>
    show _ ↔ ¬ _ ∧ ¬ _
    rw [← bufLength_le_twenty specifier argument.1,
      ← prefixChars_length_le d.flags specifier argument.2]
    unfold Part.Fits Part.targets
    rw [List.forall_mem_append, List.forall_mem_map, List.forall_mem_map, List.forall_mem_append,
      List.forall_mem_singleton]
    simp only [List.mem_range, List.mem_reverse, ArrayStore.Inside]
    constructor
    · rintro ⟨chars, -, buf⟩
      exact ⟨by have := chars _ (Nat.lt_succ_self _); omega, by omega⟩
    · rintro ⟨chars, buf⟩
      exact ⟨fun i lt => by omega, fun i lt => by omega, by omega⟩

theorem stores_inside_iff {part : Part} (argument : part.FromArgument) :
    (∀ x ∈ part.stores, x.Inside) ↔ part.Roomy :=
  (storesMade_inside_iff part.targets).trans (Part.fits_iff_roomy argument)

/-- A scan stops out of bounds exactly when a part has no room. -/
theorem scan_outOfBounds_iff (format : List Byte) (args : List VaArg) :
    (scan format args).result ≠ .error .outOfBounds ↔ ∀ part ∈ (scan format args).parts,
      part.Roomy := by
  rw [ne_eq, scan, scanLoop_outOfBounds_iff]
  simp only [not_exists, not_and, not_not]
  exact forall₂_congr fun part mem => Part.fits_iff_roomy (scan_fromArgument mem)

/-- A run stores to elements that the scan finds, and to all of them unless the callback rejects a
chunk. -/
theorem stores_of_run {format : List Byte} {args : List VaArg} {σ : Type}
    {callback : PrintfCallback σ} {ctx : σ} {x : ArrayStore}
    (mem : x ∈ ((vcbprintfAll callback format).run (.start ctx args)).2.stores) :
    x ∈ (scan format args).stores := by
  cases fed : feed callback ctx (scan format args).chunks with
  | mk taken ctx' =>
    cases taken with
    | true =>
      rw [vcbprintfAll_accepted fed] at mem
      simpa [Printf.after, Printf.start] using mem
    | false =>
      obtain ⟨t, run, -, stores⟩ := vcbprintfAll_rejected fed
      rw [run] at mem
      exact stores mem

/-- No run stores outside the local arrays, whatever the callback does. -/
def StoresInside (format : List Byte) (args : List VaArg) : Prop :=
  ∀ {σ : Type} (callback : PrintfCallback σ) (ctx : σ),
    ∀ x ∈ ((vcbprintfAll callback format).run (.start ctx args)).2.stores, x.Inside

/-- **The arrays are large enough exactly when every integer of the format has room in them.** -/
theorem storesInside_iff (format : List Byte) (args : List VaArg) :
    StoresInside format args ↔ ∀ part ∈ (scan format args).parts, part.Roomy := by
  have each : (∀ x ∈ (scan format args).stores, x.Inside) ↔
      ∀ part ∈ (scan format args).parts, part.Roomy := by
    unfold Scanned.stores
    simp only [List.forall_mem_flatMap, List.mem_reverse]
    exact forall₂_congr fun part mem => stores_inside_iff (scan_fromArgument mem)
  rw [← each]
  constructor
  · intro inside
    have run := vcbprintfAll_accepted
      (accepts_placeholder.feed (scan format args).chunks ())
    have all := inside (callbackPlaceholder (σ := Unit)) ()
    rw [run] at all
    simpa [Printf.after, Printf.start] using all
  · exact fun inside σ callback ctx x mem => inside x (stores_of_run mem)

/-- `%+#x` asks for a terminator behind `prefix`, and `%lo` with 2 ^ 63 for a digit behind `buf`. -/
theorem not_storesInside :
    ¬ StoresInside ("%+#x".toList.map ascii) [.int 1] ∧
      ¬ StoresInside ("%lo".toList.map ascii) [.long (BitVec.ofNat 64 (2 ^ 63))] := by
  constructor
  · intro inside
    exact absurd (inside (callbackPlaceholder (σ := Unit)) () (.prefixAt 3) (by decide +kernel))
      (by unfold ArrayStore.Inside; omega)
  · intro inside
    exact absurd (inside (callbackPlaceholder (σ := Unit)) () (.bufAt 21) (by decide +kernel))
      (by unfold ArrayStore.Inside; omega)

/-! ## The count -/

/-- The number of bytes handed over for a part. -/
def Part.size (part : Part) : ℕ := (part.chunks.map List.length).sum

theorem integer_size (d : Directive) (specifier : Byte) (value : ℕ) (negative : Bool) :
    (Part.integer d specifier value negative).size =
      (if d.flags.zero then 0 else padding d specifier value negative) +
        ((prefixChars d.flags specifier negative).length +
        ((if d.flags.zero ∧ ¬ d.flags.minus then padding d specifier value negative else 0) +
        ((printedWidth d specifier value - bufLength (conversionBase specifier) 64 value) +
        (bufLength (conversionBase specifier) 64 value +
        (if d.flags.minus then padding d specifier value negative else 0))))) := by
  simp [Part.size, Part.chunks]

/-- No sign and no `0`, `0x` or `0X` is printed. -/
def Unprefixed (flags : PrintfFlags) (specifier : Byte) (negative : Bool) : Prop :=
  negative = false ∧ flags.plus = false ∧ flags.space = false ∧
    ¬ (flags.hash = true ∧ (specifier = ascii 'x' ∨ specifier = ascii 'X' ∨ specifier = ascii 'o'))

theorem prefixChars_eq_nil_iff (flags : PrintfFlags) (specifier : Byte) (negative : Bool) :
    prefixChars flags specifier negative = [] ↔ Unprefixed flags specifier negative := by
  unfold prefixChars Unprefixed
  rw [List.append_eq_nil_iff]
  have sign : (if negative then [ascii '-'] else if flags.plus then [ascii '+']
      else if flags.space then [ascii ' '] else []) = [] ↔
      negative = false ∧ flags.plus = false ∧ flags.space = false := by
    cases negative <;> cases flags.plus <;> cases flags.space <;> simp
  rw [sign, and_assoc, and_assoc]
  refine and_congr_right fun _ => and_congr_right fun _ => and_congr_right fun _ => ?_
  split_ifs with hex octal
  · simp only [false_iff, not_not]
    exact ⟨hex.1, hex.2.imp_right .inl⟩
  · simp only [false_iff, not_not]
    exact ⟨octal.1, .inr (.inr octal.2)⟩
  · simp only [true_iff]
    rintro ⟨hash, x | X | o⟩
    · exact hex ⟨hash, .inl x⟩
    · exact hex ⟨hash, .inr X⟩
    · exact octal ⟨hash, o⟩

/-- All bytes of the part are counted: it is no decorated percent sign, and an integer has no prefix
and no more room than digits. -/
def Part.Plain : Part → Prop
  | .percent => False
  | .integer d specifier value negative =>
    Unprefixed d.flags specifier negative ∧
      (d.precision = noPrecision ∨ d.precision ≤ bufLength (conversionBase specifier) 64 value) ∧
      d.width ≤ bufLength (conversionBase specifier) 64 value
  | _ => True

theorem Part.counted_le_size (part : Part) : part.counted ≤ part.size := by
  cases part with
  | integer d specifier value negative =>
    rw [integer_size]
    show bufLength (conversionBase specifier) 64 value ≤ _
    omega
  | block | percent | string | char => simp [Part.counted, Part.size, Part.chunks]

theorem le_printedWidth (d : Directive) (specifier : Byte) (value : ℕ) :
    bufLength (conversionBase specifier) 64 value ≤ printedWidth d specifier value := by
  unfold printedWidth
  split_ifs <;> omega

theorem printedWidth_le_iff (d : Directive) (specifier : Byte) (value : ℕ) :
    printedWidth d specifier value ≤ bufLength (conversionBase specifier) 64 value ↔
      d.precision = noPrecision ∨ d.precision ≤ bufLength (conversionBase specifier) 64 value := by
  unfold printedWidth
  by_cases none : d.precision = noPrecision
  · rw [if_neg fun h => h.1 none]
    exact ⟨fun _ => .inl none, fun _ => Nat.le_refl _⟩
  · split_ifs with more
    · exact ⟨fun le => .inr le, fun either => either.resolve_left none⟩
    · exact ⟨fun _ => .inr (Nat.le_of_not_lt fun lt => more ⟨none, lt⟩), fun _ => Nat.le_refl _⟩

theorem padding_eq_zero_iff (d : Directive) (specifier : Byte) (value : ℕ) (negative : Bool) :
    padding d specifier value negative = 0 ↔
      d.width ≤ (printedWidth d specifier value +
        (prefixChars d.flags specifier negative).length) % 2 ^ 64 := by
  unfold padding
  split_ifs <;> omega

/-- The padding is written at least once. -/
theorem pads_eq_zero_iff (flags : PrintfFlags) (pad : ℕ) :
    (if flags.zero then 0 else pad) + (if flags.zero ∧ ¬ flags.minus then pad else 0) +
      (if flags.minus then pad else 0) = 0 ↔ pad = 0 := by
  cases flags.zero <;> cases flags.minus <;> simp

/-- Exactly the plain parts are counted in full. -/
theorem Part.counted_eq_size_iff {part : Part} (argument : part.FromArgument) :
    part.counted = part.size ↔ part.Plain := by
  cases part with
  | block | string | char => simp [Part.counted, Part.size, Part.chunks, Part.Plain]
  | percent => simp [Part.counted, Part.size, Part.chunks, Part.Plain]
  | integer d specifier value negative =>
    have digits := bufLength_le specifier argument.1
    have wide := le_printedWidth d specifier value
    have printed := printedWidth_le_iff d specifier value
    have padded := padding_eq_zero_iff d specifier value negative
    have pads := pads_eq_zero_iff d.flags (padding d specifier value negative)
    rw [integer_size]
    show bufLength (conversionBase specifier) 64 value = _ ↔
      Unprefixed d.flags specifier negative ∧ (_ ∨ _) ∧ _
    rw [← prefixChars_eq_nil_iff, ← List.length_eq_zero_iff, ← printed]
    constructor
    · intro full
      have noPrefix : (prefixChars d.flags specifier negative).length = 0 := by omega
      have narrow : printedWidth d specifier value ≤ bufLength
        (conversionBase specifier) 64 value := by
        omega
      have noPad := padded.mp (pads.mp (by omega))
      exact ⟨noPrefix, narrow, by omega⟩
    · rintro ⟨noPrefix, narrow, fits⟩
      have noPad := pads.mpr (padded.mpr (by omega))
      omega

/-- Two sums with terms that are at most each other's agree when the terms do. -/
theorem sum_eq_iff {α : Type} {f g : α → ℕ} (le : ∀ x, f x ≤ g x) (l : List α) :
    (l.map f).sum ≤ (l.map g).sum ∧ ((l.map f).sum = (l.map g).sum ↔ ∀ x ∈ l, f x = g x) := by
  induction l with
  | nil => simp
  | cons x l ih =>
    have here := le x
    simp only [List.map_cons, List.sum_cons, List.forall_mem_cons]
    rw [← ih.2]
    omega

/-- The number of bytes that a run hands over. -/
def bytesHanded (calls : List (List Byte × ℕ)) : ℕ := (calls.map fun call => call.1.length).sum

theorem bytesHanded_accepts {σ : Type} {callback : PrintfCallback σ} (accepts : Accepts callback)
    (ctx : σ) (format : List Byte) (args : List VaArg) :
    bytesHanded (callsMade callback ctx format args) =
      ((scan format args).printed.map Part.size).sum := by
  have chunks := accepts.handed (scan format args).chunks ctx
  rw [← callsMade_eq callback ctx format args] at chunks
  unfold bytesHanded
  rw [show (fun call : List Byte × ℕ => call.1.length) = List.length ∘ Prod.fst from rfl,
    ← List.map_map, chunks]
  unfold Scanned.chunks
  induction (scan format args).printed with
  | nil => rfl
  | cons part parts ih =>
    rw [List.flatMap_cons, List.map_append, List.sum_append, List.map_cons, List.sum_cons, ih]
    rfl

/-- **The value of `vcbprintf` is its output's length exactly when every part is plain and has
room.** -/
theorem vcbprintf_counts_iff {σ : Type} (callback : PrintfCallback σ) (accepts : Accepts callback)
    (ctx : σ) (format : List Byte) (args : List VaArg)
    (given : vcbprintf ctx (some callback) (some format) args ≠ .error .argument)
    (fits : bytesHanded (callsMade callback ctx format args) ≤ intMax) :
    (∃ ctx', vcbprintf ctx (some callback) (some format) args =
        .ok (bytesHanded (callsMade callback ctx format args), ctx')) ↔
      ∀ part ∈ (scan format args).parts, part.Plain ∧ part.Roomy := by
  rw [bytesHanded_accepts accepts] at fits ⊢
  have roomy := scan_outOfBounds_iff format args
  rw [vcbprintf_accepted (accepts.feed _ _)] at given ⊢
  rcases scan_result format args with ends | ends | ends
  · obtain ⟨le, eq_iff⟩ := sum_eq_iff Part.counted_le_size (scan format args).printed
    have small : (scan format args).counted ≤ intMax := Nat.le_trans le fits
    have value : (scan format args).returns = (scan format args).counted := by
      unfold Scanned.returns
      rw [Nat.mod_eq_of_lt (Nat.lt_of_le_of_lt small (by decide)), if_neg (Nat.not_lt.mpr small)]
    have inside := roomy.mp (by rw [ends]; decide)
    rw [ends]
    dsimp only
    rw [value]
    simp only [Except.ok.injEq, Prod.mk.injEq, exists_and_left, exists_eq', and_true, Int.natCast_inj]
    rw [Scanned.counted, eq_iff, scan_printed (by rw [ends]; decide)]
    exact forall₂_congr fun part mem => (Part.counted_eq_size_iff (scan_fromArgument mem)).trans
      ⟨fun plain => ⟨plain, inside part mem⟩, fun both => both.1⟩
  · rw [ends] at given
    exact absurd rfl given
  · rw [ends]
    constructor
    · rintro ⟨ctx', returns⟩
      cases returns
    · intro good
      exact absurd ends (roomy.mpr fun part mem => (good part mem).2)

/-- `%5d` with 7 hands over five bytes and returns 1. -/
theorem vcbprintf_counts_padded :
    vcbprintf [] (some collect) (some ("%5d".toList.map ascii)) [.int 7] =
        .ok (1, "    7".toList.map ascii) ∧
      bytesHanded (callsMade collect [] ("%5d".toList.map ascii) [.int 7]) = 5 := by
  decide +kernel

/-- `no %d` with 42. -/
theorem vcbprintf_counts_plain :
    (∃ out, vcbprintf [] (some collect) (some ("no %d".toList.map ascii)) [.int 42] =
        .ok (bytesHanded (callsMade collect [] ("no %d".toList.map ascii) [.int 42]), out)) ↔
      ∀ part ∈ (scan ("no %d".toList.map ascii) [.int 42]).parts, part.Plain ∧ part.Roomy :=
  vcbprintf_counts_iff collect accepts_collect [] ("no %d".toList.map ascii) [.int 42]
    (by decide +kernel) (by decide +kernel)

end Vineyard
