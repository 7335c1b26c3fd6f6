import Vineyard.Lib.Simulation
import Vineyard.Lib.Strings
import Vineyard.Stdio.Output

/-!
# The formatter on memory

`vcbprintf` with the format as a pointer, here an offset into the memory that starts with the format.
Every byte that is read through the pointer is noted, and every loop has a number of steps of its own.
On a terminated string these programs simulate those on lists, and what they read is the string and its
terminator.
-/

namespace Vineyard

open Programs Programs.Prog Strings

/-- The variables of the formatter and the offsets that were read. -/
structure Reader (σ : Type) where
  printf : Printf σ
  reads : List ℕ

abbrev ReaderM (σ : Type) := Prog PrintfStop (Reader σ)

variable {σ : Type}

/-- Everything but the reads. -/
def printfOf : Component (Reader σ) (Printf σ) where
  view s := s.printf
  put t s := { s with printf := t }
  view_put _ _ := rfl
  put_view _ := rfl
  put_put _ _ _ := rfl

section Pointers

variable (callback : PrintfCallback σ) (memory : ℕ → Byte) (steps : ℕ)

/-- `*format` -/
def readByte (format : ℕ) : ReaderM σ Byte := do
  modify fun s => { s with reads := format :: s.reads }
  return memory format

/-- `while(format[block] && format[block] != '%')` -/
def blockLoop (format : ℕ) : ℕ → ℕ → ReaderM σ ℕ
  | 0, _ => fail .endless
  | steps + 1, block => do
    let c ← readByte memory (format + block)
    if c = 0 then return block
    else if c = ascii '%' then return block
    else blockLoop format steps (block + 1)

/-- `normal_print` -/
def normalPrintAt (format : ℕ) : ReaderM σ ℕ := do
  let block ← blockLoop memory format steps 1
  modify fun s => { s with reads := List.range' format block ++ s.reads }
  (do
    emit callback (chunkBytes (advance memory format) block)
    count block).on printfOf
  return format + block

/-- `while(*format)` over the flags -/
def readFlagsAt : ℕ → PrintfFlags → ℕ → ReaderM σ (PrintfFlags × ℕ)
  | 0, _, _ => fail .endless
  | steps + 1, flags, format => do
    let c ← readByte memory format
    if c = 0 then return (flags, format)
    else if c = ascii '#' then readFlagsAt steps { flags with hash := true } (format + 1)
    else if c = ascii '-' then readFlagsAt steps { flags with minus := true } (format + 1)
    else if c = ascii '+' then readFlagsAt steps { flags with plus := true } (format + 1)
    else if c = ascii ' ' then readFlagsAt steps { flags with space := true } (format + 1)
    else if c = ascii '0' then readFlagsAt steps { flags with zero := true } (format + 1)
    else return (flags, format)

/-- The loops that read a width or a precision. -/
def readDigitsAt : ℕ → ℕ → ℕ → ReaderM σ (ℕ × ℕ)
  | 0, _, _ => fail .endless
  | steps + 1, n, format => do
    let c ← readByte memory format
    if isDigit c then
      readDigitsAt steps ((n * 10 + (c.toNat - (ascii '0').toNat)) % 2 ^ 64) (format + 1)
    else return (n, format)

/-- `width_read` -/
def readWidthAt (format : ℕ) : ReaderM σ (ℕ × ℕ) := do
  let digits ← readDigitsAt memory steps 0 format
  let c ← readByte memory digits.2
  if c = ascii '*' then do
    let w ← vaInt.on printfOf
    return ((w.signExtend 64).toNat, digits.2 + 1)
  else return digits

def readPrecisionAt (format : ℕ) : ReaderM σ (ℕ × ℕ) := do
  let c ← readByte memory format
  if c = ascii '.' then readDigitsAt memory steps 0 (format + 1) else return (noPrecision, format)

/-- `strncmp` of the format and a name. -/
def strncmpAt : ℕ → ℕ → List Byte → ReaderM σ ℤ
  | 0, _, _ => return 0
  | n + 1, s1, s2 => do
    let u1 ← readByte memory s1
    let u2 := s2.headD 0
    if u1 ≠ u2 then return (u1.toNat : ℤ) - u2.toNat
    else if u1 = 0 then return 0
    else strncmpAt n (s1 + 1) s2.tail

/-- One iteration of the search for the length modifier. -/
def matchLengthAt (format : ℕ) (best : PrintfLength × ℕ) (m : List Byte × PrintfLength) :
    ReaderM σ (PrintfLength × ℕ) :=
  if m.1.length < best.2 then return best
  else do
    let difference ← strncmpAt memory m.1.length format m.1
    if difference ≠ 0 then return best else return (m.2, m.1.length)

def matchLengthsAt (format : ℕ) :
    List (List Byte × PrintfLength) → PrintfLength × ℕ → ReaderM σ (PrintfLength × ℕ)
  | [], best => return best
  | m :: modifiers, best => do
    let best ← matchLengthAt memory format best m
    matchLengthsAt format modifiers best

def readLengthAt (format : ℕ) : ReaderM σ (PrintfLength × ℕ) := do
  let found ← matchLengthsAt memory format lengthModifiers (.default, 0)
  return (found.1, format + found.2)

/-- A conversion at `format`, or `unknown_conversion` with its start. -/
def finishConversionAt (formatStart format : ℕ) : Option (PrintfM σ Unit) → ReaderM σ ℕ
  | some conversion => do
    conversion.on printfOf
    return format + 1
  | none => do
    (modify fun s => { s with badConversion := true } : PrintfM σ Unit).on printfOf
    normalPrintAt callback memory steps formatStart

/-- A `%` that is no escape. -/
def vcbprintfConversionAt (format : ℕ) : ReaderM σ ℕ := do
  let flags ← readFlagsAt memory steps {} (format + 1)
  let width ← readWidthAt memory steps flags.2
  let precision ← readPrecisionAt memory steps width.2
  let length ← readLengthAt memory precision.2
  let specifier ← readByte memory length.2
  finishConversionAt callback memory steps format length.2
    (convert callback ⟨flags.1, width.1, precision.1, length.1⟩ specifier)

/-- One iteration of the loop over the format. -/
def vcbprintfStepAt (format : ℕ) : ReaderM σ ℕ := do
  let c ← readByte memory format
  if c ≠ ascii '%' then normalPrintAt callback memory steps format
  else do
    let next ← readByte memory (format + 1)
    if next = ascii '%' then normalPrintAt callback memory steps (format + 1)
    else do
      let s ← get
      if s.printf.badConversion then normalPrintAt callback memory steps format
      else vcbprintfConversionAt callback memory steps format

/-- `while(*format)` -/
def vcbprintfLoopAt : ℕ → ℕ → ReaderM σ Unit
  | 0, _ => fail .endless
  | iterations + 1, format => do
    let c ← readByte memory format
    if c = 0 then return ()
    else do
      let format ← vcbprintfStepAt callback memory steps format
      vcbprintfLoopAt iterations format

end Pointers

/-- The loop of `vcbprintf` on a format in memory, where no loop makes more than `steps` steps. -/
def vcbprintfAt (callback : PrintfCallback σ) (memory : ℕ → Byte) (steps : ℕ) : ReaderM σ Unit :=
  vcbprintfLoopAt callback memory steps steps 0

/-! ## Pointers into a string -/

/-- The pointer is in the string, or at its terminator. -/
structure PointsTo (text : List Byte) (format : ℕ) (rest : List Byte) : Prop where
  drop_eq : text.drop format = rest
  inside : format + rest.length = text.length

/-- A value and a pointer, and a value and the rest of the format. -/
def SamePlace {α : Type} (text : List Byte) (a : α × ℕ) (b : α × List Byte) : Prop :=
  a.1 = b.1 ∧ PointsTo text a.2 b.2

/-- The variables are the same, and nothing behind the terminator was read. -/
structure ReadsInside (text : List Byte) (s : Reader σ) (t : Printf σ) : Prop where
  printf_eq : s.printf = t
  reads_le : ∀ i ∈ s.reads, i ≤ text.length

section Simulation

variable {text : List Byte} {behind : ℕ → Byte} {callback : PrintfCallback σ} {steps format : ℕ}
  {rest : List Byte} {α β : Type} {R : α → β → Prop}

theorem peek_cons (c : Byte) (rest : List Byte) : peek (c :: rest) = c := rfl

theorem PointsTo.start (text : List Byte) : PointsTo text 0 text := ⟨rfl, Nat.zero_add _⟩

theorem PointsTo.byte_eq (here : PointsTo text format rest) :
    stringAt text behind format = peek rest := by
  rw [stringAt_eq text behind format (by have := here.inside; omega), here.drop_eq]
  rfl

theorem PointsTo.drop (here : PointsTo text format rest) {n : ℕ} (enough : n ≤ rest.length) :
    PointsTo text (format + n) (rest.drop n) := by
  refine ⟨?_, ?_⟩
  · rw [← here.drop_eq, List.drop_drop]
  · have := here.inside
    rw [List.length_drop]
    omega

/-- A byte that is none is the terminator. -/
theorem PointsTo.tail (here : PointsTo text format rest) (more : peek rest ≠ 0) :
    PointsTo text (format + 1) rest.tail := by
  cases rest with
  | nil => exact absurd rfl more
  | cons c rest => exact here.drop (n := 1) (Nat.succ_le_succ (Nat.zero_le _))

theorem PointsTo.peek_ne_zero (here : PointsTo text format rest) (noNul : (0 : Byte) ∉ text)
    (more : rest ≠ []) : peek rest ≠ 0 := by
  cases rest with
  | nil => exact absurd rfl more
  | cons c rest =>
    rintro rfl
    exact noNul (List.mem_of_mem_drop (here.drop_eq ▸ List.mem_cons_self))

/-- A byte of the string, or its terminator, can be read. -/
theorem simulates_read (here : PointsTo text format rest) {f : Byte → ReaderM σ α} {l : PrintfM σ β}
    (next : Simulates (ReadsInside text) R (f (peek rest)) l) :
    Simulates (ReadsInside text) R (readByte (stringAt text behind) format >>= f) l := by
  unfold readByte
  rw [bind_assoc]
  refine Simulates.modify_bind (fun s t inside => ⟨inside.printf_eq, ?_⟩) ?_
  · intro i mem
    have := here.inside
    cases mem with
    | head => omega
    | tail _ mem => exact inside.reads_le i mem
  · rw [pure_bind, here.byte_eq]
    exact next

theorem simulates_on (l : PrintfM σ α) :
    Simulates (ReadsInside text) (fun a b => a = b) (l.on printfOf) l :=
  Simulates.on printfOf l fun _ _ inside => ⟨inside.printf_eq, fun _ => ⟨rfl, inside.reads_le⟩⟩

/-- The block ends before the next `%` or at the terminator. -/
theorem blockLoop_simulates (noNul : (0 : Byte) ∉ text) : ∀ (steps block : ℕ) (rest : List Byte),
    PointsTo text (format + block) rest → rest.length < steps →
      Simulates (ReadsInside text) (fun (a b : ℕ) => a = b)
        (blockLoop (stringAt text behind) format steps block)
        (pure (block + (rest.takeWhile (· ≠ ascii '%')).length) : PrintfM σ ℕ) := by
  intro steps
  induction steps with
  | zero => exact fun _ _ _ short => absurd short (Nat.not_lt_zero _)
  | succ steps ih =>
    intro block rest here short
    rw [blockLoop]
    refine simulates_read here ?_
    cases rest with
    | nil => exact Simulates.pure rfl
    | cons c rest =>
      have more := here.peek_ne_zero noNul (List.cons_ne_nil c rest)
      rw [if_neg more, peek_cons]
      by_cases percent : c = ascii '%'
      · rw [if_pos percent, List.takeWhile_cons_of_neg (by simp [percent])]
        exact Simulates.pure rfl
      · rw [if_neg percent, List.takeWhile_cons_of_pos (by simp [percent]), List.length_cons,
          ← Nat.add_assoc, Nat.add_right_comm]
        exact ih (block + 1) rest (here.tail more) (Nat.lt_of_succ_lt_succ short)

theorem normalPrintAt_simulates (noNul : (0 : Byte) ∉ text) (enough : text.length < steps)
    (here : PointsTo text format rest) (more : rest ≠ []) :
    Simulates (ReadsInside text) (PointsTo text)
      (normalPrintAt callback (stringAt text behind) steps format) (normalPrint callback rest) := by
  have next := here.tail (here.peek_ne_zero noNul more)
  have whole := here.inside
  have whole' := next.inside
  unfold normalPrintAt normalPrint
  refine Simulates.bind_value (blockLoop_simulates noNul steps 1 rest.tail next (by omega)) ?_
  rintro block rfl
  have short := (List.takeWhile_prefix (l := rest.tail) (· ≠ ascii '%')).length_le
  have fits : 1 + (rest.tail.takeWhile (· ≠ ascii '%')).length ≤ rest.length := by omega
  refine Simulates.modify_bind (fun s t inside => ⟨inside.printf_eq, ?_⟩) ?_
  · intro i mem
    obtain block | before := List.mem_append.mp mem
    · obtain ⟨j, lt, rfl⟩ := List.mem_range'.mp block
      omega
    · exact inside.reads_le i before
  · rw [chunkBytes_stringAt text behind _ format (by omega), here.drop_eq, ← bind_assoc]
    refine Simulates.bind (simulates_on _) fun _ _ _ => ?_
    exact Simulates.pure (here.drop fits)

/-! ### The scanner -/

theorem readFlagsAt_simulates (noNul : (0 : Byte) ∉ text) : ∀ (steps : ℕ) (flags : PrintfFlags)
    (format : ℕ) (rest : List Byte), PointsTo text format rest → rest.length < steps →
      Simulates (ReadsInside text) (SamePlace text)
        (readFlagsAt (stringAt text behind) steps flags format)
        (pure (readFlags flags rest) : PrintfM σ (PrintfFlags × List Byte)) := by
  intro steps
  induction steps with
  | zero => exact fun _ _ _ _ short => absurd short (Nat.not_lt_zero _)
  | succ steps ih =>
    intro flags format rest here short
    rw [readFlagsAt]
    refine simulates_read here ?_
    cases rest with
    | nil => exact Simulates.pure ⟨rfl, here⟩
    | cons c rest =>
      have more := here.peek_ne_zero noNul (List.cons_ne_nil c rest)
      have next (flags : PrintfFlags) := ih flags (format + 1) rest (here.tail more)
        (Nat.lt_of_succ_lt_succ short)
      rw [if_neg more, readFlags]
      refine Simulates.ite_value (fun _ => next _) fun _ => ?_
      refine Simulates.ite_value (fun _ => next _) fun _ => ?_
      refine Simulates.ite_value (fun _ => next _) fun _ => ?_
      refine Simulates.ite_value (fun _ => next _) fun _ => ?_
      refine Simulates.ite_value (fun _ => next _) fun _ => ?_
      exact Simulates.pure ⟨rfl, here⟩

theorem readDigitsAt_simulates : ∀ (steps n format : ℕ) (rest : List Byte),
    PointsTo text format rest → rest.length < steps →
      Simulates (ReadsInside text) (SamePlace text)
        (readDigitsAt (stringAt text behind) steps n format)
        (pure (readDigits n rest) : PrintfM σ (ℕ × List Byte)) := by
  intro steps
  induction steps with
  | zero => exact fun _ _ _ _ short => absurd short (Nat.not_lt_zero _)
  | succ steps ih =>
    intro n format rest here short
    rw [readDigitsAt]
    refine simulates_read here ?_
    cases rest with
    | nil => exact Simulates.pure ⟨rfl, here⟩
    | cons c rest =>
      rw [readDigits]
      refine Simulates.ite_value (fun digit => ?_) fun _ => Simulates.pure ⟨rfl, here⟩
      have more : peek (c :: rest) ≠ 0 := by
        rintro rfl
        cases digit
      exact ih _ (format + 1) rest (here.tail more) (Nat.lt_of_succ_lt_succ short)

theorem readWidthAt_simulates (enough : text.length < steps) (here : PointsTo text format rest) :
    Simulates (ReadsInside text) (SamePlace text) (readWidthAt (stringAt text behind) steps format)
      (readWidth rest : PrintfM σ (ℕ × List Byte)) := by
  have short := here.inside
  unfold readWidthAt readWidth
  refine Simulates.bind_value (readDigitsAt_simulates steps 0 format rest here (by omega)) ?_
  rintro ⟨n, format⟩ ⟨rfl, next⟩
  refine simulates_read next ?_
  refine Simulates.ite (fun star => ?_) fun _ => Simulates.pure ⟨rfl, next⟩
  refine Simulates.bind (simulates_on _) ?_
  rintro w _ rfl
  exact Simulates.pure ⟨rfl, next.tail (by rw [star]; decide)⟩

theorem readPrecisionAt_simulates (enough : text.length < steps) (here : PointsTo text format rest) :
    Simulates (ReadsInside text) (SamePlace text)
      (readPrecisionAt (stringAt text behind) steps format)
      (pure (readPrecision rest) : PrintfM σ (ℕ × List Byte)) := by
  unfold readPrecisionAt readPrecision
  refine simulates_read here ?_
  refine Simulates.ite_value (fun dot => ?_) fun _ => Simulates.pure ⟨rfl, here⟩
  have next := here.tail (by rw [dot]; decide)
  have short := next.inside
  exact readDigitsAt_simulates steps 0 (format + 1) rest.tail next (by omega)

theorem strncmpAt_simulates : ∀ (n format : ℕ) (rest name : List Byte), PointsTo text format rest →
    Simulates (ReadsInside text) (fun a b => a = b) (strncmpAt (stringAt text behind) n format name)
      (pure (strncmp rest name n) : PrintfM σ ℤ) := by
  intro n
  induction n with
  | zero => exact fun _ _ _ _ => Simulates.pure rfl
  | succ n ih =>
    intro format rest name here
    rw [strncmpAt, strncmp]
    refine simulates_read here ?_
    refine Simulates.ite_value (fun _ => Simulates.pure rfl) fun _ => ?_
    exact Simulates.ite_value (fun _ => Simulates.pure rfl) fun more =>
      ih (format + 1) rest.tail name.tail (here.tail more)

variable (behind) in
theorem matchLengthsAt_simulates (here : PointsTo text format rest) :
    ∀ (modifiers : List (List Byte × PrintfLength)) (best : PrintfLength × ℕ),
      Simulates (ReadsInside text) (fun a b => a = b)
        (matchLengthsAt (stringAt text behind) format modifiers best)
        (pure (modifiers.foldl (matchLength rest) best) : PrintfM σ (PrintfLength × ℕ)) := by
  intro modifiers
  induction modifiers with
  | nil => exact fun _ => Simulates.pure rfl
  | cons m modifiers ih =>
    intro best
    have first : Simulates (ReadsInside text) (fun a b => a = b)
        (matchLengthAt (stringAt text behind) format best m)
        (pure (matchLength rest best m) : PrintfM σ (PrintfLength × ℕ)) := by
      unfold matchLengthAt matchLength
      refine Simulates.ite_value (fun _ => Simulates.pure rfl) fun _ => ?_
      refine Simulates.bind_value (strncmpAt_simulates m.1.length format rest m.1 here) ?_
      rintro difference rfl
      exact Simulates.ite_value (fun _ => Simulates.pure rfl) fun _ => Simulates.pure rfl
    rw [matchLengthsAt, List.foldl_cons]
    refine Simulates.bind_value first ?_
    rintro best' rfl
    exact ih _

/-- The length modifier that is found is in the format. -/
theorem foldl_matchLength_le (rest : List Byte) (modifiers : List (List Byte × PrintfLength)) :
    (∀ m ∈ modifiers, ∀ c ∈ m.1, c ≠ 0) → ∀ best : PrintfLength × ℕ, best.2 ≤ rest.length →
      (modifiers.foldl (matchLength rest) best).2 ≤ rest.length := by
  induction modifiers with
  | nil => exact fun _ _ inside => inside
  | cons m modifiers ih =>
    intro noNul best inside
    rw [List.forall_mem_cons] at noNul
    refine ih noNul.2 _ ?_
    unfold matchLength
    split_ifs with shorter differ
    · exact inside
    · exact inside
    · exact ((strncmp_eq_zero noNul.1 rest).mp (not_not.mp differ)).length_le

variable (behind) in
theorem readLengthAt_simulates (here : PointsTo text format rest) :
    Simulates (ReadsInside text) (SamePlace text) (readLengthAt (stringAt text behind) format)
      (pure (readLength rest) : PrintfM σ (PrintfLength × List Byte)) := by
  unfold readLengthAt readLength
  have inside := foldl_matchLength_le rest lengthModifiers (by decide +kernel) (.default, 0)
    (Nat.zero_le _)
  have search := matchLengthsAt_simulates (σ := σ) behind here lengthModifiers (.default, 0)
  generalize lengthModifiers.foldl (matchLength rest) (.default, 0) = found at inside search
  refine Simulates.bind_value search ?_
  rintro _ rfl
  exact Simulates.pure ⟨rfl, here.drop inside⟩

/-! ### The loop -/

theorem convert_nul (d : Directive) : convert callback d 0 = none := by
  unfold convert
  simp [ascii]

theorem finishConversionAt_simulates (noNul : (0 : Byte) ∉ text) (enough : text.length < steps)
    {formatStart : ℕ} {start : List Byte} (from_start : PointsTo text formatStart start)
    (more : start ≠ []) (here : PointsTo text format rest) (d : Directive) :
    Simulates (ReadsInside text) (PointsTo text)
      (finishConversionAt callback (stringAt text behind) steps formatStart format
        (convert callback d (peek rest)))
      (finishConversion callback start rest (convert callback d (peek rest))) := by
  cases conversion : convert callback d (peek rest) with
  | some conversion =>
    have specifier : peek rest ≠ 0 := by
      intro nul
      rw [nul, convert_nul] at conversion
      cases conversion
    refine Simulates.bind (simulates_on _) fun _ _ _ => ?_
    exact Simulates.pure (here.tail specifier)
  | none =>
    refine Simulates.bind (simulates_on _) fun _ _ _ => ?_
    exact normalPrintAt_simulates noNul enough from_start more

theorem vcbprintfConversionAt_simulates (noNul : (0 : Byte) ∉ text) (enough : text.length < steps)
    (here : PointsTo text format rest) (more : rest ≠ []) :
    Simulates (ReadsInside text) (PointsTo text)
      (vcbprintfConversionAt callback (stringAt text behind) steps format)
      (vcbprintfConversion callback rest) := by
  have next := here.tail (here.peek_ne_zero noNul more)
  have short := next.inside
  unfold vcbprintfConversionAt vcbprintfConversion
  dsimp only
  refine Simulates.bind_value
    (readFlagsAt_simulates noNul steps {} (format + 1) rest.tail next (by omega)) ?_
  rintro ⟨flags, format₁⟩ ⟨rfl, atWidth⟩
  refine Simulates.bind (readWidthAt_simulates enough atWidth) ?_
  rintro ⟨width, format₂⟩ ⟨_, rest₂⟩ ⟨rfl, atPrecision⟩
  refine Simulates.bind_value (readPrecisionAt_simulates enough atPrecision) ?_
  rintro ⟨precision, format₃⟩ ⟨rfl, atLength⟩
  have search := readLengthAt_simulates (σ := σ) behind atLength
  generalize readLength (readPrecision rest₂).2 = length at search
  refine Simulates.bind_value search ?_
  rintro ⟨_, format₄⟩ ⟨rfl, atSpecifier⟩
  refine simulates_read atSpecifier ?_
  exact finishConversionAt_simulates noNul enough here more atSpecifier _

variable (behind callback) in
theorem vcbprintfStepAt_simulates (noNul : (0 : Byte) ∉ text) (enough : text.length < steps)
    (here : PointsTo text format rest) (more : rest ≠ []) :
    Simulates (ReadsInside text) (PointsTo text)
      (vcbprintfStepAt callback (stringAt text behind) steps format)
      (vcbprintfStep callback rest) := by
  have next := here.tail (here.peek_ne_zero noNul more)
  unfold vcbprintfStepAt vcbprintfStep
  refine simulates_read here ?_
  refine Simulates.ite (fun _ => normalPrintAt_simulates noNul enough here more) fun _ => ?_
  refine simulates_read next ?_
  refine Simulates.ite (fun escape => ?_) fun _ => ?_
  · refine normalPrintAt_simulates noNul enough next ?_
    intro none
    rw [none] at escape
    cases escape
  · refine Simulates.get_bind fun s t inside => ?_
    rw [inside.printf_eq]
    exact Simulates.ite (fun _ => normalPrintAt_simulates noNul enough here more) fun _ =>
      vcbprintfConversionAt_simulates noNul enough here more

variable (behind callback) in
theorem vcbprintfLoopAt_simulates (noNul : (0 : Byte) ∉ text) (enough : text.length < steps) :
    ∀ (iterations format : ℕ) (rest : List Byte), PointsTo text format rest →
      rest.length < iterations →
      Simulates (ReadsInside text) (fun a b => a = b)
        (vcbprintfLoopAt callback (stringAt text behind) steps iterations format)
        (vcbprintfAll callback rest) := by
  intro iterations
  induction iterations with
  | zero => exact fun _ _ _ short => absurd short (Nat.not_lt_zero _)
  | succ iterations ih =>
    intro format rest here short
    rw [vcbprintfLoopAt]
    refine simulates_read here ?_
    cases rest with
    | nil => exact Simulates.pure rfl
    | cons c rest =>
      rw [if_neg (here.peek_ne_zero noNul (List.cons_ne_nil c rest)), vcbprintfAll_cons]
      have step := (vcbprintfStepAt_simulates behind callback noNul enough here
        (List.cons_ne_nil c rest)).returns (vcbprintfStep_leaves c rest)
      refine step.bind ?_
      rintro format' rest' ⟨there, shorter⟩
      exact ih format' rest' there (Nat.lt_of_le_of_lt shorter (Nat.lt_of_succ_lt_succ short))

end Simulation

/-- The formatter never makes too many iterations. -/
theorem vcbprintfAll_ends (callback : PrintfCallback σ) (format : List Byte)
    (args : List VaArg) (ctx : σ) :
    ((vcbprintfAll callback format).run (.start ctx args)).1 ≠ .error .endless := by
  cases taken : feed callback ctx (scan format args).chunks with
  | mk all ctx' =>
    cases all with
    | true =>
      rw [vcbprintfAll_accepted taken]
      obtain ends | ends | ends := scan_result format args
      · rw [ends]
        exact fun same => (by cases same)
      · rw [ends]
        exact fun same => (by cases same)
      · rw [ends]
        exact fun same => (by cases same)
    | false =>
      obtain ⟨t, run, -⟩ := vcbprintfAll_rejected taken
      rw [run]
      exact fun same => (by cases same)

/-- **The formatter on a terminated string ends, and reads the string and its terminator only.**  It
does what it does on the list of the bytes. -/
theorem vcbprintfAt_run (callback : PrintfCallback σ) {text : List Byte} (noNul : (0 : Byte) ∉ text)
    (behind : ℕ → Byte) (ctx : σ) (args : List VaArg) {steps : ℕ} (enough : text.length < steps) :
    ∃ reads, (vcbprintfAt callback (stringAt text behind) steps).run ⟨.start ctx args, []⟩ =
        (((vcbprintfAll callback text).run (.start ctx args)).1,
          ⟨((vcbprintfAll callback text).run (.start ctx args)).2, reads⟩) ∧
      ∀ i ∈ reads, i ≤ text.length := by
  have simulates := vcbprintfLoopAt_simulates behind callback noNul enough
    steps 0 text (.start text) enough
  obtain ⟨alike, inside⟩ := simulates.ends ⟨.start ctx args, []⟩ (.start ctx args)
    ⟨rfl, fun i mem => (by cases mem)⟩
  refine ⟨((vcbprintfAt callback (stringAt text behind) steps).run ⟨.start ctx args, []⟩).2.reads, ?_,
    inside.reads_le⟩
  rw [← alike.eq, ← inside.printf_eq]
  rfl

end Vineyard
