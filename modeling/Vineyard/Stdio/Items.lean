import Mathlib.Data.List.Basic
import Vineyard.Stdio.Vcbprintf

/-!
# The format language

A format is a list of items: literal text with every `%` doubled, and conversions.  The scanner finds
the items again, whatever their neighbours are: on the text of an item followed by any other text the
loop does what the item asks for and then goes on with the other text.
-/

namespace Vineyard

open Programs Programs.Prog

/-! ## Items -/

/-- A text without terminators. -/
structure Literal where
  chars : List Byte
  nonempty : chars ≠ []
  noNul : ∀ c ∈ chars, c ≠ 0

inductive FlagChar where
  | hash
  | minus
  | plus
  | space
  | zero
  deriving DecidableEq

/-- A width: absent, a decimal with a first digit of at least 1, or `*`. -/
inductive WidthItem where
  | none
  | digits (first : Fin 9) (rest : List (Fin 10))
  | star
  deriving DecidableEq

/-- The length modifiers of integers. -/
inductive Modifier where
  | hh
  | h
  | none
  | l
  | ll
  | j
  | z
  | t
  deriving DecidableEq

inductive Specifier where
  | d
  | i
  | o
  | u
  | x
  | X
  | p
  | c
  | s
  deriving DecidableEq

/-- A conversion as it is written. -/
structure Conversion where
  flags : List FlagChar
  width : WidthItem
  precision : Option (List (Fin 10))
  modifier : Modifier
  specifier : Specifier
  deriving DecidableEq

inductive FormatItem where
  | literal (l : Literal)
  | conversion (c : Conversion)

/-! ## What an item is written as -/

def digitChar (d : Fin 10) : Byte := UInt8.ofNat (48 + d)

def FlagChar.char : FlagChar → Byte
  | .hash => ascii '#'
  | .minus => ascii '-'
  | .plus => ascii '+'
  | .space => ascii ' '
  | .zero => ascii '0'

def WidthItem.text : WidthItem → List Byte
  | .none => []
  | .digits first rest => UInt8.ofNat (49 + first) :: rest.map digitChar
  | .star => [ascii '*']

def precisionText : Option (List (Fin 10)) → List Byte
  | none => []
  | some digits => ascii '.' :: digits.map digitChar

def Modifier.text : Modifier → List Byte
  | .hh => [ascii 'h', ascii 'h']
  | .h => [ascii 'h']
  | .none => []
  | .l => [ascii 'l']
  | .ll => [ascii 'l', ascii 'l']
  | .j => [ascii 'j']
  | .z => [ascii 'z']
  | .t => [ascii 't']

def Specifier.char : Specifier → Byte
  | .d => ascii 'd'
  | .i => ascii 'i'
  | .o => ascii 'o'
  | .u => ascii 'u'
  | .x => ascii 'x'
  | .X => ascii 'X'
  | .p => ascii 'p'
  | .c => ascii 'c'
  | .s => ascii 's'

/-- A `%` is doubled. -/
def escape (c : Byte) : List Byte := if c = ascii '%' then [c, c] else [c]

def Conversion.text (c : Conversion) : List Byte :=
  ascii '%' :: (c.flags.map FlagChar.char ++ (c.width.text ++ (precisionText c.precision ++
    (c.modifier.text ++ [c.specifier.char]))))

def FormatItem.text : FormatItem → List Byte
  | .literal l => l.chars.flatMap escape
  | .conversion c => c.text

/-! ## The arguments that an item asks for -/

inductive ArgType where
  | int
  | long
  | pointer
  | string
  deriving DecidableEq

def VaArg.type : VaArg → ArgType
  | .int _ => .int
  | .long _ => .long
  | .pointer _ => .pointer
  | .string _ => .string

/-- The type that a length modifier stands for. -/
def Modifier.argType : Modifier → ArgType
  | .hh | .h | .none => .int
  | .l | .ll | .j | .z | .t => .long

def Conversion.argType (c : Conversion) : ArgType :=
  match c.specifier with
  | .p => .pointer
  | .c => .int
  | .s => .string
  | _ => c.modifier.argType

/-- One argument for each conversion, after one for a `*`. -/
def Conversion.argTypes (c : Conversion) : List ArgType :=
  match c.width with
  | .star => [.int, c.argType]
  | _ => [c.argType]

/-- The arguments that match an item. -/
def FormatItem.Matches : FormatItem → List VaArg → Prop
  | .literal _, args => args = []
  | .conversion c, args => args.map VaArg.type = c.argTypes

/-! ## What is delivered -/

/-- The callback that accepts everything, and keeps it. -/
def collect : PrintfCallback (List Byte) := fun out chars => (chars.length, out ++ chars)

/-- The bytes that `vcbprintf` delivers, and the arguments that it leaves. -/
def delivers (format : List Byte) (args : List VaArg) :
    Except PrintfStop (List Byte × List VaArg) :=
  match (vcbprintfAll collect format).run (.start [] args) with
  | (.ok _, s) => .ok (s.ctx, s.args)
  | (.error stop, _) => .error stop

/-! ## Every iteration takes a byte -/

section Progress

variable {σ : Type} {callback : PrintfCallback σ}

theorem readFlags_length (format : List Byte) :
    ∀ flags, (readFlags flags format).2.length ≤ format.length := by
  induction format with
  | nil => intro flags; exact Nat.le_refl _
  | cons c format ih =>
    intro flags
    unfold readFlags
    split_ifs
    all_goals first
      | exact Nat.le_succ_of_le (ih _)
      | exact Nat.le_refl _

theorem readDigits_length (format : List Byte) :
    ∀ n, (readDigits n format).2.length ≤ format.length := by
  induction format with
  | nil => intro n; exact Nat.le_refl _
  | cons c format ih =>
    intro n
    unfold readDigits
    split_ifs
    · exact Nat.le_succ_of_le (ih _)
    · exact Nat.le_refl _

theorem readPrecision_length (format : List Byte) :
    (readPrecision format).2.length ≤ format.length := by
  unfold readPrecision
  split_ifs
  · exact Nat.le_trans (readDigits_length _ _) (by simp)
  · exact Nat.le_refl _

theorem readLength_length (format : List Byte) : (readLength format).2.length ≤ format.length := by
  unfold readLength
  simp

/-- The program returns formats of at most this length. -/
abbrev Leaves (m : PrintfM σ (List Byte)) (length : ℕ) : Prop :=
  Triple (fun _ => True) m (fun rest _ => rest.length ≤ length) fun _ => True

theorem normalPrint_leaves (c : Byte) (format : List Byte) :
    Leaves (normalPrint callback (c :: format)) format.length := by
  unfold normalPrint
  apply Triple.bind Triple.any
  intro _
  apply Triple.bind Triple.any
  intro _
  apply Triple.pure
  intro _ _
  simp only [List.length_drop, List.length_cons]
  omega

theorem readWidth_leaves (format : List Byte) :
    Triple (fun _ => True) (readWidth format : PrintfM σ (ℕ × List Byte))
      (fun found _ => found.2.length ≤ format.length) fun _ => True := by
  have digits := readDigits_length format 0
  unfold readWidth
  apply Triple.ite
  · intro _
    apply Triple.bind Triple.any
    intro _
    apply Triple.pure
    intro _ _
    simp only [List.length_tail]
    omega
  · intro _
    exact Triple.pure fun _ _ => digits

theorem finishConversion_leaves (c : Byte) (format rest : List Byte)
    (conversion : Option (PrintfM σ Unit)) (short : rest.length ≤ format.length) :
    Leaves (finishConversion callback (c :: format) rest conversion) format.length := by
  cases conversion with
  | some conversion =>
    unfold finishConversion
    apply Triple.bind Triple.any
    intro _
    apply Triple.pure
    intro _ _
    rw [List.length_tail]
    omega
  | none =>
    unfold finishConversion
    apply Triple.bind Triple.any
    intro _
    exact normalPrint_leaves c format

theorem vcbprintfConversion_leaves (c : Byte) (format : List Byte) :
    Leaves (vcbprintfConversion callback (c :: format)) format.length := by
  unfold vcbprintfConversion
  apply Triple.bind (readWidth_leaves (readFlags {} format).2)
  intro width
  apply Triple.of_state
  intro s short
  refine Triple.mono (finishConversion_leaves c format _ _ ?_) (fun _ _ => trivial) fun _ _ h => h
  calc (readLength (readPrecision width.2).2).2.length
      ≤ (readPrecision width.2).2.length := readLength_length _
    _ ≤ width.2.length := readPrecision_length _
    _ ≤ (readFlags {} format).2.length := short
    _ ≤ format.length := readFlags_length format {}

theorem vcbprintfStep_leaves (c : Byte) (format : List Byte) :
    Leaves (vcbprintfStep callback (c :: format)) format.length := by
  unfold vcbprintfStep
  apply Triple.ite
  · intro _
    exact normalPrint_leaves c format
  intro _
  apply Triple.ite
  · intro percent
    cases format with
    | nil => exact absurd percent (show ¬ (0 : Byte) = ascii '%' by decide)
    | cons d format =>
      exact (normalPrint_leaves d format).mono (fun _ h => h) fun _ _ => Nat.le_succ_of_le
  intro _
  apply Triple.get_bind
  intro s _
  refine Triple.mono ?_ (fun _ _ => trivial) fun _ _ h => h
  apply Triple.ite
  · intro _
    exact normalPrint_leaves c format
  · intro _
    exact vcbprintfConversion_leaves c format

/-- More iterations than bytes change nothing. -/
theorem vcbprintfLoop_eq (steps : ℕ) :
    ∀ format : List Byte, format.length ≤ steps →
      vcbprintfLoop callback steps format = vcbprintfAll callback format := by
  induction steps using Nat.strongRecOn with
  | ind steps ih =>
    intro format enough
    cases format with
    | nil => cases steps <;> rfl
    | cons c format =>
      obtain ⟨n, rfl⟩ := Nat.exists_eq_succ_of_ne_zero (Nat.ne_of_gt (Nat.lt_of_lt_of_le
        (Nat.succ_pos _) enough))
      simp only [List.length_cons, Nat.succ_eq_add_one] at enough ih
      unfold vcbprintfAll
      simp only [List.length_cons]
      unfold vcbprintfLoop
      apply bind_congr_of_returns (vcbprintfStep_leaves c format)
      intro rest short
      rw [ih n (by omega) rest (by omega)]
      by_cases more : n = format.length
      · subst more
        exact (ih format.length (by omega) rest short).symm
      · exact (ih format.length (by omega) rest short).symm

/-- The loop takes one item after the other. -/
theorem vcbprintfAll_cons (c : Byte) (format : List Byte) :
    vcbprintfAll callback (c :: format) =
      (vcbprintfStep callback (c :: format) >>= vcbprintfAll callback) := by
  show vcbprintfLoop callback (format.length + 1) (c :: format) = _
  unfold vcbprintfLoop
  apply bind_congr_of_returns (vcbprintfStep_leaves c format)
  intro rest short
  exact vcbprintfLoop_eq _ rest short

end Progress

/-! ## Literal text -/

theorem emit_collect (chars : List Byte) (s : Printf (List Byte)) :
    (emit collect chars).run s = (.ok (), { s with ctx := s.ctx ++ chars }) := by
  unfold emit collect
  rw [run_bind_of_ok (run_get s)]
  dsimp only
  rw [run_bind_of_ok (run_modify _ s), if_neg (fun h => h rfl), run_pure]

/-- One byte is delivered and counted. -/
def putByte (c : Byte) : PrintfM (List Byte) Unit := do
  emit collect [c]
  count 1

theorem putByte_run (c : Byte) (s : Printf (List Byte)) :
    (putByte c).run s =
      (.ok (), { s with ctx := s.ctx ++ [c], written := (s.written + 1) % 2 ^ 64 }) := by
  unfold putByte
  rw [run_bind_of_ok (emit_collect [c] s)]
  rfl

theorem normalPrint_run (c : Byte) (format : List Byte) (s : Printf (List Byte)) :
    (normalPrint collect (c :: format)).run s =
      (.ok (format.dropWhile (· ≠ ascii '%')),
        { s with
          ctx := s.ctx ++ c :: format.takeWhile (· ≠ ascii '%')
          written := (s.written + (1 + (format.takeWhile (· ≠ ascii '%')).length)) % 2 ^ 64 }) := by
  have cut := List.takeWhile_append_dropWhile (p := (· ≠ ascii '%')) (l := format)
  have taken := @List.take_left _ (format.takeWhile (· ≠ ascii '%'))
    (format.dropWhile (· ≠ ascii '%'))
  have dropped := @List.drop_left _ (format.takeWhile (· ≠ ascii '%'))
    (format.dropWhile (· ≠ ascii '%'))
  rw [cut] at taken dropped
  unfold normalPrint
  dsimp only
  rw [List.tail_cons, Nat.add_comm 1, List.take_succ_cons, List.drop_succ_cons, taken, dropped,
    run_bind_of_ok (emit_collect _ s)]
  rfl

/-- Text is delivered byte by byte, however the loop cuts it into chunks. -/
theorem normalPrint_loop (c : Byte) (format : List Byte) :
    (normalPrint collect (c :: format) >>= vcbprintfAll collect) =
      (putByte c >>= fun _ => vcbprintfAll collect format) := by
  apply Prog.ext
  funext s
  rw [run_bind_of_ok (normalPrint_run c format s), run_bind_of_ok (putByte_run c s)]
  cases format with
  | nil => simp
  | cons d format =>
    by_cases percent : d = ascii '%'
    · simp [percent]
    · have text : vcbprintfStep collect (d :: format) = normalPrint collect (d :: format) :=
        if_pos percent
      rw [vcbprintfAll_cons, text, run_bind_of_ok (normalPrint_run d format _)]
      simp only [percent, ne_eq, not_false_eq_true, decide_true, List.takeWhile_cons_of_pos,
        List.dropWhile_cons_of_pos, List.length_cons, List.append_assoc, List.cons_append,
        List.nil_append]
      congr 2
      omega

/-- An escaped byte followed by any text. -/
theorem vcbprintfAll_escape (c : Byte) (format : List Byte) :
    vcbprintfAll collect (escape c ++ format) =
      (putByte c >>= fun _ => vcbprintfAll collect format) := by
  unfold escape
  by_cases percent : c = ascii '%'
  · have text : vcbprintfStep collect (c :: c :: format) = normalPrint collect (c :: format) := by
      unfold vcbprintfStep
      rw [if_neg (fun h => h percent), List.tail_cons,
        if_pos (show peek (c :: format) = ascii '%' from percent)]
    rw [if_pos percent, List.cons_append, vcbprintfAll_cons, List.cons_append, List.nil_append, text]
    exact normalPrint_loop c format
  · have text : vcbprintfStep collect (c :: format) = normalPrint collect (c :: format) :=
      if_pos percent
    rw [if_neg percent, List.cons_append, List.nil_append, vcbprintfAll_cons, text]
    exact normalPrint_loop c format

/-! ## What a program adds to the output -/

/-- The program returns `x`, takes the arguments and delivers the bytes, whatever was delivered
before and whatever arguments follow. -/
def Adds {α : Type} (m : PrintfM (List Byte) α) (args : List VaArg) (out : List Byte)
    (x : α) : Prop :=
  ∀ s : Printf (List Byte), s.badConversion = false → ∀ more, s.args = args ++ more →
    ∃ t, m.run s = (.ok x, t) ∧ t.ctx = s.ctx ++ out ∧ t.args = more ∧ t.badConversion = false

namespace Adds

variable {α β : Type} {m : PrintfM (List Byte) α} {args args' : List VaArg} {out out' : List Byte}
  {x : α} {y : β}

theorem pure (x : α) : Adds (Pure.pure x) [] [] x :=
  fun s good _ rest => ⟨s, rfl, (List.append_nil _).symm, rest, good⟩

theorem bind {f : α → PrintfM (List Byte) β} (first : Adds m args out x)
    (next : Adds (f x) args' out' y) : Adds (m >>= f) (args ++ args') (out ++ out') y := by
  intro s good more given
  obtain ⟨t, run, ctx, left, stillGood⟩ :=
    first s good (args' ++ more) (by rw [given, List.append_assoc])
  obtain ⟨u, run', ctx', left', good'⟩ := next t stillGood more left
  refine ⟨u, ?_, ?_, left', good'⟩
  · rw [run_bind_of_ok run, run']
  · rw [ctx', ctx, List.append_assoc]

theorem emit (chars : List Byte) : Adds (Vineyard.emit collect chars) [] chars () :=
  fun s good _ rest => ⟨_, emit_collect chars s, rfl, rest, good⟩

theorem count (n : ℕ) : Adds (Vineyard.count n) [] [] () :=
  fun _ good _ rest => ⟨_, rfl, (List.append_nil _).symm, rest, good⟩

theorem putByte (c : Byte) : Adds (Vineyard.putByte c) [] [c] () := (emit [c]).bind (count 1)

theorem vaArg (a : VaArg) : Adds Vineyard.vaArg [a] [] a := by
  intro s good more given
  refine ⟨{ s with args := more }, ?_, (List.append_nil _).symm, rfl, good⟩
  unfold Vineyard.vaArg
  rw [run_bind_of_ok (run_get s), given]
  rfl

theorem vaInt (v : BitVec 32) : Adds Vineyard.vaInt [.int v] [] v := (vaArg (.int v)).bind (pure v)

theorem vaLong (v : BitVec 64) : Adds Vineyard.vaLong [.long v] [] v :=
  (vaArg (.long v)).bind (pure v)

theorem vaPointer (v : BitVec 64) : Adds Vineyard.vaPointer [.pointer v] [] v :=
  (vaArg (.pointer v)).bind (pure v)

end Adds

/-! ## The scanner on a conversion -/

def isFlag (c : Byte) : Bool :=
  c = ascii '#' ∨ c = ascii '-' ∨ c = ascii '+' ∨ c = ascii ' ' ∨ c = ascii '0'

theorem readFlags_stop {format : List Byte} (stop : isFlag (peek format) = false)
    (flags : PrintfFlags) : readFlags flags format = (flags, format) := by
  cases format with
  | nil => rfl
  | cons c format =>
    have stop := of_decide_eq_false stop
    simp only [peek, List.headD_cons, not_or] at stop
    unfold readFlags
    rw [if_neg stop.1, if_neg stop.2.1, if_neg stop.2.2.1, if_neg stop.2.2.2.1, if_neg stop.2.2.2.2]

/-- The flags are read up to the first other character. -/
theorem readFlags_append (chars : List FlagChar) {rest : List Byte}
    (stop : isFlag (peek rest) = false) (flags : PrintfFlags) :
    readFlags flags (chars.map FlagChar.char ++ rest) =
      ((readFlags flags (chars.map FlagChar.char)).1, rest) := by
  induction chars generalizing flags with
  | nil => exact readFlags_stop stop flags
  | cons c chars ih => cases c <;> exact ih _

theorem isDigit_digitChar (d : Fin 10) : isDigit (digitChar d) = true := by
  revert d
  decide

theorem readDigits_stop {format : List Byte} (stop : isDigit (peek format) = false) (n : ℕ) :
    readDigits n format = (n, format) := by
  cases format with
  | nil => rfl
  | cons c format =>
    unfold readDigits
    rw [if_neg (by simpa [peek] using stop)]

/-- Digits are read up to the first other character. -/
theorem readDigits_append {chars : List Byte} (digits : ∀ c ∈ chars, isDigit c = true)
    {rest : List Byte} (stop : isDigit (peek rest) = false) (n : ℕ) :
    readDigits n (chars ++ rest) = ((readDigits n chars).1, rest) := by
  induction chars generalizing n with
  | nil => exact readDigits_stop stop n
  | cons c chars ih =>
    have digit := digits c List.mem_cons_self
    rw [List.cons_append]
    unfold readDigits
    rw [if_pos digit, if_pos digit]
    exact ih (fun d mem => digits d (List.mem_cons_of_mem c mem)) _

theorem digits_map (digits : List (Fin 10)) : ∀ c ∈ digits.map digitChar, isDigit c = true := by
  intro c mem
  obtain ⟨d, -, rfl⟩ := List.mem_map.1 mem
  exact isDigit_digitChar d

/-- The length that a modifier names. -/
def Modifier.length : Modifier → PrintfLength
  | .hh => .shortShort
  | .h => .short
  | .none => .default
  | .l => .long
  | .ll => .longLong
  | .j => .intmaxT
  | .z => .sizeT
  | .t => .ptrdiffT

/-- `strncmp` over a whole name finds out whether the text starts with it. -/
theorem strncmp_eq_zero {name : List Byte} (noNul : ∀ c ∈ name, c ≠ 0) (text : List Byte) :
    strncmp text name name.length = 0 ↔ name <+: text := by
  induction name generalizing text with
  | nil => simp [strncmp]
  | cons c name ih =>
    have nonzero := noNul c List.mem_cons_self
    have rest := ih (fun d mem => noNul d (List.mem_cons_of_mem c mem)) text.tail
    rw [List.length_cons]
    unfold strncmp
    rw [List.headD_cons, List.tail_cons]
    dsimp only
    cases text with
    | nil =>
      rw [List.headD_nil, if_pos nonzero.symm]
      have : c.toNat ≠ 0 := fun h => nonzero (UInt8.toNat_inj.1 h)
      simp only [List.prefix_nil, reduceCtorEq, iff_false]
      show ((0 : ℕ) : ℤ) - c.toNat ≠ 0
      omega
    | cons d text =>
      rw [List.headD_cons, List.cons_prefix_cons]
      by_cases same : d = c
      · subst same
        rw [if_neg (fun h => h rfl), if_neg nonzero, rest, List.tail_cons]
        exact ⟨fun h => ⟨rfl, h⟩, fun h => h.2⟩
      · have differ : d.toNat ≠ c.toNat := fun h => same (UInt8.toNat_inj.1 h)
        rw [if_pos same]
        constructor
        · intro zero
          omega
        · rintro ⟨rfl, -⟩
          exact absurd rfl same

theorem matchLength_eq (format : List Byte) (best : PrintfLength × ℕ) {m : List Byte × PrintfLength}
    (noNul : ∀ c ∈ m.1, c ≠ 0) :
    matchLength format best m =
      if best.2 ≤ m.1.length ∧ m.1 <+: format then (m.2, m.1.length) else best := by
  unfold matchLength
  simp only [ne_eq, strncmp_eq_zero noNul]
  by_cases longer : best.2 ≤ m.1.length
  · rw [if_neg (by omega)]
    by_cases fits : m.1 <+: format
    · rw [if_neg (fun h => h fits), if_pos ⟨longer, fits⟩]
    · rw [if_pos fits, if_neg (fun h => fits h.2)]
  · rw [if_pos (by omega), if_neg (fun h => longer h.1)]

theorem Specifier.char_plain (sp : Specifier) :
    ascii 'h' ≠ sp.char ∧ ascii 'l' ≠ sp.char ∧ ascii 'L' ≠ sp.char ∧ ascii 'j' ≠ sp.char ∧
      ascii 'z' ≠ sp.char ∧ ascii 't' ≠ sp.char := by
  cases sp <;> decide

/-- The longest modifier that fits is found. -/
theorem readLength_append (m : Modifier) (sp : Specifier) (format : List Byte) :
    readLength (m.text ++ sp.char :: format) = (m.length, sp.char :: format) := by
  have plain := sp.char_plain
  have noNul : ∀ entry ∈ lengthModifiers, ∀ c ∈ entry.1, c ≠ 0 := by decide +kernel
  have steps : ∀ entries ⊆ lengthModifiers, ∀ best,
      entries.foldl (matchLength (m.text ++ sp.char :: format)) best =
        entries.foldl (fun best entry =>
          if best.2 ≤ entry.1.length ∧ entry.1 <+: m.text ++ sp.char :: format
          then (entry.2, entry.1.length) else best) best := by
    intro entries
    induction entries with
    | nil => exact fun _ _ => rfl
    | cons entry entries ih =>
      intro inside best
      rw [List.foldl_cons, List.foldl_cons,
        matchLength_eq _ _ (noNul entry (inside List.mem_cons_self)),
        ih (List.subset_of_cons_subset inside)]
  unfold readLength
  dsimp only
  rw [steps _ (List.Subset.refl _)]
  unfold lengthModifiers
  cases m <;> simp +decide [Modifier.text, Modifier.length, plain]

theorem Modifier.peek_plain (m : Modifier) (sp : Specifier) (format : List Byte) :
    isFlag (peek (m.text ++ sp.char :: format)) = false ∧
      isDigit (peek (m.text ++ sp.char :: format)) = false ∧
      peek (m.text ++ sp.char :: format) ≠ ascii '*' ∧
      peek (m.text ++ sp.char :: format) ≠ ascii '.' ∧
      peek (m.text ++ sp.char :: format) ≠ ascii '%' := by
  have same : peek (m.text ++ sp.char :: format) = peek (m.text ++ [sp.char]) := by
    cases m <;> rfl
  rw [same]
  cases m <;> cases sp <;> decide

/-- The precision, if it is written. -/
def precisionOf (precision : Option (List (Fin 10))) : ℕ :=
  (readPrecision (precisionText precision)).1

theorem readPrecision_append (precision : Option (List (Fin 10))) (m : Modifier) (sp : Specifier)
    (format : List Byte) :
    readPrecision (precisionText precision ++ (m.text ++ sp.char :: format)) =
      (precisionOf precision, m.text ++ sp.char :: format) := by
  have plain := m.peek_plain sp format
  have point (rest : List Byte) : peek (ascii '.' :: rest) = ascii '.' := rfl
  unfold precisionOf readPrecision
  cases precision with
  | none =>
    rw [precisionText, List.nil_append, if_neg plain.2.2.2.1, if_neg (by decide)]
  | some digits =>
    rw [precisionText, List.cons_append, if_pos (point _), if_pos (point _)]
    exact readDigits_append (digits_map digits) plain.2.1 0

theorem precision_peek (precision : Option (List (Fin 10))) (m : Modifier) (sp : Specifier)
    (format : List Byte) :
    isFlag (peek (precisionText precision ++ (m.text ++ sp.char :: format))) = false ∧
      isDigit (peek (precisionText precision ++ (m.text ++ sp.char :: format))) = false ∧
      peek (precisionText precision ++ (m.text ++ sp.char :: format)) ≠ ascii '*' ∧
      peek (precisionText precision ++ (m.text ++ sp.char :: format)) ≠ ascii '%' := by
  cases precision with
  | none =>
    have plain := m.peek_plain sp format
    exact ⟨plain.1, plain.2.1, plain.2.2.1, plain.2.2.2.2⟩
  | some digits =>
    have point : isFlag (ascii '.') = false ∧ isDigit (ascii '.') = false ∧
        ascii '.' ≠ ascii '*' ∧ ascii '.' ≠ ascii '%' := by
      decide
    exact point

/-- The width, if it is written; a `*` takes it from the arguments. -/
def WidthItem.read : WidthItem → PrintfM (List Byte) ℕ
  | .star => do
    let w ← vaInt
    return (w.signExtend 64).toNat
  | w => return (readDigits 0 w.text).1

theorem isDigit_first (first : Fin 9) :
    isDigit (UInt8.ofNat (49 + first)) = true ∧ isFlag (UInt8.ofNat (49 + first)) = false ∧
      UInt8.ofNat (49 + first) ≠ ascii '%' := by
  revert first
  decide

theorem readWidth_append (w : WidthItem) (precision : Option (List (Fin 10))) (m : Modifier)
    (sp : Specifier) (format : List Byte) :
    (readWidth (w.text ++ (precisionText precision ++ (m.text ++ sp.char :: format))) :
        PrintfM (List Byte) (ℕ × List Byte)) =
      (w.read >>= fun width =>
        pure (width, precisionText precision ++ (m.text ++ sp.char :: format))) := by
  have plain := precision_peek precision m sp format
  unfold readWidth
  cases w with
  | none =>
    rw [show WidthItem.none.text = [] from rfl, List.nil_append, readDigits_stop plain.2.1]
    dsimp only
    rw [if_neg plain.2.2.1]
    rfl
  | digits first rest =>
    have digits : ∀ c ∈ (WidthItem.digits first rest).text, isDigit c = true := by
      intro c mem
      rcases List.mem_cons.1 mem with rfl | later
      · exact (isDigit_first first).1
      · exact digits_map rest c later
    rw [readDigits_append digits plain.2.1]
    dsimp only
    rw [if_neg plain.2.2.1]
    rfl
  | star =>
    have star (rest : List Byte) : isDigit (peek (ascii '*' :: rest)) = false :=
      show isDigit (ascii '*') = false by decide
    rw [show WidthItem.star.text = [ascii '*'] from rfl, List.cons_append, List.nil_append,
      readDigits_stop (star _)]
    dsimp only
    rw [if_pos (show peek (ascii '*' :: _) = ascii '*' from rfl)]
    unfold WidthItem.read
    rw [bind_assoc]
    rfl

theorem width_peek (w : WidthItem) (precision : Option (List (Fin 10))) (m : Modifier)
    (sp : Specifier) (format : List Byte) :
    isFlag (peek (w.text ++ (precisionText precision ++ (m.text ++ sp.char :: format)))) = false ∧
      peek (w.text ++ (precisionText precision ++ (m.text ++ sp.char :: format))) ≠ ascii '%' := by
  cases w with
  | none =>
    have plain := precision_peek precision m sp format
    exact ⟨plain.1, plain.2.2.2⟩
  | digits first rest => exact (isDigit_first first).2
  | star =>
    have star : isFlag (ascii '*') = false ∧ ascii '*' ≠ ascii '%' := by decide
    exact star

/-- What a conversion does once it is recognised. -/
def Conversion.act (c : Conversion) : PrintfM (List Byte) Unit := do
  let width ← c.width.read
  (convert collect ⟨(readFlags {} (c.flags.map FlagChar.char)).1, width, precisionOf c.precision,
    c.modifier.length⟩ c.specifier.char).getD (pure ())

theorem convert_isSome (d : Directive) (m : Modifier) (sp : Specifier)
    (known : d.length = m.length) : ∃ conversion, convert collect d sp.char = some conversion := by
  have signed : ∃ arg, (signedArg d.length : Option (PrintfM (List Byte) _)) = some arg := by
    rw [known]
    cases m <;> exact ⟨_, rfl⟩
  have unsigned : ∃ arg, (unsignedArg d.length : Option (PrintfM (List Byte) _)) = some arg := by
    rw [known]
    cases m <;> exact ⟨_, rfl⟩
  obtain ⟨s, signed⟩ := signed
  obtain ⟨u, unsigned⟩ := unsigned
  unfold convert
  rw [signed, unsigned]
  cases sp <;> simp +decide [Specifier.char]

theorem vcbprintfConversion_eq (format : List Byte) :
    vcbprintfConversion collect format =
      (readWidth (readFlags {} format.tail).2 >>= fun width =>
        finishConversion collect format (readLength (readPrecision width.2).2).2
          (convert collect ⟨(readFlags {} format.tail).1, width.1, (readPrecision width.2).1,
            (readLength (readPrecision width.2).2).1⟩
            (peek (readLength (readPrecision width.2).2).2))) := rfl

/-- The scanner recognises a conversion, whatever follows it. -/
theorem vcbprintfConversion_append (c : Conversion) (format : List Byte) :
    vcbprintfConversion collect (c.text ++ format) = (c.act >>= fun _ => pure format) := by
  have text : (c.text ++ format).tail = c.flags.map FlagChar.char ++ (c.width.text ++
      (precisionText c.precision ++ (c.modifier.text ++ c.specifier.char :: format))) := by
    simp [Conversion.text]
  have flags := readFlags_append c.flags
    (width_peek c.width c.precision c.modifier c.specifier format).1 {}
  rw [← text] at flags
  rw [vcbprintfConversion_eq, flags, readWidth_append]
  unfold Conversion.act
  rw [bind_assoc, bind_assoc]
  refine congrArg (fun next => c.width.read >>= next) (funext fun width => ?_)
  obtain ⟨conversion, known⟩ := convert_isSome
    ⟨(readFlags {} (c.flags.map FlagChar.char)).1, width, precisionOf c.precision, c.modifier.length⟩
    c.modifier c.specifier rfl
  rw [pure_bind, readPrecision_append, readLength_append, peek, List.headD_cons, known]
  rfl

theorem Conversion.peek_text (c : Conversion) (format : List Byte) :
    peek (c.text ++ format).tail ≠ ascii '%' := by
  obtain ⟨flags, width, precision, m, sp⟩ := c
  cases flags with
  | cons f flags =>
    show f.char ≠ ascii '%'
    cases f <;> decide
  | nil =>
    have rest := (width_peek width precision m sp format).2
    simpa [Conversion.text] using rest

/-! ## Items in front of other text -/

/-- The item delivers `out` for its arguments, whatever text and arguments follow. -/
def FormatItem.Renders (i : FormatItem) (args : List VaArg) (out : List Byte) : Prop :=
  ∀ format args' out', Adds (vcbprintfAll collect format) args' out' () →
    Adds (vcbprintfAll collect (i.text ++ format)) (args ++ args') (out ++ out') ()

/-- The loop on the text of a conversion does what the conversion asks for and goes on behind it. -/
theorem Conversion.loop_run (c : Conversion) (format : List Byte) {s : Printf (List Byte)}
    (good : s.badConversion = false) :
    (vcbprintfAll collect (c.text ++ format)).run s =
      (c.act >>= fun _ => vcbprintfAll collect format).run s := by
  have step : (vcbprintfStep collect (c.text ++ format)).run s =
      (c.act >>= fun _ => pure format).run s := by
    unfold vcbprintfStep
    rw [if_neg (fun h => h rfl), if_neg (c.peek_text format), run_bind_of_ok (run_get s), good,
      if_neg Bool.false_ne_true, vcbprintfConversion_append]
  have loop : vcbprintfAll collect (c.text ++ format) =
      (vcbprintfStep collect (c.text ++ format) >>= vcbprintfAll collect) :=
    vcbprintfAll_cons (ascii '%') (c.text ++ format).tail
  rw [loop, run_bind, step, ← run_bind, bind_assoc]
  rfl

/-- What an item asks for. -/
def FormatItem.act : FormatItem → PrintfM (List Byte) Unit
  | .literal l => forEach l.chars putByte
  | .conversion c => c.act

/-- **The loop recognises an item, whatever text follows it.** -/
theorem FormatItem.loop_run (i : FormatItem) (format : List Byte) {s : Printf (List Byte)}
    (good : s.badConversion = false) :
    (vcbprintfAll collect (i.text ++ format)).run s =
      (i.act >>= fun _ => vcbprintfAll collect format).run s := by
  cases i with
  | conversion c => exact c.loop_run format good
  | literal l =>
    have text : vcbprintfAll collect (l.chars.flatMap escape ++ format) =
        (forEach l.chars putByte >>= fun _ => vcbprintfAll collect format) := by
      induction l.chars with
      | nil => rfl
      | cons c chars ih =>
        rw [List.flatMap_cons, List.append_assoc, vcbprintfAll_escape, ih, forEach_cons, bind_assoc]
    exact congrArg (fun m => m.run s) text

theorem FormatItem.renders {i : FormatItem} {args : List VaArg} {out : List Byte}
    (act : Adds i.act args out ()) : i.Renders args out := by
  intro format args' out' rest
  have whole : Adds (i.act >>= fun _ => vcbprintfAll collect format) (args ++ args')
    (out ++ out') () :=
    act.bind rest
  intro s good more given
  obtain ⟨t, run, facts⟩ := whole s good more given
  exact ⟨t, (i.loop_run format good).trans run, facts⟩

theorem Conversion.renders {c : Conversion} {args : List VaArg} {out : List Byte}
    (act : Adds c.act args out ()) : (FormatItem.conversion c).Renders args out :=
  FormatItem.renders act

theorem Literal.adds (l : Literal) : Adds (FormatItem.literal l).act [] l.chars () := by
  show Adds (forEach l.chars putByte) [] l.chars ()
  induction l.chars with
  | nil => exact Adds.pure ()
  | cons c chars ih => exact (Adds.putByte c).bind ih

/-! ## The language is compositional -/

/-- What is delivered for a format alone. -/
def delivered (format : List Byte) (args : List VaArg) : List Byte :=
  match delivers format args with
  | .ok result => result.1
  | .error _ => []

theorem delivered_eq {format : List Byte} {args more : List VaArg} {out : List Byte}
    (returns : delivers format args = .ok (out, more)) : delivered format args = out := by
  rw [delivered, returns]

theorem Adds.delivers {format : List Byte} {args : List VaArg} {out : List Byte}
    (adds : Adds (vcbprintfAll collect format) args out ()) (more : List VaArg) :
    Vineyard.delivers format (args ++ more) = .ok (out, more) := by
  obtain ⟨t, run, ctx, left, -⟩ := adds (.start [] (args ++ more)) rfl more rfl
  unfold Vineyard.delivers
  rw [run]
  dsimp only
  rw [ctx, left]
  rfl

theorem FormatItem.Renders.alone {i : FormatItem} {args : List VaArg} {out : List Byte}
    (renders : i.Renders args out) : delivers i.text args = .ok (out, []) := by
  have alone := (renders [] [] [] (Adds.pure ())).delivers []
  simpa using alone

/-- The number of arguments that an item takes. -/
def FormatItem.argCount : FormatItem → ℕ
  | .literal _ => 0
  | .conversion c => 1 + if c.width = .star then 1 else 0

theorem FormatItem.Matches.length {i : FormatItem} {args : List VaArg} (matching : i.Matches args) :
    args.length = i.argCount := by
  cases i with
  | literal l => simpa [FormatItem.Matches, FormatItem.argCount] using matching
  | conversion c =>
    have count := congrArg List.length (show args.map VaArg.type = c.argTypes from matching)
    rw [List.length_map] at count
    rw [count]
    obtain ⟨flags, width, precision, m, sp⟩ := c
    cases width <;> rfl

theorem vcbprintf_of_delivers {format : List Byte} {args left : List VaArg} {out : List Byte}
    (delivered : delivers format args = .ok (out, left)) :
    ∃ n, vcbprintf [] (some collect) (some format) args = .ok (n, out) := by
  unfold delivers at delivered
  unfold vcbprintf
  dsimp only [Option.getD_some]
  cases outcome : (vcbprintfAll collect format).run (.start [] args) with
  | mk result s =>
    rw [outcome] at delivered
    cases result with
    | ok _ =>
      cases delivered
      exact ⟨_, rfl⟩
    | error stop => cases delivered

end Vineyard
