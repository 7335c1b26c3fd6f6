import Mathlib.Data.Nat.Digits.Defs
import Vineyard.Stdio.Integers

/-!
# The field of an integer

What a conversion of an integer should print, from what is written in the format and the argument: the
digits of the value in its base, a precision of zeros in front of them, a prefix, and padding up to
the width.  The formatter prints this exactly when the local arrays have room for it, the width is not
negative and a left-aligned field without `0` needs no padding.
-/

namespace Vineyard

open Programs Programs.Prog

/-! ## Numerals -/

/-- The digits of a value, at least one. -/
def numeral (base value : ℕ) : List ℕ := if value = 0 then [0] else (Nat.digits base value).reverse

theorem bufDigits_eq (specifier : Byte) {base : ℕ} (radix : 2 ≤ base) (steps : ℕ) :
    ∀ value, value < base ^ steps →
      bufDigits specifier base (bufLength base steps value) value =
        (numeral base value).map (convDigit specifier) := by
  have one : ∀ value, value < base →
      bufDigits specifier base 1 value = (numeral base value).map (convDigit specifier) := by
    intro value small
    rw [bufDigits, bufDigits, Nat.mod_eq_of_lt small, numeral]
    split_ifs with zero
    · rw [zero]
      rfl
    · rw [Nat.digits_of_lt base value zero small]
      rfl
  induction steps with
  | zero =>
    intro value small
    rw [Nat.pow_zero] at small
    rw [bufLength]
    exact one value (by omega)
  | succ steps ih =>
    intro value small
    rw [bufLength]
    split_ifs with more
    · have quotient : value / base ≠ 0 := (Nat.div_pos more (by omega)).ne'
      have rest := ih (value / base) (Nat.div_lt_of_lt_mul (by rwa [Nat.pow_succ'] at small))
      have digits : base.digits value = value % base :: base.digits (value / base) :=
        Nat.digits_def' (by omega) (by omega)
      rw [bufDigits, rest, numeral, numeral, if_neg quotient, if_neg (by omega), digits,
        List.reverse_cons, List.map_append]
      rfl
    · exact one value (by omega)

/-- The digits in `buf` are those of the value in its base. -/
theorem integerDigits_eq (specifier : Byte) {value : ℕ} (word : value < 2 ^ 64) :
    integerDigits specifier value =
      (numeral (conversionBase specifier) value).map (convDigit specifier) := by
  have radix := two_le_conversionBase specifier
  exact bufDigits_eq specifier radix 64 value (Nat.lt_of_lt_of_le word (Nat.pow_le_pow_left radix 64))

/-- The value of decimal digits behind a number. -/
def decimalFrom (n : ℕ) (digits : List (Fin 10)) : ℕ := digits.foldl (fun n d => n * 10 + d) n

theorem le_decimalFrom (digits : List (Fin 10)) : ∀ n, n ≤ decimalFrom n digits := by
  induction digits with
  | nil => exact fun n => Nat.le_refl n
  | cons d digits ih =>
    intro n
    have step := ih (n * 10 + d)
    exact Nat.le_trans (by omega) step

theorem digitChar_toNat (d : Fin 10) : (digitChar d).toNat - (ascii '0').toNat = d := by
  revert d
  decide

/-- A decimal that fits into a word is read as it is written. -/
theorem readDigits_decimal (digits : List (Fin 10)) :
    ∀ n, decimalFrom n digits < 2 ^ 64 → (readDigits n (digits.map digitChar)).1 =
      decimalFrom n digits := by
  induction digits with
  | nil => exact fun _ _ => rfl
  | cons d digits ih =>
    intro n fits
    have step : decimalFrom n (d :: digits) = decimalFrom (n * 10 + d) digits := rfl
    have small : n * 10 + d < 2 ^ 64 := by
      have := le_decimalFrom digits (n * 10 + d)
      omega
    rw [List.map_cons, readDigits, if_pos (isDigit_digitChar d), digitChar_toNat,
      Nat.mod_eq_of_lt small, step]
    exact ih _ (step ▸ fits)

/-! ## What is asked for -/

/-- The conversions of integers. -/
def Specifier.IsInteger : Specifier → Prop
  | .c | .s => False
  | _ => True

instance (sp : Specifier) : Decidable sp.IsInteger := by
  cases sp <;> unfold Specifier.IsInteger <;> infer_instance

/-- The number in an argument of a signed type. -/
def VaArg.signedValue : VaArg → ℤ
  | .int v => v.toInt
  | .long v => v.toInt
  | .pointer v => v.toInt
  | .string _ => 0

/-- The number in an argument of an unsigned type. -/
def VaArg.unsignedValue : VaArg → ℕ
  | .int v => v.toNat
  | .long v => v.toNat
  | .pointer v => v.toNat
  | .string _ => 0

namespace Conversion

/-- The flags that are written. -/
def flagsRead (c : Conversion) : PrintfFlags where
  hash := .hash ∈ c.flags
  minus := .minus ∈ c.flags
  plus := .plus ∈ c.flags
  space := .space ∈ c.flags
  zero := .zero ∈ c.flags

/-- The width that is written or given. -/
def fieldWidth (c : Conversion) (args : List VaArg) : ℤ :=
  match c.width, args with
  | .none, _ => 0
  | .digits first rest, _ => decimalFrom (first + 1) rest
  | .star, .int w :: _ => w.toInt
  | .star, _ => 0

/-- The precision that is written. -/
def precisionValue (c : Conversion) : ℕ := (c.precision.map (decimalFrom 0)).getD 0

/-- A pointer is printed as with `x`. -/
def printedAs (c : Conversion) : Byte := if c.specifier = .p then ascii 'x' else c.specifier.char

def Signed (c : Conversion) : Prop := c.specifier = .d ∨ c.specifier = .i

instance (c : Conversion) : Decidable c.Signed := inferInstanceAs (Decidable (_ ∨ _))

/-- The number that the last argument stands for. -/
def number (c : Conversion) (args : List VaArg) : ℤ :=
  match args.getLast? with
  | some a => if c.Signed then a.signedValue else a.unsignedValue
  | none => 0

def prefixOf (c : Conversion) (args : List VaArg) : List Byte :=
  prefixChars c.flagsRead c.printedAs (decide (c.number args < 0))

def digitsOf (c : Conversion) (args : List VaArg) : List Byte :=
  (numeral (conversionBase c.printedAs) (c.number args).natAbs).map (convDigit c.printedAs)

/-- The prefix, the zeros of the precision and the digits. -/
def body (c : Conversion) (args : List VaArg) : List Byte :=
  c.prefixOf args ++ (List.replicate (c.precisionValue - (c.digitsOf args).length) (ascii '0') ++
    c.digitsOf args)

/-- There is room in `prefix` and `buf`: no sign and `0x` together, and no octal number of 2 ^ 60 or
more. -/
def HasRoom (c : Conversion) (args : List VaArg) : Prop :=
  ¬ ((.plus ∈ c.flags ∨ .space ∈ c.flags) ∧ .hash ∈ c.flags ∧
      (c.specifier = .x ∨ c.specifier = .X ∨ c.specifier = .p)) ∧
    ¬ (c.specifier = .o ∧ 2 ^ 60 ≤ c.number args)

/-- The width that the conversion takes without padding. -/
def room (c : Conversion) (args : List VaArg) : ℕ :=
  (c.prefixOf args).length + max c.precisionValue (c.digitsOf args).length

end Conversion

/-- The output fills the field, and on the left side if that is asked for. -/
structure FieldOk (c : Conversion) (args : List VaArg) (out : List Byte) : Prop where
  length_eq : out.length = max (c.fieldWidth args).natAbs (c.room args)
  pads_last : .minus ∈ c.flags ∨ c.fieldWidth args < 0 →
    ∃ n, out = c.body args ++ List.replicate n (ascii ' ')

/-! ## What is printed -/

theorem readFlags_map (chars : List FlagChar) : ∀ flags : PrintfFlags,
    (readFlags flags (chars.map FlagChar.char)).1 =
      { hash := flags.hash || decide (FlagChar.hash ∈ chars)
        minus := flags.minus || decide (FlagChar.minus ∈ chars)
        plus := flags.plus || decide (FlagChar.plus ∈ chars)
        space := flags.space || decide (FlagChar.space ∈ chars)
        zero := flags.zero || decide (FlagChar.zero ∈ chars) } := by
  induction chars with
  | nil =>
    intro flags
    simp [readFlags]
  | cons c chars ih =>
    intro flags
    cases c <;> exact (ih _).trans (by simp)

theorem Conversion.readFlags_eq (c : Conversion) :
    (readFlags {} (c.flags.map FlagChar.char)).1 = c.flagsRead := by
  rw [readFlags_map]
  simp [Conversion.flagsRead]

/-- A width as a number of the type `size_t`. -/
def sizeWord (w : ℤ) : ℕ := (BitVec.ofInt 64 w).toNat

theorem signExtend_eq (w : BitVec 32) : (w.signExtend 64).toNat = sizeWord w.toInt := by
  unfold sizeWord
  rw [BitVec.signExtend]

theorem sizeWord_natCast {n : ℕ} (small : n < 2 ^ 64) : sizeWord n = n := by
  unfold sizeWord
  rw [BitVec.ofInt_natCast, BitVec.toNat_ofNat, Nat.mod_eq_of_lt small]

theorem firstDigit_toNat (first : Fin 9) :
    (0 * 10 + ((UInt8.ofNat (49 + first)).toNat - (ascii '0').toNat)) % 2 ^ 64 = first + 1 := by
  revert first
  decide

theorem readDigits_first (first : Fin 9) (rest : List (Fin 10))
    (fits : decimalFrom (first + 1) rest < 2 ^ 64) :
    (readDigits 0 (WidthItem.digits first rest).text).1 = decimalFrom (first + 1) rest := by
  rw [WidthItem.text, readDigits, if_pos (isDigit_first first).1, firstDigit_toNat]
  exact readDigits_decimal rest _ fits

/-- The width that is read, as a number of the type `size_t`. -/
def Conversion.widthRead (c : Conversion) (args : List VaArg) : ℕ :=
  match c.width with
  | .star => sizeWord (c.fieldWidth args)
  | w => (readDigits 0 w.text).1

theorem Conversion.width_adds {c : Conversion} {args : List VaArg}
    (typed : args.map VaArg.type = c.argTypes) :
    ∃ first a, args = first ++ [a] ∧ a.type = c.argType ∧
      Adds c.width.read first [] (c.widthRead args) := by
  unfold Conversion.argTypes at typed
  unfold Conversion.widthRead Conversion.fieldWidth
  cases written : c.width with
  | star =>
    rw [written] at typed
    obtain ⟨w, a, rfl⟩ := List.length_eq_two.1 (by simpa using congrArg List.length typed)
    simp only [List.map_cons, List.map_nil, List.cons.injEq, and_true] at typed
    cases w with
    | int v =>
      refine ⟨[.int v], a, rfl, typed.2, ?_⟩
      show Adds _ [.int v] [] (sizeWord v.toInt)
      rw [← signExtend_eq]
      exact (Adds.vaInt v).bind (Adds.pure _)
    | long | pointer | string => cases typed.1
  | none | digits =>
    rw [written] at typed
    obtain ⟨a, rfl⟩ := List.length_eq_one_iff.1 (by simpa using congrArg List.length typed)
    simp only [List.map_cons, List.map_nil, List.cons.injEq, and_true] at typed
    exact ⟨[], a, rfl, typed, Adds.pure _⟩

/-- A width that fits is read as it is written. -/
theorem Conversion.widthRead_eq (c : Conversion) {args : List VaArg}
    (fits : c.fieldWidth args < 2 ^ 31) :
    c.widthRead args = sizeWord (c.fieldWidth args) := by
  unfold Conversion.widthRead
  cases written : c.width with
  | star => rfl
  | none =>
    unfold Conversion.fieldWidth
    rw [written]
    rfl
  | digits first rest =>
    unfold Conversion.fieldWidth at fits ⊢
    rw [written] at fits ⊢
    dsimp only at fits ⊢
    have small : decimalFrom (first + 1) rest < 2 ^ 64 := by omega
    rw [sizeWord_natCast small, readDigits_first first rest small]

theorem signedArg_value {m : Modifier} {a : VaArg} (typed : a.type = m.argType) :
    ∃ v arg, signedArg m.length = some arg ∧ Adds arg [a] [] v ∧ v.toInt = a.signedValue := by
  cases m <;> cases a <;> first
    | exact ⟨_, _, rfl, (Adds.vaInt _).bind (Adds.pure _), BitVec.toInt_signExtend_of_le (by omega)⟩
    | exact ⟨_, _, rfl, Adds.vaLong _, rfl⟩
    | cases typed

theorem unsignedArg_value {m : Modifier} {a : VaArg} (typed : a.type = m.argType) :
    ∃ v arg, unsignedArg m.length = some arg ∧ Adds arg [a] [] v ∧ v.toNat = a.unsignedValue := by
  cases m <;> cases a <;> first
    | exact ⟨_, _, rfl, (Adds.vaInt _).bind (Adds.pure _),
        BitVec.toNat_setWidth_of_le (by omega)⟩
    | exact ⟨_, _, rfl, Adds.vaLong _, rfl⟩
    | cases typed

/-- The magnitude of a number in two's complement. -/
theorem magnitude_eq (v : BitVec 64) : (if v.msb then (-v).toNat else v.toNat) = v.toInt.natAbs := by
  rw [BitVec.toInt_eq_msb_cond, BitVec.toNat_neg]
  have := v.isLt
  cases negative : v.msb with
  | true =>
    have := BitVec.msb_eq_true_iff_two_mul_ge.mp negative
    simp only [if_true]
    omega
  | false =>
    simp only [Bool.false_eq_true, if_false]
    omega

/-- The program takes the arguments and then prints the part, whatever was delivered before and
whatever arguments follow. -/
def Prints (m : PrintfM (List Byte) Unit) (args : List VaArg) (part : Part) : Prop :=
  ∀ s : Printf (List Byte), s.badConversion = false → ∀ more, s.args = args ++ more →
    ∃ t, m.run s = (part.print collect).run t ∧ t.ctx = s.ctx ∧ t.args = more ∧
      t.badConversion = false

/-- The program stops at a store outside a local array. -/
def Overflows (m : PrintfM (List Byte) Unit) (args : List VaArg) : Prop :=
  ∀ s : Printf (List Byte), s.badConversion = false → ∀ more, s.args = args ++ more →
    ∃ t, m.run s = (.error .outOfBounds, t)

namespace Prints

variable {m : PrintfM (List Byte) Unit} {args args' : List VaArg} {part : Part}

theorem print (part : Part) : Prints (part.print collect) [] part :=
  fun s good _ left => ⟨s, rfl, rfl, left, good⟩

theorem integer (d : Directive) (specifier : Byte) (value : ℕ) (negative : Bool) :
    Prints (printInteger collect d specifier value negative) []
      (.integer d specifier value negative) :=
  print (.integer d specifier value negative)

/-- A program that only takes arguments may come first. -/
theorem bind {α : Type} {n : PrintfM (List Byte) α} {f : α → PrintfM (List Byte) Unit} {x : α}
    (first : Adds n args [] x) (next : Prints (f x) args' part) :
    Prints (n >>= f) (args ++ args') part := by
  intro s good more given
  obtain ⟨t, run, ctx, left, stillGood⟩ :=
    first s good (args' ++ more) (by rw [given, List.append_assoc])
  obtain ⟨u, run', ctx', left', good'⟩ := next t stillGood more left
  refine ⟨u, ?_, ?_, left', good'⟩
  · rw [run_bind_of_ok run, run']
  · rw [ctx', ctx, List.append_nil]

/-- A part that fits is delivered. -/
theorem adds (prints : Prints m args part) (fits : part.Fits) :
    Adds m args part.chunks.flatten () := by
  intro s good more given
  obtain ⟨t, run, ctx, left, stillGood⟩ := prints s good more given
  have printed := part.print_run collect t
  rw [if_pos fits, accepts_collect.feed, foldl_collect, ctx] at printed
  exact ⟨_, run.trans printed, rfl, left, stillGood⟩

theorem overflows (prints : Prints m args part) (outside : ¬ part.Fits) : Overflows m args := by
  intro s good more given
  obtain ⟨t, run, -⟩ := prints s good more given
  exact ⟨_, run.trans (part.print_outOfBounds collect t outside)⟩

end Prints

theorem Conversion.number_append (c : Conversion) (first : List VaArg) (a : VaArg) :
    c.number (first ++ [a]) = if c.Signed then a.signedValue else a.unsignedValue := by
  unfold Conversion.number
  rw [List.getLast?_concat]

/-- Each conversion of an integer prints the number in its argument. -/
theorem Prints.number (d : Directive) (c : Conversion) (integer : c.specifier.IsInteger)
    (known : d.length = c.modifier.length) {first : List VaArg} {a : VaArg}
    (typed : a.type = c.argType) :
    Prints ((convert collect d c.specifier.char).getD (pure ())) [a]
      (.integer d c.printedAs (c.number (first ++ [a])).natAbs
        (decide (c.number (first ++ [a]) < 0))) := by
  have unsigned (n : ℕ) : decide ((n : ℤ) < 0) = false := by simp
  obtain ⟨flags, width, precision, m, sp⟩ := c
  dsimp only at known integer
  rw [Conversion.number_append]
  unfold convert Conversion.printedAs Conversion.Signed
  rw [known]
  cases sp
  case d | i =>
    obtain ⟨v, arg, found, adds, value⟩ := signedArg_value typed
    simp +decide only [Specifier.char, if_true, if_false, ← value, ← BitVec.msb_eq_toInt, found]
    rw [← magnitude_eq]
    exact Prints.bind adds (Prints.integer d _ _ _)
  case o | u | x | X =>
    obtain ⟨v, arg, found, adds, value⟩ := unsignedArg_value typed
    simp +decide only [Specifier.char, if_true, if_false, ← value, unsigned,
      Int.natAbs_natCast, found]
    exact Prints.bind adds (Prints.integer d _ _ _)
  case p =>
    cases a with
    | pointer v =>
      simp +decide only [Specifier.char, if_true, if_false, unsigned, Int.natAbs_natCast]
      exact Prints.bind (Adds.vaPointer v) (Prints.integer d _ _ _)
    | int | long | string => cases typed
  case c | s => exact integer.elim

/-- The part that a conversion of an integer is printed as. -/
def Conversion.partAt (c : Conversion) (args : List VaArg) (width : ℕ) : Part :=
  .integer ⟨c.flagsRead, width, precisionOf c.precision, c.modifier.length⟩ c.printedAs
    (c.number args).natAbs (decide (c.number args < 0))

def Conversion.part (c : Conversion) (args : List VaArg) : Part :=
  c.partAt args (sizeWord (c.fieldWidth args))

theorem Conversion.act_prints {c : Conversion} (integer : c.specifier.IsInteger)
    {args : List VaArg} (typed : args.map VaArg.type = c.argTypes) :
    Prints c.act args (c.partAt args (c.widthRead args)) := by
  obtain ⟨first, a, split, argTyped, read⟩ := c.width_adds typed
  unfold Conversion.act
  rw [c.readFlags_eq]
  unfold Conversion.partAt
  rw [split] at read ⊢
  exact Prints.bind read (Prints.number _ c integer rfl argTyped)

theorem Conversion.delivered_eq {c : Conversion} (integer : c.specifier.IsInteger)
    {args : List VaArg} (typed : args.map VaArg.type = c.argTypes)
    (width : c.fieldWidth args < 2 ^ 31) (fits : (c.part args).Fits) :
    delivered c.text args = (c.part args).chunks.flatten := by
  have prints := Conversion.act_prints integer typed
  rw [c.widthRead_eq width] at prints
  exact Vineyard.delivered_eq (Conversion.renders (prints.adds fits)).alone

/-- A conversion on which the formatter stops delivers nothing. -/
theorem Conversion.delivered_overflow {c : Conversion} {args : List VaArg}
    (overflows : Overflows c.act args) :
    delivered c.text args = [] := by
  obtain ⟨t, run⟩ := overflows (.start [] args) rfl [] (List.append_nil args).symm
  have whole := c.loop_run [] (s := .start [] args) rfl
  rw [List.append_nil, run_bind_of_error run] at whole
  unfold delivered delivers
  rw [whole]

/-! ## The field -/

section Field

variable {c : Conversion} {args : List VaArg}

theorem Conversion.number_natAbs_lt (c : Conversion) (args : List VaArg) :
    (c.number args).natAbs < 2 ^ 64 := by
  have signed (a : VaArg) : a.signedValue.natAbs < 2 ^ 64 := by
    cases a with
    | int v =>
      have := v.toInt_lt
      have := v.le_toInt
      simp only [VaArg.signedValue]
      omega
    | long v | pointer v =>
      have := v.toInt_lt
      have := v.le_toInt
      simp only [VaArg.signedValue]
      omega
    | string chars => exact Nat.two_pow_pos 64
  have unsigned (a : VaArg) : a.unsignedValue < 2 ^ 64 := by
    cases a with
    | int v => exact Nat.lt_trans v.isLt (by decide)
    | long v | pointer v => exact v.isLt
    | string chars => exact Nat.two_pow_pos 64
  unfold Conversion.number
  split
  · rename_i a _
    split_ifs
    · exact signed a
    · exact unsigned a
  · decide

theorem Conversion.part_fromArgument (c : Conversion) (args : List VaArg) (width : ℕ) :
    (c.partAt args width).FromArgument := by
  refine ⟨c.number_natAbs_lt args, fun negative => ?_⟩
  have below : c.number args < 0 := of_decide_eq_true negative
  have signed : c.Signed := by
    by_contra unsigned
    unfold Conversion.number at below
    split at below
    · rw [if_neg unsigned] at below
      omega
    · omega
  unfold Conversion.printedAs
  rcases signed with d | i
  · rw [d]
    exact .inl rfl
  · rw [i]
    exact .inr rfl

/-- The part of a conversion fits exactly when the conversion has room. -/
theorem Conversion.part_fits_iff (c : Conversion) (args : List VaArg) (width : ℕ) :
    (c.partAt args width).Fits ↔ c.HasRoom args := by
  rw [Part.fits_iff_roomy (c.part_fromArgument args width)]
  have hex : c.printedAs = ascii 'x' ∨ c.printedAs = ascii 'X' ↔
      c.specifier = .x ∨ c.specifier = .X ∨ c.specifier = .p := by
    unfold Conversion.printedAs
    cases c.specifier <;> decide
  have octal : c.printedAs = ascii 'o' ∧ 2 ^ 60 ≤ (c.number args).natAbs ↔
      c.specifier = .o ∧ 2 ^ 60 ≤ c.number args := by
    have named : c.printedAs = ascii 'o' ↔ c.specifier = .o := by
      unfold Conversion.printedAs
      cases c.specifier <;> decide
    rw [named]
    refine and_congr_right fun o => ?_
    have unsigned : 0 ≤ c.number args := by
      have plain : ¬ c.Signed := by
        unfold Conversion.Signed
        rw [o]
        decide
      unfold Conversion.number
      split
      · rw [if_neg plain]
        omega
      · omega
    omega
  unfold Conversion.HasRoom Conversion.partAt Part.Roomy
  dsimp only
  rw [hex, octal]
  simp [Conversion.flagsRead]

theorem Conversion.integerDigits_eq (c : Conversion) (args : List VaArg) :
    integerDigits c.printedAs (c.number args).natAbs = c.digitsOf args :=
  Vineyard.integerDigits_eq _ (c.number_natAbs_lt args)

theorem Conversion.digitsOf_length (c : Conversion) (args : List VaArg) :
    (c.digitsOf args).length = bufLength (conversionBase c.printedAs) 64 (c.number args).natAbs := by
  rw [← c.integerDigits_eq, integerDigits_length]

theorem Conversion.printedWidth_eq (small : c.precisionValue < 2 ^ 31) (width : ℕ)
    (length : PrintfLength) :
    printedWidth ⟨c.flagsRead, width, precisionOf c.precision, length⟩ c.printedAs
        (c.number args).natAbs = max c.precisionValue (c.digitsOf args).length := by
  rw [c.digitsOf_length]
  unfold printedWidth
  dsimp only
  unfold Conversion.precisionValue at small ⊢
  cases written : c.precision with
  | none =>
    have absent : precisionOf none = noPrecision := rfl
    rw [absent, if_neg fun h => h.1 rfl]
    exact (Nat.zero_max _).symm
  | some digits =>
    rw [written] at small
    have given : precisionOf (some digits) = decimalFrom 0 digits :=
      readDigits_decimal digits 0 (Nat.lt_trans small (by decide))
    have present : decimalFrom 0 digits ≠ noPrecision := by
      intro same
      have : noPrecision < 2 ^ 31 := same ▸ small
      exact absurd this (by decide)
    rw [given]
    show (if _ ∧ _ then _ else _) = max (decimalFrom 0 digits) _
    split_ifs with more
    · omega
    · have : ¬ _ := fun lt => more ⟨present, lt⟩
      omega

theorem prefixChars_length_le_three (flags : PrintfFlags) (specifier : Byte) (negative : Bool) :
    (prefixChars flags specifier negative).length ≤ 3 := by
  rw [prefixChars_length]
  split_ifs <;> omega

theorem Conversion.room_lt (small : c.precisionValue < 2 ^ 31) : c.room args < 2 ^ 32 := by
  have digits := bufLength_le c.printedAs (c.number_natAbs_lt args)
  have sign := prefixChars_length_le_three c.flagsRead c.printedAs (decide (c.number args < 0))
  unfold Conversion.room Conversion.prefixOf
  rw [c.digitsOf_length]
  omega

/-- The padding of a conversion of an integer. -/
def Conversion.pad (c : Conversion) (args : List VaArg) : ℕ :=
  sizeWord (c.fieldWidth args) - c.room args

theorem Conversion.padding_eq (small : c.precisionValue < 2 ^ 31) (length : PrintfLength) :
    padding ⟨c.flagsRead, sizeWord (c.fieldWidth args), precisionOf c.precision, length⟩ c.printedAs
        (c.number args).natAbs (decide (c.number args < 0)) = c.pad args := by
  have fits : c.room args < 2 ^ 64 := Nat.lt_trans (c.room_lt small) (by decide)
  have needed : max c.precisionValue (c.digitsOf args).length +
      (prefixChars c.flagsRead c.printedAs (decide (c.number args < 0))).length = c.room args :=
    Nat.add_comm _ _
  unfold padding Conversion.pad
  rw [c.printedWidth_eq small, needed, Nat.mod_eq_of_lt fits]
  dsimp only
  split_ifs <;> omega

/-- **What a conversion of an integer prints.** -/
theorem Conversion.output_eq (small : c.precisionValue < 2 ^ 31) :
    (c.part args).chunks.flatten =
      List.replicate (if .zero ∈ c.flags then 0 else c.pad args) (ascii ' ') ++ (c.prefixOf args ++
      (List.replicate (if .zero ∈ c.flags ∧ .minus ∉ c.flags then c.pad args else 0) (ascii '0') ++
      (List.replicate (c.precisionValue - (c.digitsOf args).length) (ascii '0') ++ (c.digitsOf args ++
      List.replicate (if .minus ∈ c.flags then c.pad args else 0) (ascii ' '))))) := by
  have zeros : max c.precisionValue (c.digitsOf args).length - (c.digitsOf args).length =
      c.precisionValue - (c.digitsOf args).length := by omega
  unfold Conversion.part Conversion.partAt Part.chunks
  dsimp only
  rw [c.padding_eq small, c.printedWidth_eq small, ← c.digitsOf_length, zeros, c.integerDigits_eq]
  simp only [List.flatten_append, List.flatten_replicate_singleton, List.flatten_singleton]
  simp [Conversion.flagsRead, Conversion.prefixOf]

/-- The padding is written twice on the left and right of a field with `-` and without `0`. -/
theorem pads_eq (minus zero : Prop) [Decidable minus] [Decidable zero] (pad : ℕ) :
    (if zero then 0 else pad) + (if zero ∧ ¬ minus then pad else 0) + (if minus then pad else 0) =
      if minus ∧ ¬ zero then 2 * pad else pad := by
  by_cases isZero : zero <;> by_cases isMinus : minus <;> simp [isZero, isMinus]
  omega

theorem Conversion.output_length (c : Conversion) (args : List VaArg)
    (small : c.precisionValue < 2 ^ 31) :
    (c.part args).chunks.flatten.length =
      (if .minus ∈ c.flags ∧ .zero ∉ c.flags then 2 * c.pad args else c.pad args) + c.room args := by
  rw [c.output_eq small, ← pads_eq]
  unfold Conversion.room
  simp only [List.length_append, List.length_replicate]
  omega

/-- A negative width is a huge number of the type `size_t`. -/
theorem sizeWord_neg {w : ℤ} (low : -2 ^ 31 ≤ w) (negative : w < 0) :
    2 ^ 64 - 2 ^ 31 ≤ sizeWord w := by
  unfold sizeWord
  rw [BitVec.toNat_ofInt]
  omega

theorem sizeWord_nonneg {w : ℤ} (nonneg : 0 ≤ w) (high : w < 2 ^ 31) : (sizeWord w : ℤ) = w := by
  unfold sizeWord
  rw [BitVec.toNat_ofInt]
  omega

theorem Conversion.le_fieldWidth (c : Conversion) (args : List VaArg) :
    -2 ^ 31 ≤ c.fieldWidth args := by
  unfold Conversion.fieldWidth
  split
  · decide
  · omega
  · rename_i w _ _
    have := BitVec.le_toInt w
    omega
  · decide

/-- With a width that is not negative the padding fills the field. -/
theorem Conversion.pad_eq (nonneg : 0 ≤ c.fieldWidth args) (width : c.fieldWidth args < 2 ^ 31) :
    c.pad args = (c.fieldWidth args).toNat - c.room args := by
  have word := sizeWord_nonneg nonneg width
  unfold Conversion.pad
  omega

theorem Conversion.pad_huge (negative : c.fieldWidth args < 0) (small : c.precisionValue < 2 ^ 31) :
    2 ^ 63 ≤ c.pad args := by
  have huge := sizeWord_neg (c.le_fieldWidth args) negative
  have room : c.room args < 2 ^ 32 := c.room_lt small
  unfold Conversion.pad
  omega

/-- A field with `-` and without `0` that needs padding is too long, and so is one of negative
width. -/
theorem Conversion.fieldWidth_of_length (precision : c.precisionValue < 2 ^ 31)
    (width : c.fieldWidth args < 2 ^ 31)
    (total : (c.part args).chunks.flatten.length = max (c.fieldWidth args).natAbs (c.room args)) :
    0 ≤ c.fieldWidth args ∧
      (.minus ∈ c.flags → .zero ∉ c.flags → c.fieldWidth args ≤ c.room args) := by
  have low := c.le_fieldWidth args
  rw [c.output_length args precision] at total
  have nonneg : 0 ≤ c.fieldWidth args := by
    by_contra negative
    have huge := Conversion.pad_huge (Int.not_le.mp negative) precision
    split_ifs at total <;> omega
  refine ⟨nonneg, fun minus noZero => ?_⟩
  have pad := Conversion.pad_eq nonneg width
  rw [if_pos ⟨minus, noZero⟩] at total
  omega

theorem Conversion.room_pos (c : Conversion) (args : List VaArg) : 0 < c.room args := by
  have one : 0 < bufLength (conversionBase c.printedAs) 64 (c.number args).natAbs := by
    unfold bufLength
    split_ifs <;> omega
  unfold Conversion.room
  rw [c.digitsOf_length]
  omega

/-- **An integer fills its field exactly when there is room for it, the width is not negative and a
field with `-` and without `0` needs no padding.** -/
theorem integer_field_iff (c : Conversion) (args : List VaArg) (integer : c.specifier.IsInteger)
    (matching : args.map VaArg.type = c.argTypes) (width : c.fieldWidth args < 2 ^ 31)
    (precision : c.precisionValue < 2 ^ 31) :
    FieldOk c args (delivered c.text args) ↔
      c.HasRoom args ∧ 0 ≤ c.fieldWidth args ∧
        (.minus ∈ c.flags → .zero ∉ c.flags → c.fieldWidth args ≤ c.room args) := by
  rw [← c.part_fits_iff args (sizeWord (c.fieldWidth args))]
  by_cases fits : (c.part args).Fits
  swap
  · have prints := Conversion.act_prints integer matching
    rw [c.widthRead_eq width] at prints
    rw [Conversion.delivered_overflow (prints.overflows fits)]
    refine ⟨fun ok => ?_, fun good => absurd good.1 fits⟩
    have total := ok.length_eq
    have pos := c.room_pos args
    rw [List.length_nil] at total
    omega
  rw [c.delivered_eq integer matching width fits]
  constructor
  · intro ok
    exact ⟨fits, Conversion.fieldWidth_of_length precision width ok.length_eq⟩
  · rintro ⟨-, nonneg, left⟩
    have pad := Conversion.pad_eq nonneg width
    have none : .minus ∈ c.flags ∧ .zero ∉ c.flags → c.pad args = 0 := by
      intro bothSides
      have fits := left bothSides.1 bothSides.2
      omega
    constructor
    · rw [c.output_length args precision]
      split_ifs with bothSides
      · have := none bothSides
        omega
      · omega
    · rintro (minus | negative)
      · refine ⟨c.pad args, ?_⟩
        rw [c.output_eq precision, Conversion.body]
        by_cases zero : .zero ∈ c.flags
        · simp [zero, minus]
        · simp [none ⟨minus, zero⟩]
      · omega

end Field

/-- `%-5d` -/
def leftAligned : Conversion := ⟨[.minus], .digits 4 [], none, .none, .d⟩

/-- With 7 the padding is written on both sides. -/
theorem not_fieldOk_leftAligned :
    ¬ FieldOk leftAligned [.int 7] (delivered leftAligned.text [.int 7]) := by
  intro ok
  have total := ok.length_eq
  have out : (delivered leftAligned.text [.int 7]).length = 9 := by decide +kernel
  have wanted : max (leftAligned.fieldWidth [.int 7]).natAbs (leftAligned.room [.int 7]) = 5 := by
    decide +kernel
  omega

/-- `%-05d` with 7 -/
theorem integer_field_zero :
    FieldOk ⟨[.minus, .zero], .digits 4 [], none, .none, .d⟩ [.int 7]
        (delivered (Conversion.text ⟨[.minus, .zero], .digits 4 [], none, .none, .d⟩) [.int 7]) ↔
      Conversion.HasRoom ⟨[.minus, .zero], .digits 4 [], none, .none, .d⟩ [.int 7] ∧
      0 ≤ Conversion.fieldWidth ⟨[.minus, .zero], .digits 4 [], none, .none, .d⟩ [.int 7] ∧
        (.minus ∈ [FlagChar.minus, .zero] → .zero ∉ [FlagChar.minus, .zero] →
          Conversion.fieldWidth ⟨[.minus, .zero], .digits 4 [], none, .none, .d⟩ [.int 7] ≤
            Conversion.room ⟨[.minus, .zero], .digits 4 [], none, .none, .d⟩ [.int 7]) :=
  integer_field_iff ⟨[.minus, .zero], .digits 4 [], none, .none, .d⟩ [.int 7] trivial rfl (by decide)
    (by decide)

end Vineyard
