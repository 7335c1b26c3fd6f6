import Mathlib.Data.Nat.Digits.Lemmas
import Vineyard.Stdio.FieldWidth

/-!
# Reading printed integers back

The bytes of an integer conversion without flags, width and precision are a numeral: read digit by
digit they give the value again, up to the ends of the 64-bit types.
-/

namespace Vineyard

/-! ## Numerals -/

/-- The value of a digit; those above 9 are letters of one case. -/
def digitValue (upper : Bool) (c : Byte) : Option ℕ :=
  if ascii '0' ≤ c ∧ c ≤ ascii '9' then some (c.toNat - 48)
  else if upper then
    if ascii 'A' ≤ c ∧ c ≤ ascii 'F' then some (c.toNat - 55) else none
  else if ascii 'a' ≤ c ∧ c ≤ ascii 'f' then some (c.toNat - 87) else none

/-- The number behind one more digit. -/
def readDigit (base : ℕ) (upper : Bool) (n : ℕ) (c : Byte) : Option ℕ :=
  match digitValue upper c with
  | some d => if d < base then some (n * base + d) else none
  | none => none

/-- The number that digits denote. -/
def readNumeral (base : ℕ) (upper : Bool) (chars : List Byte) : Option ℕ :=
  if chars = [] then none else chars.foldlM (readDigit base upper) 0

/-- The number that a decimal denotes, behind a `-` or not. -/
def readSigned (chars : List Byte) : Option ℤ :=
  if chars.head? = some (ascii '-') then (readNumeral 10 false chars.tail).map fun n => -(n : ℤ)
  else (readNumeral 10 false chars).map fun n => (n : ℤ)

/-- The digits denote the value, without a leading zero, and fit into `buf`. -/
structure Denotes (base : ℕ) (upper : Bool) (digits : List Byte) (value : ℕ) : Prop where
  value_eq : readNumeral base upper digits = some value
  some_digit : digits ≠ []
  no_leading_zero : digits.head? = some (ascii '0') → value = 0
  few : digits.length ≤ 20

/-- The digits above 9 are capitals for `X`. -/
def capitals (specifier : Byte) : Bool := specifier = ascii 'X'

section Digits

variable {specifier : Byte} {base : ℕ}

theorem digitValue_convDigit {d : ℕ} (small : d < 16) :
    digitValue (capitals specifier) (convDigit specifier d) = some d := by
  by_cases upper : specifier = ascii 'X'
  · subst upper
    revert d
    decide
  · have letters : ∀ d < 16,
      digitValue false (if d < 10 then UInt8.ofNat (48 + d) else UInt8.ofNat (87 + d)) =
        some d := by decide
    simpa [convDigit, capitals, upper] using letters d small

theorem convDigit_eq_zero {d : ℕ} (small : d < 16)
    (zero : convDigit specifier d = ascii '0') : d = 0 := by
  have value : digitValue (capitals specifier) (convDigit specifier d) = some d :=
    digitValue_convDigit small
  rw [zero] at value
  cases capitals specifier <;> exact (Option.some.inj value).symm

theorem readDigits_map (small : base ≤ 16) {digits : List ℕ}
    (below : ∀ d ∈ digits, d < base) (n : ℕ) :
    (digits.map (convDigit specifier)).foldlM (readDigit base (capitals specifier)) n =
      some (digits.foldl (fun n d => n * base + d) n) := by
  induction digits generalizing n with
  | nil => rfl
  | cons d digits ih =>
    have first := below d (by simp)
    have digit : readDigit base (capitals specifier) n (convDigit specifier d) =
      some (n * base + d) := by
      rw [readDigit, digitValue_convDigit (by omega)]
      simp [first]
    rw [List.map_cons, List.foldlM_cons, digit]
    exact ih (fun e mem => below e (by simp [mem])) _

/-- The digits of a number from the first on. -/
theorem foldl_reverse_digits (base value : ℕ) :
    (Nat.digits base value).reverse.foldl (fun n d => n * base + d) 0 = value := by
  rw [List.foldl_reverse]
  conv_rhs => rw [← Nat.ofDigits_digits base value, Nat.ofDigits_eq_foldr]
  simp [Nat.mul_comm, Nat.add_comm]

theorem numeral_lt (radix : 2 ≤ base) (value : ℕ) : ∀ d ∈ numeral base value, d < base := by
  intro d mem
  rw [numeral] at mem
  split_ifs at mem with zero
  · simp at mem
    omega
  · exact Nat.digits_lt_base radix (List.mem_reverse.1 mem)

theorem foldl_numeral (base value : ℕ) :
    (numeral base value).foldl (fun n d => n * base + d) 0 = value := by
  rw [numeral]
  split_ifs with zero
  · simp [zero]
  · exact foldl_reverse_digits base value

theorem numeral_ne_nil (base value : ℕ) : numeral base value ≠ [] := by
  rw [numeral]
  split_ifs with zero <;> simp [Nat.digits_ne_nil_iff_ne_zero, zero]

/-- The first digit of a number is not zero. -/
theorem numeral_head (value : ℕ) (first : (numeral base value).head? = some 0) : value = 0 := by
  by_contra nonzero
  have some := Nat.digits_ne_nil_iff_ne_zero (b := base) |>.2 nonzero
  rw [numeral, if_neg nonzero, List.head?_reverse, List.getLast?_eq_getLast_of_ne_nil some] at first
  exact Nat.getLast_digit_ne_zero base nonzero (Option.some.inj first)

end Digits

/-! ## Conversions -/

/-- A conversion without flags, width and precision. -/
def bare (m : Modifier) (sp : Specifier) : Conversion := ⟨[], .none, none, m, sp⟩

section Bare

variable {m : Modifier} {sp : Specifier} {args : List VaArg}

/-- The digits of a conversion denote the magnitude of its number. -/
theorem Conversion.digitsOf_denotes (c : Conversion) (args : List VaArg)
    (room : ¬ (c.printedAs = ascii 'o' ∧ 2 ^ 60 ≤ (c.number args).natAbs)) :
    Denotes (conversionBase c.printedAs) (capitals c.printedAs) (c.digitsOf args)
      (c.number args).natAbs := by
  have radix := two_le_conversionBase c.printedAs
  have small : conversionBase c.printedAs ≤ 16 := by
    unfold conversionBase
    split_ifs <;> omega
  have below := numeral_lt radix (c.number args).natAbs
  have some : c.digitsOf args ≠ [] := by simp [Conversion.digitsOf, numeral_ne_nil]
  refine ⟨?_, some, fun first => ?_, ?_⟩
  · rw [readNumeral, if_neg some, Conversion.digitsOf, readDigits_map small below, foldl_numeral]
  · rw [Conversion.digitsOf, List.head?_map] at first
    obtain ⟨d, head, zero⟩ := Option.map_eq_some_iff.1 first
    have mem := List.mem_of_head? head
    rw [convDigit_eq_zero (Nat.lt_of_lt_of_le (below d mem) small) zero] at head
    exact numeral_head _ head
  · rw [c.digitsOf_length]
    exact (bufLength_le_twenty _ (c.number_natAbs_lt args)).2 room

/-- A bare conversion delivers a sign and digits. -/
theorem bare_delivered (integer : sp.IsInteger) (typed : args.map VaArg.type = (bare m sp).argTypes)
    (room : ¬ (sp = .o ∧ 2 ^ 60 ≤ (bare m sp).number args)) :
    delivered (bare m sp).text args =
      (if (bare m sp).number args < 0 then [ascii '-'] else []) ++ (bare m sp).digitsOf args := by
  have width : (bare m sp).fieldWidth args = 0 := by simp [bare, Conversion.fieldWidth]
  have precision : (bare m sp).precisionValue = 0 := rfl
  have pad : (bare m sp).pad args = 0 := by simp [Conversion.pad, width, sizeWord]
  have flags : (bare m sp).flags = [] := rfl
  have sign : (bare m sp).prefixOf args =
      if (bare m sp).number args < 0 then [ascii '-'] else [] := by
    by_cases negative : (bare m sp).number args < 0 <;>
      simp [Conversion.prefixOf, Conversion.flagsRead, prefixChars, flags, negative]
  have fits : ((bare m sp).part args).Fits :=
    ((bare m sp).part_fits_iff args _).mpr ⟨by simp [flags], room⟩
  rw [(bare m sp).delivered_eq integer typed (by rw [width]; decide) fits,
    (bare m sp).output_eq (by rw [precision]; decide), pad, precision, sign]
  simp

/-- A `-` is no digit. -/
theorem Denotes.head_ne_minus {base value : ℕ} {upper : Bool} {digits : List Byte}
    (denotes : Denotes base upper digits value) : digits.head? ≠ some (ascii '-') := by
  intro minus
  obtain ⟨rest, rfl⟩ := List.head?_eq_some_iff.1 minus
  have noDigit : digitValue upper (ascii '-') = none := by cases upper <;> decide
  have read := denotes.value_eq
  simp [readNumeral, List.foldlM_cons, readDigit, noDigit] at read

/-- A sign in front of digits is read as such. -/
theorem readSigned_of_denotes {digits : List Byte} {v : ℤ}
    (denotes : Denotes 10 false digits v.natAbs) :
    readSigned ((if v < 0 then [ascii '-'] else []) ++ digits) = some v := by
  have value := denotes.value_eq
  by_cases negative : v < 0
  · rw [if_pos negative, List.singleton_append, readSigned, if_pos List.head?_cons,
      List.tail_cons, value]
    simp [abs_of_neg negative]
  · rw [if_neg negative, List.nil_append, readSigned, if_neg denotes.head_ne_minus, value]
    simp [abs_of_nonneg (Int.not_lt.1 negative)]

end Bare

/-- Whatever the callback does, at most 20 digits and their terminator are stored to `buf`. -/
def StoresDigits (format : List Byte) (args : List VaArg) : Prop :=
  ∀ {σ : Type} (callback : PrintfCallback σ) (ctx : σ) (i : ℕ),
    .bufAt i ∈ ((vcbprintfAll callback format).run (.start ctx args)).2.stores → i ≤ 20

/-- A single part is found whether it fits or not. -/
theorem scan_single {c : Byte} {format : List Byte} {args args' : List VaArg} {part : Part}
    (step : (scanStep false (c :: format)).run args = (.ok ⟨part, [], false⟩, args')) :
    (scan (c :: format) args).parts = [part] := by
  unfold scan
  rw [List.length_cons]
  by_cases fits : part.Fits
  · rw [scanLoop_succ_ok fits step, scanLoop]
    rfl
  · rw [scanLoop_succ_stopped fits step]
    rfl

theorem scan_signed {m : Modifier} {sp : Specifier} (long : m.argType = .long)
    (signed : sp = .d ∨ sp = .i) (v : BitVec 64) :
    (scan (bare m sp).text [.long v]).parts = [.integer ⟨{}, 0, noPrecision, m.length⟩
      sp.char (if v.msb then (-v).toNat else v.toNat) v.msb] := by
  rcases signed with rfl | rfl <;> cases m <;> first | exact scan_single rfl | cases long

theorem scan_unsigned {m : Modifier} {sp : Specifier} (long : m.argType = .long)
    (unsigned : sp = .o ∨ sp = .u ∨ sp = .x ∨ sp = .X) (v : BitVec 64) :
    (scan (bare m sp).text [.long v]).parts =
      [.integer ⟨{}, 0, noPrecision, m.length⟩ sp.char v.toNat false] := by
  rcases unsigned with rfl | rfl | rfl | rfl <;> cases m <;>
    first | exact scan_single rfl | cases long

theorem storesDigits_of_parts {format : List Byte} {args : List VaArg} {d : Directive}
    {specifier : Byte} {value : ℕ} {negative : Bool}
    (parts : (scan format args).parts = [.integer d specifier value negative])
    (word : value < 2 ^ 64) (room : ¬ (specifier = ascii 'o' ∧ 2 ^ 60 ≤ value)) :
    StoresDigits format args := by
  intro σ callback ctx i mem
  have few := (bufLength_le_twenty specifier word).2 room
  have stored : .bufAt i ∈ (Part.integer d specifier value negative).stores := by
    simpa [Scanned.stores, parts] using stores_of_run mem
  have asked := storesMade_subset _ stored
  simp [Part.targets] at asked
  omega

/-- A signed number is printed as its sign and the digits of its magnitude. -/
theorem signed_round_trip {m : Modifier} {sp : Specifier} (long : m.argType = .long)
    (signed : sp = .d ∨ sp = .i) (v : BitVec 64) :
    readSigned (delivered (bare m sp).text [.long v]) = some v.toInt ∧
      (∃ digits, delivered (bare m sp).text [.long v] =
        (if v.toInt < 0 then [ascii '-'] else []) ++ digits ∧
          Denotes 10 false digits v.toInt.natAbs) ∧
      StoresDigits (bare m sp).text [.long v] := by
  have integer : sp.IsInteger := by rcases signed with rfl | rfl <;> trivial
  have typed : [VaArg.long v].map VaArg.type = (bare m sp).argTypes := by
    rcases signed with rfl | rfl <;>
      simp [bare, Conversion.argTypes, Conversion.argType, VaArg.type, long]
  have number : (bare m sp).number [.long v] = v.toInt := by rcases signed with rfl | rfl <;> rfl
  have printed : (bare m sp).printedAs = sp.char := by rcases signed with rfl | rfl <;> rfl
  have decimal : sp.char ≠ ascii 'o' ∧ conversionBase sp.char = 10 ∧ capitals sp.char = false := by
    rcases signed with rfl | rfl <;> decide
  have denotes := (bare m sp).digitsOf_denotes [.long v] (by simp [printed, decimal.1])
  have out := bare_delivered integer typed fun h => by rcases signed with rfl | rfl <;> cases h.1
  rw [number, printed, decimal.2.1, decimal.2.2] at denotes
  rw [number] at out
  have word : (if v.msb then (-v).toNat else v.toNat) < 2 ^ 64 := by split_ifs <;> exact BitVec.isLt _
  refine ⟨?_, ⟨_, out, denotes⟩, ?_⟩
  · rw [out, readSigned_of_denotes denotes]
  · exact storesDigits_of_parts (scan_signed long signed v) word (fun h => decimal.1 h.1)

/-- The base that a specifier names. -/
def Specifier.base : Specifier → ℕ
  | .o => 8
  | .x | .X => 16
  | _ => 10

/-- An unsigned number is printed as its digits. -/
theorem unsigned_round_trip {m : Modifier} {sp : Specifier} (long : m.argType = .long)
    (unsigned : sp = .o ∨ sp = .u ∨ sp = .x ∨ sp = .X) (v : BitVec 64)
    (octal : sp = .o → v.toNat < 2 ^ 60) :
    Denotes sp.base (decide (sp = .X)) (delivered (bare m sp).text [.long v]) v.toNat ∧
      StoresDigits (bare m sp).text [.long v] := by
  have integer : sp.IsInteger := by rcases unsigned with rfl | rfl | rfl | rfl <;> trivial
  have typed : [VaArg.long v].map VaArg.type = (bare m sp).argTypes := by
    rcases unsigned with rfl | rfl | rfl | rfl <;>
      simp [bare, Conversion.argTypes, Conversion.argType, VaArg.type, long]
  have number : (bare m sp).number [.long v] = v.toNat := by
    rcases unsigned with rfl | rfl | rfl | rfl <;> rfl
  have printed : (bare m sp).printedAs = sp.char := by
    rcases unsigned with rfl | rfl | rfl | rfl <;> rfl
  have named : conversionBase sp.char = sp.base ∧ capitals sp.char = decide (sp = .X) ∧
      (sp.char = ascii 'o' → sp = .o) := by
    rcases unsigned with rfl | rfl | rfl | rfl <;> decide
  have room : ¬ (sp.char = ascii 'o' ∧ 2 ^ 60 ≤ v.toNat) := fun h =>
    Nat.not_lt.2 h.2 (octal (named.2.2 h.1))
  have denotes := (bare m sp).digitsOf_denotes [.long v] (by simpa [number, printed] using room)
  have out := bare_delivered integer typed fun h => by
    have small := octal h.1
    rw [number] at h
    omega
  rw [number, printed, named.1, named.2.1, Int.natAbs_natCast] at denotes
  rw [number, if_neg (by simp), List.nil_append] at out
  refine ⟨?_, storesDigits_of_parts (scan_unsigned long unsigned v) v.isLt room⟩
  rw [out]
  exact denotes

/-- **Integers of 64 bits are printed as numerals that denote them.** -/
theorem integer_round_trip (m : Modifier) (long : m.argType = .long) (v : BitVec 64) :
    (∀ sp, sp = .d ∨ sp = .i →
      readSigned (delivered (bare m sp).text [.long v]) = some v.toInt ∧
        (∃ digits, delivered (bare m sp).text [.long v] =
          (if v.toInt < 0 then [ascii '-'] else []) ++ digits ∧
            Denotes 10 false digits v.toInt.natAbs) ∧
        StoresDigits (bare m sp).text [.long v]) ∧
    ∀ sp, sp = .o ∨ sp = .u ∨ sp = .x ∨ sp = .X → (sp = .o → v.toNat < 2 ^ 60) →
      Denotes sp.base (decide (sp = .X)) (delivered (bare m sp).text [.long v]) v.toNat ∧
        StoresDigits (bare m sp).text [.long v] :=
  ⟨fun _ signed => signed_round_trip long signed v, fun _ unsigned =>
    unsigned_round_trip long unsigned v⟩

/-- The smallest number with `%ld` -/
theorem integer_round_trip_minimum :
    readSigned (delivered (bare .l .d).text [.long (BitVec.intMin 64)]) =
      some (BitVec.intMin 64).toInt ∧
      (BitVec.intMin 64).toInt = -2 ^ 63 :=
  ⟨((integer_round_trip .l rfl (BitVec.intMin 64)).1 .d (.inl rfl)).1, by decide⟩

end Vineyard
