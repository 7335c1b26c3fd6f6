import Mathlib.Algebra.GroupWithZero.Nat
import Vineyard.Stdio.Items

/-!
# A format as a sequence of parts

The formatter scans and prints at once.  Here the two are apart: `scan` reads a format and takes the
arguments and finds the parts that are to be printed, and each part has its chunks for the callback,
its share of the count and its stores to the local arrays.  A run of `vcbprintf` with any callback is
the scan followed by handing the chunks over until one is not taken.  A part with a store outside its
array is the last one that is found, and none of its chunks is handed over.
-/

namespace Vineyard

open Programs Programs.Prog

/-! ## Taking arguments -/

/-- A program that only takes arguments. -/
abbrev FetchM := Prog PrintfStop (List VaArg)

def fetchArg : FetchM VaArg := do
  match ← get with
  | [] => fail .argument
  | a :: rest =>
    modify fun _ => rest
    return a

def fetchInt : FetchM (BitVec 32) := do
  match ← fetchArg with
  | .int v => return v
  | _ => fail .argument

def fetchLong : FetchM (BitVec 64) := do
  match ← fetchArg with
  | .long v => return v
  | _ => fail .argument

def fetchPointer : FetchM (BitVec 64) := do
  match ← fetchArg with
  | .pointer v => return v
  | _ => fail .argument

def fetchString : FetchM (List Byte) := do
  match ← fetchArg with
  | .string chars => return chars
  | _ => fail .argument

/-! ## Parts -/

/-- What is printed between two looks at the format. -/
inductive Part where
  /-- Text of the format. -/
  | block (chars : List Byte)
  /-- A `%` with flags, a width, a precision or a length. -/
  | percent
  | string (chars : List Byte)
  | char (c : Byte)
  | integer (d : Directive) (specifier : Byte) (value : ℕ) (negative : Bool)
  deriving DecidableEq

/-- `printed_width` -/
def printedWidth (d : Directive) (specifier : Byte) (value : ℕ) : ℕ :=
  if d.precision ≠ noPrecision ∧ bufLength (conversionBase specifier) 64 value < d.precision then
    d.precision
  else bufLength (conversionBase specifier) 64 value

/-- `pad` -/
def padding (d : Directive) (specifier : Byte) (value : ℕ) (negative : Bool) : ℕ :=
  if d.width < (printedWidth d specifier value +
      (prefixChars d.flags specifier negative).length) % 2 ^ 64 then 0
  else d.width - (printedWidth d specifier value +
    (prefixChars d.flags specifier negative).length) % 2 ^ 64

/-- The digits in `buf`. -/
def integerDigits (specifier : Byte) (value : ℕ) : List Byte :=
  bufDigits specifier (conversionBase specifier) (bufLength (conversionBase specifier) 64 value) value

/-- The chunks that the callback gets for a part. -/
def Part.chunks : Part → List (List Byte)
  | .block chars => [chars]
  | .percent => [[ascii '%']]
  | .string chars => [chars]
  | .char c => [[c]]
  | .integer d specifier value negative =>
    List.replicate (if d.flags.zero then 0 else padding d specifier value negative) [ascii ' '] ++
      ([prefixChars d.flags specifier negative] ++
      (List.replicate
        (if d.flags.zero ∧ ¬ d.flags.minus then padding d specifier value negative else 0)
        [ascii '0'] ++
      (List.replicate (printedWidth d specifier value - bufLength (conversionBase specifier) 64 value)
        [ascii '0'] ++
      ([integerDigits specifier value] ++
      List.replicate (if d.flags.minus then padding d specifier value negative else 0) [ascii ' ']))))

/-- What a part adds to `written`. -/
def Part.counted : Part → ℕ
  | .block chars => chars.length
  | .percent => 0
  | .string chars => chars.length
  | .char _ => 1
  | .integer _ specifier value _ => bufLength (conversionBase specifier) 64 value

/-- The elements of `prefix` and `buf` that a part asks to store to, in order. -/
def Part.targets : Part → List ArrayStore
  | .integer d specifier value negative =>
    (List.range ((prefixChars d.flags specifier negative).length + 1)).map .prefixAt ++
      ((List.range (bufLength (conversionBase specifier) 64 value)).reverse ++
        [bufLength (conversionBase specifier) 64 value]).map .bufAt
  | _ => []

/-- The bounds checks let every store of the part through. -/
def Part.Fits (part : Part) : Prop := ∀ x ∈ part.targets, x.Inside

instance (part : Part) : Decidable part.Fits :=
  inferInstanceAs (Decidable (∀ x ∈ part.targets, x.Inside))

/-- The stores up to the first one outside, the last ones first. -/
def storesMade : List ArrayStore → List ArrayStore
  | [] => []
  | x :: rest => if x.Inside then storesMade rest ++ [x] else [x]

/-- The elements that are stored to, the last ones first. -/
def Part.stores (part : Part) : List ArrayStore := storesMade part.targets

/-- The statements of the source for a part. -/
def Part.print {σ : Type} (callback : PrintfCallback σ) : Part → PrintfM σ Unit
  | .block chars => do
    emit callback chars
    count chars.length
  | .percent => emit callback [ascii '%']
  | .string chars => do
    emit callback chars
    count chars.length
  | .char c => do
    emit callback [c]
    count 1
  | .integer d specifier value negative => printInteger callback d specifier value negative

/-! ## The scan -/

/-- A part, and where the scan goes on. -/
structure Found where
  part : Part
  rest : List Byte
  badConversion : Bool

/-- `normal_print`: one byte and everything before the next `%`. -/
def scanBlock (badConversion : Bool) (format : List Byte) : Found :=
  let block := 1 + (format.tail.takeWhile (· ≠ ascii '%')).length
  ⟨.block (format.take block), format.drop block, badConversion⟩

def fetchWidth (format : List Byte) : FetchM (ℕ × List Byte) :=
  let digits := readDigits 0 format
  if peek digits.2 = ascii '*' then do
    let w ← fetchInt
    return ((w.signExtend 64).toNat, digits.2.tail)
  else return digits

def fetchSigned (length : PrintfLength) : Option (FetchM (BitVec 64)) :=
  match length with
  | .shortShort | .short | .default => some do
    let v ← fetchInt
    return v.signExtend 64
  | .long | .longLong | .intmaxT | .sizeT | .ptrdiffT => some fetchLong
  | .longDouble => none

def fetchUnsigned (length : PrintfLength) : Option (FetchM (BitVec 64)) :=
  match length with
  | .shortShort | .short | .default => some do
    let v ← fetchInt
    return v.setWidth 64
  | .long | .longLong | .intmaxT | .sizeT | .ptrdiffT => some fetchLong
  | .longDouble => none

/-- The part of a conversion; `none` is an unknown one. -/
def fetchPart (d : Directive) (specifier : Byte) : Option (FetchM Part) :=
  if specifier = ascii '%' then some (return .percent)
  else if specifier = ascii 's' then some do
    let chars ← fetchString
    return .string (chars.take (if d.precision < chars.length then d.precision else chars.length))
  else if specifier = ascii 'c' then some do
    let v ← fetchInt
    return .char (UInt8.ofBitVec (v.setWidth 8))
  else if specifier = ascii 'p' then some do
    let v ← fetchPointer
    return .integer d (ascii 'x') v.toNat false
  else if specifier = ascii 'd' ∨ specifier = ascii 'i' then
    (fetchSigned d.length).map fun arg => do
      let v ← arg
      return .integer d specifier (if v.msb then (-v).toNat else v.toNat) v.msb
  else if specifier = ascii 'o' ∨ specifier = ascii 'u' ∨ specifier = ascii 'x' ∨
      specifier = ascii 'X' then
    (fetchUnsigned d.length).map fun arg => do
      let v ← arg
      return .integer d specifier v.toNat false
  else none

/-- What is found at a conversion, or at one that turns out to be unknown. -/
def finishScan (format rest : List Byte) : Option (FetchM Part) → FetchM Found
  | some fetch => do
    let part ← fetch
    return ⟨part, rest.tail, false⟩
  | none => return scanBlock true format

def scanConversion (format : List Byte) : FetchM Found := do
  let flags := readFlags {} format.tail
  let width ← fetchWidth flags.2
  let precision := readPrecision width.2
  let length := readLength precision.2
  finishScan format length.2
    (fetchPart ⟨flags.1, width.1, precision.1, length.1⟩ (peek length.2))

/-- The next part of a format that is not at its end. -/
def scanStep (badConversion : Bool) (format : List Byte) : FetchM Found :=
  if peek format ≠ ascii '%' then return scanBlock badConversion format
  else if peek format.tail = ascii '%' then return scanBlock badConversion format.tail
  else if badConversion then return scanBlock true format
  else scanConversion format

/-- All that a scan finds, how it ends and the arguments that it leaves. -/
structure Scanned where
  parts : List Part
  result : Except PrintfStop Unit
  args : List VaArg
  badConversion : Bool

def scanLoop : ℕ → Bool → List Byte → List VaArg → Scanned
  | _, badConversion, [], args => ⟨[], .ok (), args, badConversion⟩
  | 0, badConversion, _ :: _, args => ⟨[], .error .endless, args, badConversion⟩
  | steps + 1, badConversion, c :: format, args =>
    match (scanStep badConversion (c :: format)).run args with
    | (.ok found, args) =>
      if found.part.Fits then
        let later := scanLoop steps found.badConversion found.rest args
        { later with parts := found.part :: later.parts }
      else ⟨[found.part], .error .outOfBounds, args, found.badConversion⟩
    | (.error stop, args) => ⟨[], .error stop, args, badConversion⟩

/-- The parts of a format. -/
def scan (format : List Byte) (args : List VaArg) : Scanned :=
  scanLoop format.length false format args

/-- The parts that are printed. -/
def Scanned.printed (scanned : Scanned) : List Part := scanned.parts.filter fun part => part.Fits

def Scanned.chunks (scanned : Scanned) : List (List Byte) := scanned.printed.flatMap Part.chunks

def Scanned.counted (scanned : Scanned) : ℕ := (scanned.printed.map Part.counted).sum

/-! ## The formatter takes the arguments of the scan -/

section Fetching

variable {σ : Type} {callback : PrintfCallback σ}

/-- The arguments that are left. -/
def argsLeft : Component (Printf σ) (List VaArg) where
  view s := s.args
  put args s := { s with args := args }
  view_put _ _ := rfl
  put_view _ := rfl
  put_put _ _ _ := rfl

theorem vaArg_eq : (vaArg : PrintfM σ VaArg) = fetchArg.on argsLeft := by
  apply Prog.ext
  funext s
  obtain ⟨ctx, args, written, badConversion, stores⟩ := s
  cases args <;> rfl

/-- What is made of an argument that is fetched. -/
theorem vaArg_bind_eq {α : Type} {make : VaArg → PrintfM σ α} {fetch : VaArg → FetchM α}
    (same : ∀ a, make a = (fetch a).on argsLeft) :
    (vaArg >>= make) = (fetchArg >>= fetch).on argsLeft := by
  rw [vaArg_eq, on_bind]
  exact congrArg (fetchArg.on argsLeft >>= ·) (funext same)

theorem vaInt_eq : (vaInt : PrintfM σ (BitVec 32)) = fetchInt.on argsLeft :=
  vaArg_bind_eq fun a => by cases a <;> simp

theorem vaLong_eq : (vaLong : PrintfM σ (BitVec 64)) = fetchLong.on argsLeft :=
  vaArg_bind_eq fun a => by cases a <;> simp

theorem vaPointer_eq : (vaPointer : PrintfM σ (BitVec 64)) = fetchPointer.on argsLeft :=
  vaArg_bind_eq fun a => by cases a <;> simp

theorem vaString_eq : (vaString : PrintfM σ (List Byte)) = fetchString.on argsLeft :=
  vaArg_bind_eq fun a => by cases a <;> simp

theorem readWidth_eq (format : List Byte) :
    (readWidth format : PrintfM σ (ℕ × List Byte)) = (fetchWidth format).on argsLeft := by
  unfold readWidth fetchWidth
  dsimp only
  split_ifs
  · rw [vaInt_eq, on_bind]
    simp
  · simp

theorem signedArg_eq (length : PrintfLength) :
    (signedArg length : Option (PrintfM σ (BitVec 64))) =
      (fetchSigned length).map fun arg => arg.on argsLeft := by
  cases length <;> simp [signedArg, fetchSigned, vaInt_eq, vaLong_eq, on_bind]

theorem unsignedArg_eq (length : PrintfLength) :
    (unsignedArg length : Option (PrintfM σ (BitVec 64))) =
      (fetchUnsigned length).map fun arg => arg.on argsLeft := by
  cases length <;> simp [unsignedArg, fetchUnsigned, vaInt_eq, vaLong_eq, on_bind]

/-- A conversion takes its argument and prints its part. -/
theorem convert_eq (d : Directive) (specifier : Byte) :
    convert callback d specifier =
      (fetchPart d specifier).map fun fetch => fetch.on argsLeft >>= Part.print callback := by
  unfold convert fetchPart
  split_ifs
  · rfl
  · rw [vaString_eq, Option.map_some, on_bind, bind_assoc]
    refine congrArg (fun next => some (fetchString.on argsLeft >>= next)) (funext fun chars => ?_)
    have cut : (chars.take
      (if d.precision < chars.length then d.precision else chars.length)).length =
        if d.precision < chars.length then d.precision else chars.length := by
      rw [List.length_take]
      split_ifs <;> omega
    rw [on_pure, pure_bind, Part.print, cut]
  · rw [vaInt_eq, Option.map_some, on_bind, bind_assoc]
    rfl
  · rw [vaPointer_eq, Option.map_some, on_bind, bind_assoc]
    rfl
  · rw [signedArg_eq, Option.map_map, Option.map_map]
    refine congrArg (fun f => Option.map f _) (funext fun arg => ?_)
    dsimp only [Function.comp_apply]
    rw [on_bind, bind_assoc]
    rfl
  · rw [unsignedArg_eq, Option.map_map, Option.map_map]
    refine congrArg (fun f => Option.map f _) (funext fun arg => ?_)
    dsimp only [Function.comp_apply]
    rw [on_bind, bind_assoc]
    rfl
  · rfl

/-- The scan goes on behind a part that was printed. -/
def Found.print (callback : PrintfCallback σ) (found : Found) : PrintfM σ (List Byte) := do
  modify fun s => { s with badConversion := found.badConversion }
  found.part.print callback
  return found.rest

theorem scanBlock_length (c : Byte) (format : List Byte) :
    ((c :: format).take (1 + (format.takeWhile (· ≠ ascii '%')).length)).length =
      1 + (format.takeWhile (· ≠ ascii '%')).length := by
  have short := (List.takeWhile_prefix (l := format) (· ≠ ascii '%')).length_le
  rw [List.length_take, List.length_cons]
  omega

theorem normalPrint_eq (c : Byte) (format : List Byte) :
    normalPrint callback (c :: format) = (do
      (scanBlock false (c :: format)).part.print callback
      return (scanBlock false (c :: format)).rest) := by
  unfold scanBlock
  dsimp only [Part.print, List.tail_cons]
  rw [scanBlock_length, bind_assoc]
  rfl

/-- A block that leaves `badConversion` as it is. -/
theorem normalPrint_run_scan (c : Byte) (format : List Byte) (s : Printf σ) :
    (normalPrint callback (c :: format)).run s =
      ((scanBlock s.badConversion (c :: format)).print callback).run s := by
  rw [normalPrint_eq]
  rfl

theorem keepBad_run {s : Printf σ} {bad : Bool} (same : s.badConversion = bad) :
    (modify fun s => { s with badConversion := bad } : PrintfM σ Unit).run s = (.ok (), s) := by
  rw [← same]
  rfl

theorem finishConversion_run (c : Byte) (format rest : List Byte) (fetch : Option (FetchM Part))
    (s : Printf σ) (good : s.badConversion = false) :
    (finishConversion callback (c :: format) rest
        (fetch.map fun fetch => fetch.on argsLeft >>= Part.print callback)).run s =
      ((finishScan (c :: format) rest fetch).on argsLeft >>= Found.print callback).run s := by
  cases fetch with
  | none =>
    rw [finishScan, on_pure, pure_bind, Option.map_none, finishConversion, normalPrint_eq]
    rfl
  | some fetch =>
    rw [finishScan, on_bind, bind_assoc, Option.map_some, finishConversion, bind_assoc]
    rw [run_bind, run_bind, run_on]
    cases outcome : fetch.run (argsLeft.view s) with
    | mk result args =>
      cases result with
      | ok part =>
        dsimp only
        rw [on_pure, pure_bind, Found.print]
        rw [run_bind_of_ok (keepBad_run (s := argsLeft.put args s) good)]
      | error stop => rfl

theorem vcbprintfConversion_run (c : Byte) (format : List Byte) (s : Printf σ)
    (good : s.badConversion = false) :
    (vcbprintfConversion callback (c :: format)).run s =
      ((scanConversion (c :: format)).on argsLeft >>= Found.print callback).run s := by
  unfold vcbprintfConversion scanConversion
  dsimp only
  rw [readWidth_eq, on_bind, bind_assoc, run_bind, run_bind, run_on]
  cases outcome : (fetchWidth (readFlags {} (c :: format).tail).2).run (argsLeft.view s) with
  | mk result args =>
    cases result with
    | ok width =>
      dsimp only
      rw [convert_eq]
      exact finishConversion_run c format _ _ _ good
    | error stop => rfl

/-- **An iteration is a step of the scan, and what is found is printed.** -/
theorem vcbprintfStep_run (c : Byte) (format : List Byte) (s : Printf σ) :
    (vcbprintfStep callback (c :: format)).run s =
      ((scanStep s.badConversion (c :: format)).on argsLeft >>= Found.print callback).run s := by
  unfold vcbprintfStep scanStep
  by_cases text : peek (c :: format) ≠ ascii '%'
  · rw [if_pos text, if_pos text, on_pure, pure_bind]
    exact normalPrint_run_scan c format s
  rw [if_neg text, if_neg text]
  by_cases escape : peek (c :: format).tail = ascii '%'
  · rw [if_pos escape, if_pos escape, on_pure, pure_bind]
    cases format with
    | nil => exact absurd escape (show ¬ (0 : Byte) = ascii '%' by decide)
    | cons d format => exact normalPrint_run_scan d format s
  rw [if_neg escape, if_neg escape, run_bind_of_ok (run_get s)]
  cases bad : s.badConversion with
  | true =>
    rw [if_pos rfl, if_pos rfl, on_pure, pure_bind, ← bad]
    exact normalPrint_run_scan c format s
  | false =>
    rw [if_neg Bool.false_ne_true, if_neg Bool.false_ne_true]
    exact vcbprintfConversion_run c format s bad

end Fetching

end Vineyard
