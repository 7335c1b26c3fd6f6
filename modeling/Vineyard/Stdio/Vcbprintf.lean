import Mathlib.Algebra.Group.Nat.Defs
import Mathlib.Data.Int.Notation
import Vineyard.Lib.Programs

/-!
# `vcbprintf`

The formatter of `lib/stdio/vcbprintf.c`.  A format is the list of its bytes before the terminator;
the pointer `format` is the list of those that are left.  The output goes to a callback with a context
of any type, which is called once for each chunk and says how much it took.  Every store to the arrays
`prefix` and `buf` is noted; the build checks the index, and a store outside ends in the panic of
`misc/ubsan.c`.  Numbers of the type `size_t` are reduced modulo `2 ^ 64`.
-/

namespace Vineyard

open Programs Programs.Prog

/-- A `char` of the formatter, by its code. -/
abbrev Byte := UInt8

/-- The code of an ASCII character. -/
def ascii (c : Char) : Byte := UInt8.ofNat c.toNat

/-- An argument behind the format. -/
inductive VaArg where
  /-- `int` or `unsigned int` -/
  | int (value : BitVec 32)
  /-- An integer type of 64 bits. -/
  | long (value : BitVec 64)
  | pointer (value : BitVec 64)
  /-- `const char *`, by the bytes before the terminator. -/
  | string (chars : List Byte)
  deriving DecidableEq

/-- What ends the formatter before the end of the format. -/
inductive PrintfStop where
  /-- The callback did not take a whole chunk. -/
  | rejected
  /-- `va_arg` finds no argument of the type. -/
  | argument
  /-- The bounds check of `prefix` or `buf` panics. -/
  | outOfBounds
  | endless
  deriving DecidableEq

/-- An element of a local array that is stored to. -/
inductive ArrayStore where
  | prefixAt (index : ℕ)
  | bufAt (index : ℕ)
  deriving DecidableEq

/-- The element is inside `prefix` or `buf`. -/
def ArrayStore.Inside : ArrayStore → Prop
  | .prefixAt index => index < 3
  | .bufAt index => index < 21

instance (x : ArrayStore) : Decidable x.Inside := by
  cases x <;> unfold ArrayStore.Inside <;> infer_instance

/-- The local variables of `vcbprintf` that live longer than one conversion. -/
structure Printf (σ : Type) where
  ctx : σ
  args : List VaArg
  written : ℕ
  badConversion : Bool
  stores : List ArrayStore

variable {σ : Type}

abbrev PrintfM (σ : Type) := Prog PrintfStop (Printf σ)

/-- A callback takes a chunk and returns how many bytes of it were taken. -/
abbrev PrintfCallback (σ : Type) := σ → List Byte → ℕ × σ

/-- `callback_placeholder` -/
def callbackPlaceholder : PrintfCallback σ := fun ctx chars => (chars.length, ctx)

/-- `callback(ctx, string, length) != length` returns -1. -/
def emit (callback : PrintfCallback σ) (chars : List Byte) : PrintfM σ Unit := do
  let s ← get
  let (taken, ctx) := callback s.ctx chars
  modify fun s => { s with ctx := ctx }
  if taken ≠ chars.length then fail .rejected else return ()

/-- The same chunk several times. -/
def emitTimes (callback : PrintfCallback σ) (chars : List Byte) : ℕ → PrintfM σ Unit
  | 0 => return ()
  | n + 1 => do
    emit callback chars
    emitTimes callback chars n

/-- `written += n` -/
def count (n : ℕ) : PrintfM σ Unit := modify fun s => { s with written := (s.written + n) % 2 ^ 64 }

/-- A store to a local array, if the bounds check lets it through. -/
def store (x : ArrayStore) : PrintfM σ Unit := do
  modify fun s => { s with stores := x :: s.stores }
  if x.Inside then return () else fail .outOfBounds

/-- The next argument. -/
def vaArg : PrintfM σ VaArg := do
  let s ← get
  match s.args with
  | [] => fail .argument
  | a :: rest =>
    modify fun s => { s with args := rest }
    return a

/-- `va_arg(args, int)` -/
def vaInt : PrintfM σ (BitVec 32) := do
  match ← vaArg with
  | .int v => return v
  | _ => fail .argument

/-- `va_arg(args, long)`, and the same for the other types of 64 bits. -/
def vaLong : PrintfM σ (BitVec 64) := do
  match ← vaArg with
  | .long v => return v
  | _ => fail .argument

/-- `va_arg(args, void *)` -/
def vaPointer : PrintfM σ (BitVec 64) := do
  match ← vaArg with
  | .pointer v => return v
  | _ => fail .argument

/-- `va_arg(args, const char *)` -/
def vaString : PrintfM σ (List Byte) := do
  match ← vaArg with
  | .string chars => return chars
  | _ => fail .argument

/-! ## The scanner -/

/-- `*format` -/
def peek (format : List Byte) : Byte := format.headD 0

/-- `normal_print`: one byte and everything before the next `%`. -/
def normalPrint (callback : PrintfCallback σ) (format : List Byte) : PrintfM σ (List Byte) := do
  let block := 1 + (format.tail.takeWhile (· ≠ ascii '%')).length
  emit callback (format.take block)
  count block
  return format.drop block

structure PrintfFlags where
  hash : Bool := false
  minus : Bool := false
  plus : Bool := false
  space : Bool := false
  zero : Bool := false
  deriving DecidableEq

def readFlags (flags : PrintfFlags) : List Byte → PrintfFlags × List Byte
  | [] => (flags, [])
  | c :: format =>
    if c = ascii '#' then readFlags { flags with hash := true } format
    else if c = ascii '-' then readFlags { flags with minus := true } format
    else if c = ascii '+' then readFlags { flags with plus := true } format
    else if c = ascii ' ' then readFlags { flags with space := true } format
    else if c = ascii '0' then readFlags { flags with zero := true } format
    else (flags, c :: format)

def isDigit (c : Byte) : Bool := ascii '0' ≤ c ∧ c ≤ ascii '9'

/-- The loops that read a width or a precision. -/
def readDigits (n : ℕ) : List Byte → ℕ × List Byte
  | [] => (n, [])
  | c :: format =>
    if isDigit c then readDigits ((n * 10 + (c.toNat - (ascii '0').toNat)) % 2 ^ 64) format
    else (n, c :: format)

def readWidth (format : List Byte) : PrintfM σ (ℕ × List Byte) :=
  let digits := readDigits 0 format
  if peek digits.2 = ascii '*' then do
    let w ← vaInt
    return ((w.signExtend 64).toNat, digits.2.tail)
  else return digits

/-- `(size_t) -1` -/
def noPrecision : ℕ := 2 ^ 64 - 1

def readPrecision (format : List Byte) : ℕ × List Byte :=
  if peek format = ascii '.' then readDigits 0 format.tail else (noPrecision, format)

/-- `enum length` -/
inductive PrintfLength where
  | shortShort
  | short
  | default
  | long
  | longLong
  | longDouble
  | intmaxT
  | sizeT
  | ptrdiffT
  deriving DecidableEq

/-- `strncmp`; a string ends with its list. -/
def strncmp (s1 s2 : List Byte) : ℕ → ℤ
  | 0 => 0
  | n + 1 =>
    let u1 := s1.headD 0
    let u2 := s2.headD 0
    if u1 ≠ u2 then (u1.toNat : ℤ) - u2.toNat
    else if u1 = 0 then 0
    else strncmp s1.tail s2.tail n

/-- `length_modifiers` -/
def lengthModifiers : List (List Byte × PrintfLength) :=
  [([ascii 'h', ascii 'h'], .shortShort), ([ascii 'h'], .short), ([], .default),
    ([ascii 'l'], .long), ([ascii 'l', ascii 'l'], .longLong), ([ascii 'L'], .longDouble),
    ([ascii 'j'], .intmaxT), ([ascii 'z'], .sizeT), ([ascii 't'], .ptrdiffT)]

/-- One iteration of the search for the length modifier. -/
def matchLength (format : List Byte) (best : PrintfLength × ℕ) (m : List Byte × PrintfLength) :
    PrintfLength × ℕ :=
  if m.1.length < best.2 then best
  else if strncmp format m.1 m.1.length ≠ 0 then best
  else (m.2, m.1.length)

def readLength (format : List Byte) : PrintfLength × List Byte :=
  let found := lengthModifiers.foldl (matchLength format) (.default, 0)
  (found.1, format.drop found.2)

/-! ## The conversions -/

/-- What the scanner found. -/
structure Directive where
  flags : PrintfFlags
  width : ℕ
  precision : ℕ
  length : PrintfLength
  deriving DecidableEq

/-- The digits of `conv`. -/
def convDigit (specifier : Byte) (d : ℕ) : Byte :=
  if d < 10 then UInt8.ofNat (48 + d)
  else if specifier = ascii 'X' then UInt8.ofNat (55 + d) else UInt8.ofNat (87 + d)

def conversionBase (specifier : Byte) : ℕ :=
  if specifier = ascii 'X' ∨ specifier = ascii 'x' then 16
  else if specifier = ascii 'o' then 8 else 10

/-- `buf_length`, counted from 1; a value of 64 bits is divided at most 64 times. -/
def bufLength (base : ℕ) : ℕ → ℕ → ℕ
  | 0, _ => 1
  | steps + 1, copy => if base ≤ copy then bufLength base steps (copy / base) + 1 else 1

/-- The last `n` digits of `value`, as the loop over `buf` stores them. -/
def bufDigits (specifier : Byte) (base : ℕ) : ℕ → ℕ → List Byte
  | 0, _ => []
  | n + 1, value => bufDigits specifier base n (value / base) ++ [convDigit specifier (value % base)]

/-- The characters before the digits. -/
def prefixChars (flags : PrintfFlags) (specifier : Byte) (negative : Bool) : List Byte :=
  (if negative then [ascii '-']
    else if flags.plus then [ascii '+']
    else if flags.space then [ascii ' '] else []) ++
  (if flags.hash ∧ (specifier = ascii 'x' ∨ specifier = ascii 'X') then [ascii '0', specifier]
    else if flags.hash ∧ specifier = ascii 'o' then [ascii '0'] else [])

/-- The output of an integer, from the prefix on.  Nothing is handed over before all stores are
made. -/
def printInteger (callback : PrintfCallback σ) (d : Directive) (specifier : Byte) (value : ℕ)
    (negative : Bool) : PrintfM σ Unit := do
  let chars := prefixChars d.flags specifier negative
  forEach ((List.range (chars.length + 1)).map .prefixAt) store
  let base := conversionBase specifier
  let length := bufLength base 64 value
  let printedWidth :=
    if d.precision ≠ noPrecision ∧ length < d.precision then d.precision else length
  let needed := (printedWidth + chars.length) % 2 ^ 64
  let pad := if d.width < needed then 0 else d.width - needed
  let digits := bufDigits specifier base length value
  forEach (((List.range length).reverse ++ [length]).map .bufAt) store
  emitTimes callback [ascii ' '] (if d.flags.zero then 0 else pad)
  emit callback chars
  emitTimes callback [ascii '0'] (if d.flags.zero ∧ ¬ d.flags.minus then pad else 0)
  emitTimes callback [ascii '0'] (printedWidth - length)
  emit callback digits
  emitTimes callback [ascii ' '] (if d.flags.minus then pad else 0)
  count length

/-- `signed_value`, for the lengths that `d` and `i` know. -/
def signedArg (length : PrintfLength) : Option (PrintfM σ (BitVec 64)) :=
  match length with
  | .shortShort | .short | .default => some do
    let v ← vaInt
    return v.signExtend 64
  | .long | .longLong | .intmaxT | .sizeT | .ptrdiffT => some vaLong
  | .longDouble => none

/-- `value`, for the lengths that `o`, `u`, `x` and `X` know. -/
def unsignedArg (length : PrintfLength) : Option (PrintfM σ (BitVec 64)) :=
  match length with
  | .shortShort | .short | .default => some do
    let v ← vaInt
    return v.setWidth 64
  | .long | .longLong | .intmaxT | .sizeT | .ptrdiffT => some vaLong
  | .longDouble => none

/-- The conversion that a specifier names; `none` is the jump to `unknown_conversion`. -/
def convert (callback : PrintfCallback σ) (d : Directive) (specifier : Byte) :
    Option (PrintfM σ Unit) :=
  if specifier = ascii '%' then some (emit callback [ascii '%'])
  else if specifier = ascii 's' then some do
    let chars ← vaString
    let len := if d.precision < chars.length then d.precision else chars.length
    emit callback (chars.take len)
    count len
  else if specifier = ascii 'c' then some do
    let v ← vaInt
    emit callback [UInt8.ofBitVec (v.setWidth 8)]
    count 1
  else if specifier = ascii 'p' then some do
    let v ← vaPointer
    printInteger callback d (ascii 'x') v.toNat false
  else if specifier = ascii 'd' ∨ specifier = ascii 'i' then
    (signedArg d.length).map fun arg => do
      let v ← arg
      let negative := v.msb
      printInteger callback d specifier (if negative then (-v).toNat else v.toNat) negative
  else if specifier = ascii 'o' ∨ specifier = ascii 'u' ∨ specifier = ascii 'x' ∨
      specifier = ascii 'X' then
    (unsignedArg d.length).map fun arg => do
      let v ← arg
      printInteger callback d specifier v.toNat false
  else none

/-! ## The loop -/

/-- The conversion found at the start of `rest`, or `unknown_conversion` with `format` at the `%`;
returns what is left of the format. -/
def finishConversion (callback : PrintfCallback σ) (format rest : List Byte) :
    Option (PrintfM σ Unit) → PrintfM σ (List Byte)
  | some conversion => do
    conversion
    return rest.tail
  | none => do
    modify fun s => { s with badConversion := true }
    normalPrint callback format

/-- A `%` that is no escape, with `format` at it. -/
def vcbprintfConversion (callback : PrintfCallback σ) (format : List Byte) :
    PrintfM σ (List Byte) := do
  let flags := readFlags {} format.tail
  let width ← readWidth flags.2
  let precision := readPrecision width.2
  let length := readLength precision.2
  finishConversion callback format length.2
    (convert callback ⟨flags.1, width.1, precision.1, length.1⟩ (peek length.2))

/-- One iteration of the loop over the format; returns what is left of it. -/
def vcbprintfStep (callback : PrintfCallback σ) (format : List Byte) : PrintfM σ (List Byte) :=
  if peek format ≠ ascii '%' then normalPrint callback format
  else if peek format.tail = ascii '%' then normalPrint callback format.tail
  else do
    let s ← get
    if s.badConversion then normalPrint callback format else vcbprintfConversion callback format

/-- The loop over the format, with at most `steps` iterations to go. -/
def vcbprintfLoop (callback : PrintfCallback σ) : ℕ → List Byte → PrintfM σ Unit
  | _, [] => return ()
  | 0, _ :: _ => fail .endless
  | steps + 1, c :: format => do
    let rest ← vcbprintfStep callback (c :: format)
    vcbprintfLoop callback steps rest

/-- The loop; each iteration takes a byte of the format. -/
def vcbprintfAll (callback : PrintfCallback σ) (format : List Byte) : PrintfM σ Unit :=
  vcbprintfLoop callback format.length format

/-- `INT_MAX` -/
def intMax : ℕ := 2 ^ 31 - 1

/-- The state before the loop. -/
def Printf.start (ctx : σ) (args : List VaArg) : Printf σ := ⟨ctx, args, 0, false, []⟩

/-- Returns the value of `vcbprintf` and the context; a null format, or one at the last address, is
`none`, and a null callback as well. -/
def vcbprintf (ctx : σ) (callback : Option (PrintfCallback σ)) (format : Option (List Byte))
    (args : List VaArg) : Except PrintfStop (ℤ × σ) :=
  match format with
  | none => .ok (0, ctx)
  | some format =>
    match (vcbprintfAll (callback.getD callbackPlaceholder) format).run (.start ctx args) with
    | (.ok _, s) => .ok (if intMax < s.written then -1 else s.written, s.ctx)
    | (.error .rejected, s) => .ok (-1, s.ctx)
    | (.error stop, _) => .error stop

end Vineyard
