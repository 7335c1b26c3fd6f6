import Vineyard.Machine

/-!
# The heap: chunks and bins

The chunks of `lib/stdlib/dlmalloc.c` and its bins of free chunks: 32 rings of small chunks, 32 tries
of large ones, and a bit for each that says whether it is empty.  The fields of the chunks are maps
from addresses; a bin of small chunks is itself a chunk with the fields `fd` and `bk` only.  A failed
check of a pointer aborts.
-/

namespace Vineyard.Heap

open Function

/-- The fields of the chunks, and `struct malloc_state`. -/
structure Malloc where
  prevFoot : ℕ → ℕ
  head : ℕ → ℕ
  fd : ℕ → ℕ
  bk : ℕ → ℕ
  child : ℕ → Bool → ℕ
  parent : ℕ → ℕ
  index : ℕ → ℕ
  smallmap : ℕ
  treemap : ℕ
  treebins : ℕ → ℕ
  dvsize : ℕ
  topsize : ℕ
  leastAddr : ℕ
  dv : ℕ
  top : ℕ

/-- Where the linker has put `smallbins` and `treebins`. -/
structure Statics where
  smallbins : ℕ
  treebins : ℕ
  treebins_ne : treebins ≠ 0

/-- `ABORT` in a function. -/
def abort {α : Type} (func : String) : Except Fault α :=
  .error (.panic ("dlmalloc:" ++ func ++ " called abort()"))

/-! ## Sizes -/

def minChunkSize : ℕ := 32
def chunkAlignMask : ℕ := 15
def chunkOverhead : ℕ := 8
def pinuseBit : ℕ := 1
def cinuseBit : ℕ := 2
def flagBits : ℕ := 7
def treebinShift : ℕ := 8
def smallbinShift : ℕ := 3
def nsmallbins : ℕ := 32
def ntreebins : ℕ := 32

def isSmall (s : ℕ) : Prop := s >>> smallbinShift < nsmallbins

instance (s : ℕ) : Decidable (isSmall s) := inferInstanceAs (Decidable (_ < _))

def smallIndex (s : ℕ) : ℕ := s >>> smallbinShift % 2 ^ 32

def smallIndex2size (i : ℕ) : ℕ := i <<< smallbinShift

/-- `compute_tree_index`; the shifted size is cut to 32 bits. -/
def computeTreeIndex (s : ℕ) : ℕ :=
  let x := s >>> treebinShift % 2 ^ 32
  if x = 0 then 0
  else if x > 0xFFFF then ntreebins - 1
  else
    let k := Nat.log2 x
    (k <<< 1) + (s >>> (k + (treebinShift - 1)) &&& 1)

def leftshiftForTreeIndex (i : ℕ) : ℕ :=
  if i = ntreebins - 1 then 0 else 63 - ((i >>> 1) + treebinShift - 2)

def idx2bit (i : ℕ) : ℕ := 1 <<< i

namespace Malloc

variable (g : Statics) (func : String) (m : Malloc)

/-- `chunksize`: the head without the flags. -/
def chunksize (p : ℕ) : ℕ := m.head p &&& (2 ^ 64 - 1 - flagBits)

def okAddress (a : ℕ) : Prop := m.leastAddr ≤ a

instance (a : ℕ) : Decidable (m.okAddress a) := inferInstanceAs (Decidable (_ ≤ _))

end Malloc

def smallbinAt (g : Statics) (i : ℕ) : ℕ := g.smallbins + 16 * i

def treebinAt (g : Statics) (i : ℕ) : ℕ := g.treebins + 8 * i

namespace Malloc

variable (m : Malloc)

def setFd (p v : ℕ) : Malloc := { m with fd := update m.fd p v }
def setBk (p v : ℕ) : Malloc := { m with bk := update m.bk p v }
def setParent (p v : ℕ) : Malloc := { m with parent := update m.parent p v }
def setChild (p : ℕ) (b : Bool) (v : ℕ) : Malloc :=
  { m with child := update m.child p (update (m.child p) b v) }
def setIndex (p v : ℕ) : Malloc := { m with index := update m.index p v }
def setTreebin (i v : ℕ) : Malloc := { m with treebins := update m.treebins i v }

attribute [simps fd bk child parent] setFd setBk setParent setChild setIndex

def smallmapIsMarked (i : ℕ) : Prop := m.smallmap &&& idx2bit i ≠ 0
def treemapIsMarked (i : ℕ) : Prop := m.treemap &&& idx2bit i ≠ 0

instance (i : ℕ) : Decidable (m.smallmapIsMarked i) := inferInstanceAs (Decidable (_ ≠ _))
instance (i : ℕ) : Decidable (m.treemapIsMarked i) := inferInstanceAs (Decidable (_ ≠ _))

def markSmallmap (i : ℕ) : Malloc := { m with smallmap := m.smallmap ||| idx2bit i }
def clearSmallmap (i : ℕ) : Malloc := { m with smallmap := m.smallmap &&& (2 ^ 32 - 1 - idx2bit i) }
def markTreemap (i : ℕ) : Malloc := { m with treemap := m.treemap ||| idx2bit i }
def clearTreemap (i : ℕ) : Malloc := { m with treemap := m.treemap &&& (2 ^ 32 - 1 - idx2bit i) }

/-! ## Small chunks -/

variable (g : Statics) (func : String)

def insertSmallChunk (p s : ℕ) : Except Fault Malloc := do
  let i := smallIndex s
  let b := smallbinAt g i
  let (f, m) ←
    if ¬m.smallmapIsMarked i then pure (b, m.markSmallmap i)
    else if m.okAddress (m.fd b) then pure (m.fd b, m)
    else abort func
  pure ((((m.setFd b p).setBk f p).setFd p f).setBk p b)

def unlinkSmallChunk (p s : ℕ) : Except Fault Malloc :=
  let f := m.fd p
  let b := m.bk p
  let i := smallIndex s
  if f = smallbinAt g i ∨ (m.okAddress f ∧ m.bk f = p) then
    if b = f then pure (m.clearSmallmap i)
    else if b = smallbinAt g i ∨ (m.okAddress b ∧ m.fd b = p) then pure ((m.setBk f b).setFd b f)
    else abort func
  else abort func

def unlinkFirstSmallChunk (b p i : ℕ) : Except Fault Malloc :=
  let f := m.fd p
  if b = f then pure (m.clearSmallmap i)
  else if m.okAddress f ∧ m.bk f = p then pure ((m.setBk f b).setFd b f)
  else abort func

/-! ## Large chunks -/

/-- The address of a field `child`. -/
def childAddr (p : ℕ) (b : Bool) : ℕ := p + 32 + if b then 8 else 0

/-- The topmost bit of the shifted size. -/
def topBit (k : ℕ) : Bool := k >>> 63 &&& 1 = 1

/-- The loop of `insert_large_chunk` at the node `t`, for at most `n` rounds. -/
def insertLoop (x s : ℕ) (m : Malloc) : ℕ → ℕ → ℕ → Except Fault Malloc
  | _, _, 0 => .error .endless
  | t, k, n + 1 =>
    if m.chunksize t ≠ s then
      let c := topBit k
      let k := k <<< 1 % 2 ^ 64
      if m.child t c ≠ 0 then insertLoop x s m (m.child t c) k n
      else if m.okAddress (childAddr t c) then
        pure ((((m.setChild t c x).setParent x t).setFd x x).setBk x x)
      else abort func
    else
      let f := m.fd t
      if m.okAddress t ∧ m.okAddress f then
        pure (((((m.setFd t x).setBk f x).setFd x f).setBk x t).setParent x 0)
      else abort func

/-- More rounds than a size has bits. -/
def rounds : ℕ := 66

def insertLargeChunk (x s : ℕ) : Except Fault Malloc :=
  let i := computeTreeIndex s
  let m := ((m.setIndex x i).setChild x false 0).setChild x true 0
  if ¬m.treemapIsMarked i then
    let m := (m.markTreemap i).setTreebin i x
    pure (((m.setParent x (treebinAt g i)).setFd x x).setBk x x)
  else insertLoop func x s m (m.treebins i) (s <<< leftshiftForTreeIndex i % 2 ^ 64) rounds

/-- The loop of `unlink_large_chunk`: `r` and the field that points to it. -/
def descend (m : Malloc) : ℕ → ℕ × Bool → ℕ → Except Fault (ℕ × (ℕ × Bool))
  | _, _, 0 => .error .endless
  | r, rp, n + 1 =>
    if m.child r true ≠ 0 then descend m (m.child r true) (r, true) n
    else if m.child r false ≠ 0 then descend m (m.child r false) (r, false) n
    else pure (r, rp)

/-- The chunk that replaces `x`, taken out of its ring or from below. -/
def takeReplacement (x : ℕ) : Except Fault (ℕ × Malloc) := do
  if m.bk x ≠ x then
    let f := m.fd x
    let r := m.bk x
    if m.okAddress f ∧ m.bk f = x ∧ m.fd r = x then pure (r, (m.setBk f r).setFd r f)
    else abort func
  else
    let side := decide (m.child x true ≠ 0)
    if m.child x side ≠ 0 then
      let (r, rp) ← m.descend (m.child x side) (x, side) rounds
      if m.okAddress (childAddr rp.1 rp.2) then pure (r, m.setChild rp.1 rp.2 0)
      else abort func
    else pure (0, m)

/-- A child of `x` becomes one of `r`. -/
def adoptChild (x r : ℕ) (b : Bool) : Except Fault Malloc :=
  let c := m.child x b
  if c ≠ 0 then
    if m.okAddress c then pure ((m.setChild r b c).setParent c r) else abort func
  else pure m

/-- `r` takes the place of `x` in the bin or below `xp`. -/
def replaceBelow (x r xp : ℕ) : Except Fault Malloc :=
  let i := m.index x
  if x = m.treebins i then
    let m := m.setTreebin i r
    pure (if r = 0 then m.clearTreemap i else m)
  else if m.okAddress xp then
    pure (if m.child xp false = x then m.setChild xp false r else m.setChild xp true r)
  else abort func

/-- `r` gets the parent and the children of `x`. -/
def replaceAbove (x r xp : ℕ) : Except Fault Malloc :=
  if r ≠ 0 then
    if m.okAddress r then do
      let m := m.setParent r xp
      let m ← m.adoptChild func x r false
      m.adoptChild func x r true
    else abort func
  else pure m

def unlinkLargeChunk (x : ℕ) : Except Fault Malloc := do
  let xp := m.parent x
  let (r, m) ← m.takeReplacement func x
  if xp ≠ 0 then
    let m ← m.replaceBelow func x r xp
    m.replaceAbove func x r xp
  else pure m

def insertChunk (p s : ℕ) : Except Fault Malloc :=
  if isSmall s then m.insertSmallChunk g func p s else m.insertLargeChunk g func p s

def unlinkChunk (p s : ℕ) : Except Fault Malloc :=
  if isSmall s then m.unlinkSmallChunk g func p s else m.unlinkLargeChunk func p

end Malloc

end Vineyard.Heap
