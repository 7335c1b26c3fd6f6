import Vineyard.Pci.Walk
import Vineyard.Lib.Preorder

/-!
# What the walk over the PCI buses visits

On a tree of bridges the walk ends and hands each function that can be reached to the handler
once: the calls are the preorder listing of the tree.  With several host controllers the test for
a present one is inverted.
-/

namespace Vineyard

open Programs Programs.Prog Preorder

/-! ## The registers of a function -/

/-- The register of `p` at `offset`. -/
def pciRegister (space : PciSpace) (p : PciFunction) (offset : UInt32) : UInt32 :=
  space (pciAddress p.bus.toUInt32 p.device.toUInt32 p.function.toUInt32 offset)

def vendorId (space : PciSpace) (p : PciFunction) : UInt16 :=
  (pciRegister space p 0x00 &&& 0xFFFF).toUInt16

def headerType (space : PciSpace) (p : PciFunction) : UInt8 :=
  ((pciRegister space p 0x0C >>> 16) &&& 0xFF).toUInt8

def classCode (space : PciSpace) (p : PciFunction) : UInt16 :=
  ((pciRegister space p 0x08 >>> 16) &&& 0xFFFF).toUInt16

def secondaryBus (space : PciSpace) (p : PciFunction) : UInt8 :=
  ((pciRegister space p 0x18 >>> 8) &&& 0xFF).toUInt8

theorem pciConfigVendor_eq (space : PciSpace) (bus device function : UInt8) :
    pciConfigVendor space bus device function = pure (vendorId space ⟨bus, device, function⟩) := rfl

theorem pciConfigHeaderType_eq (space : PciSpace) (bus device function : UInt8) :
    pciConfigHeaderType space bus device function =
      pure (headerType space ⟨bus, device, function⟩) := rfl

theorem pciConfigClass_eq (space : PciSpace) (bus device function : UInt8) :
    pciConfigClass space bus device function = pure (classCode space ⟨bus, device, function⟩) := rfl

theorem pciConfigSecondaryBus_eq (space : PciSpace) (bus device function : UInt8) :
    pciConfigSecondaryBus space bus device function =
      pure (secondaryBus space ⟨bus, device, function⟩) := rfl

/-- The vendor of the function is not the value of an empty slot. -/
def Present (space : PciSpace) (p : PciFunction) : Prop := vendorId space p ≠ 0xFFFF

instance (space : PciSpace) (p : PciFunction) : Decidable (Present space p) :=
  inferInstanceAs (Decidable (_ ≠ _))

/-- A PCI-to-PCI bridge. -/
def IsBridge (space : PciSpace) (p : PciFunction) : Prop := classCode space p = 0x0604

instance (space : PciSpace) (p : PciFunction) : Decidable (IsBridge space p) :=
  inferInstanceAs (Decidable (_ = _))

/-- Bit 7 of the header type of function 0. -/
def MultiFunction (space : PciSpace) (bus device : UInt8) : Prop :=
  headerType space ⟨bus, device, 0⟩ &&& 0x80 ≠ 0

instance (space : PciSpace) (bus device : UInt8) : Decidable (MultiFunction space bus device) :=
  inferInstanceAs (Decidable (_ ≠ _))

/-- A function that the walk of its bus comes to. -/
structure Enumerable (space : PciSpace) (p : PciFunction) : Prop where
  device_lt : p.device < 32
  function_lt : p.function < 8
  device_present : Present space ⟨p.bus, p.device, 0⟩
  present : Present space p
  single_or_multi : p.function = 0 ∨ MultiFunction space p.bus p.device

/-- The functions on bus 0 and on the secondary buses of the bridges visited. -/
inductive Visited (space : PciSpace) : PciFunction → Prop where
  | root {p : PciFunction} (bus : p.bus = 0) (listed : Enumerable space p) : Visited space p
  | behind {q p : PciFunction} (visited : Visited space q) (bridge : IsBridge space q)
      (bus : p.bus = secondaryBus space q) (listed : Enumerable space p) : Visited space p

/-- The bridges make a tree that goes up in bus numbers from the one host controller. -/
structure TreeTopology (space : PciSpace) : Prop where
  single : ¬ MultiFunction space 0 0
  upward : ∀ p : PciFunction, p.device < 32 → p.function < 8 → Present space p →
    IsBridge space p → secondaryBus space p = 0 ∨ p.bus < secondaryBus space p
  distinct : ∀ p q : PciFunction, p.device < 32 → p.function < 8 → Present space p →
    IsBridge space p → q.device < 32 → q.function < 8 → Present space q → IsBridge space q →
    secondaryBus space p = secondaryBus space q → secondaryBus space p ≠ 0 → p = q

/-! ## The walk as a listing -/

/-- The functions of a device in the order of the walk. -/
def deviceFunctions (space : PciSpace) (bus device : UInt8) : List PciFunction :=
  if vendorId space ⟨bus, device, 0⟩ = 0xFFFF then []
  else if MultiFunction space bus device then
    (uint8Range 8).flatMap fun function =>
      if vendorId space ⟨bus, device, function⟩ = 0xFFFF then [] else [⟨bus, device, function⟩]
  else [⟨bus, device, 0⟩]

/-- The functions of a bus in the order of the walk. -/
def busFunctions (space : PciSpace) (bus : UInt8) : List PciFunction :=
  (uint8Range 32).flatMap (deviceFunctions space bus)

/-- The bus that the walk goes on to from a function. -/
def busBelow (space : PciSpace) (p : PciFunction) : Option UInt8 :=
  if IsBridge space p ∧ secondaryBus space p ≠ 0 then some (secondaryBus space p) else none

theorem mem_uint8Range {n : ℕ} (small : n < 256) {k : UInt8} :
    k ∈ uint8Range n ↔ k < UInt8.ofNat n := by
  rw [uint8Range, List.mem_map, UInt8.lt_iff_toNat_lt, UInt8.toNat_ofNat_of_lt' small]
  constructor
  · rintro ⟨i, mem, rfl⟩
    have bound := List.mem_range.mp mem
    rwa [UInt8.toNat_ofNat_of_lt' (bound.trans small)]
  · intro bound
    exact ⟨k.toNat, List.mem_range.mpr bound, UInt8.ofNat_toNat⟩

theorem nodup_uint8Range {n : ℕ} (small : n ≤ 256) : (uint8Range n).Nodup := by
  refine List.Nodup.map_on ?_ List.nodup_range
  intro i memi j memj same
  have left := List.mem_range.mp memi
  have right := List.mem_range.mp memj
  have := congrArg UInt8.toNat same
  rwa [UInt8.toNat_ofNat_of_lt' (left.trans_le small),
    UInt8.toNat_ofNat_of_lt' (right.trans_le small)] at this

theorem mem_deviceFunctions {space : PciSpace} {bus device : UInt8} (bound : device < 32)
    {p : PciFunction} :
    p ∈ deviceFunctions space bus device ↔
      p.bus = bus ∧ p.device = device ∧ Enumerable space p := by
  rcases p with ⟨b, d, f⟩
  have small : ∀ k : UInt8, k ∈ uint8Range 8 ↔ k < 8 := fun k => mem_uint8Range (by decide)
  unfold deviceFunctions
  constructor
  · intro mem
    split at mem
    · simp at mem
    · rename_i here
      split at mem
      · rename_i multi
        rcases List.mem_flatMap.mp mem with ⟨function, range, mem⟩
        split at mem
        · simp at mem
        · rename_i present
          rcases List.mem_singleton.mp mem with ⟨rfl, rfl, rfl⟩
          exact ⟨rfl, rfl, bound, (small _).mp range, here, present, .inr multi⟩
      · rcases List.mem_singleton.mp mem with ⟨rfl, rfl, rfl⟩
        exact ⟨rfl, rfl, bound, (by decide : (0 : UInt8) < 8), here, here, .inl rfl⟩
  · rintro ⟨rfl, rfl, listed⟩
    rw [if_neg listed.device_present]
    split
    · refine List.mem_flatMap.mpr ⟨f, (small f).mpr listed.function_lt, ?_⟩
      rw [if_neg listed.present]
      exact List.mem_singleton_self _
    · rename_i multi
      rcases listed.single_or_multi with rfl | multi'
      · exact List.mem_singleton_self _
      · exact absurd multi' multi

theorem mem_busFunctions {space : PciSpace} {bus : UInt8} {p : PciFunction} :
    p ∈ busFunctions space bus ↔ p.bus = bus ∧ Enumerable space p := by
  have small : ∀ k : UInt8, k ∈ uint8Range 32 ↔ k < 32 := fun k => mem_uint8Range (by decide)
  rw [busFunctions, List.mem_flatMap]
  constructor
  · rintro ⟨device, range, mem⟩
    have here := (mem_deviceFunctions ((small device).mp range)).mp mem
    exact ⟨here.1, here.2.2⟩
  · rintro ⟨same, listed⟩
    exact ⟨p.device, (small _).mpr listed.device_lt,
      (mem_deviceFunctions listed.device_lt).mpr ⟨same, rfl, listed⟩⟩

theorem nodup_deviceFunctions (space : PciSpace) (bus device : UInt8) :
    (deviceFunctions space bus device).Nodup := by
  unfold deviceFunctions
  split
  · exact List.nodup_nil
  · split
    · refine List.nodup_flatMap.mpr ⟨fun function _ => ?_, ?_⟩
      · split
        · exact List.nodup_nil
        · exact List.nodup_singleton _
      · refine (nodup_uint8Range (by decide)).imp ?_
        intro f g different p left right
        dsimp only at left right
        split at left
        · simp at left
        · split at right
          · simp at right
          · have same := (List.mem_singleton.mp left).symm.trans (List.mem_singleton.mp right)
            exact different (congrArg PciFunction.function same)
    · exact List.nodup_singleton _

theorem nodup_busFunctions (space : PciSpace) (bus : UInt8) : (busFunctions space bus).Nodup := by
  have small : ∀ k : UInt8, k ∈ uint8Range 32 ↔ k < 32 := fun k => mem_uint8Range (by decide)
  refine List.nodup_flatMap.mpr ⟨fun device _ => nodup_deviceFunctions space bus device, ?_⟩
  refine (nodup_uint8Range (by decide)).imp_of_mem ?_
  intro d e memd meme different p left right
  have here := (mem_deviceFunctions ((small d).mp memd)).mp left
  have there := (mem_deviceFunctions ((small e).mp meme)).mp right
  exact different (here.2.1.symm.trans there.2.1)

theorem busBelow_eq_some {space : PciSpace} {p : PciFunction} {c : UInt8} :
    busBelow space p = some c ↔
      IsBridge space p ∧ secondaryBus space p ≠ 0 ∧ secondaryBus space p = c := by
  unfold busBelow
  split
  · rename_i leads
    simp [leads.1, leads.2]
  · rename_i leads
    simp only [reduceCtorEq, false_iff]
    rintro ⟨bridge, nonzero, _⟩
    exact leads ⟨bridge, nonzero⟩

/-- The functions of a tree topology are a forest over the buses. -/
theorem TreeTopology.forest {space : PciSpace} (tree : TreeTopology space) :
    Forest (busFunctions space) (busBelow space) PciFunction.bus fun bus => 255 - bus.toNat where
  nodup := nodup_busFunctions space
  home_eq mem := (mem_busFunctions.mp mem).1
  lower := by
    intro bus p c mem leads
    rcases mem_busFunctions.mp mem with ⟨rfl, listed⟩
    rcases busBelow_eq_some.mp leads with ⟨bridge, nonzero, rfl⟩
    rcases tree.upward p listed.device_lt listed.function_lt listed.present bridge with zero | up
    · exact absurd zero nonzero
    · have bound := (secondaryBus space p).toNat_lt
      have := UInt8.lt_iff_toNat_lt.mp up
      omega
  unique := by
    intro a b p q c memp memq leadsp leadsq
    have listedp := (mem_busFunctions.mp memp).2
    have listedq := (mem_busFunctions.mp memq).2
    rcases busBelow_eq_some.mp leadsp with ⟨bridgep, nonzero, samep⟩
    rcases busBelow_eq_some.mp leadsq with ⟨bridgeq, _, sameq⟩
    exact tree.distinct p q listedp.device_lt listedp.function_lt listedp.present bridgep
      listedq.device_lt listedq.function_lt listedq.present bridgeq (samep.trans sameq.symm) nonzero

/-- A bus that is 0 or lies behind a visited bridge. -/
def Opened (space : PciSpace) (bus : UInt8) : Prop :=
  bus = 0 ∨ ∃ q, Visited space q ∧ IsBridge space q ∧ bus = secondaryBus space q

theorem visited_of_mem {space : PciSpace} {bus : UInt8} {p : PciFunction} (opened : Opened space bus)
    (mem : p ∈ busFunctions space bus) : Visited space p := by
  rcases mem_busFunctions.mp mem with ⟨rfl, listed⟩
  rcases opened with zero | ⟨q, visited, bridge, same⟩
  · exact .root zero listed
  · exact .behind visited bridge same listed

theorem visited_of_under {space : PciSpace} {bus : UInt8} {p : PciFunction}
    (under : Under (busFunctions space) (busBelow space) bus p) (opened : Opened space bus) :
    Visited space p := by
  induction under with
  | here mem => exact visited_of_mem opened mem
  | deeper mem leads _ ih =>
    rcases busBelow_eq_some.mp leads with ⟨bridge, _, same⟩
    exact ih (.inr ⟨_, visited_of_mem opened mem, bridge, same.symm⟩)

theorem under_iff_visited {space : PciSpace} {p : PciFunction} :
    Under (busFunctions space) (busBelow space) 0 p ↔ Visited space p := by
  constructor
  · intro under
    exact visited_of_under under (.inl rfl)
  · intro visited
    induction visited with
    | root bus listed => exact .here (mem_busFunctions.mpr ⟨bus, listed⟩)
    | @behind q p _ bridge bus listed ih =>
      by_cases zero : secondaryBus space q = 0
      · exact .here (mem_busFunctions.mpr ⟨bus.trans zero, listed⟩)
      · exact ih.extend (busBelow_eq_some.mpr ⟨bridge, zero, rfl⟩)
          (mem_busFunctions.mpr ⟨bus, listed⟩)

/-! ## The calls of the walk -/

/-- The program returns, and its calls of the handler are `l`. -/
def Visits (m : PciM Unit) (l : List PciFunction) : Prop :=
  ∀ walk, m.run walk = (.ok (), { walk with calls := walk.calls ++ l })

theorem Visits.nothing : Visits (pure ()) [] := by
  intro walk
  simp

theorem Visits.bind {m n : PciM Unit} {l k : List PciFunction} (first : Visits m l)
    (second : Visits n k) : Visits (m >>= fun _ => n) (l ++ k) := by
  intro walk
  rw [run_bind_of_ok (first walk), second, List.append_assoc]

theorem Visits.forEach {α : Type} {l : List α} {m : α → PciM Unit} {calls : α → List PciFunction}
    (each : ∀ a ∈ l, Visits (m a) (calls a)) : Visits (Prog.forEach l m) (l.flatMap calls) := by
  induction l with
  | nil => exact .nothing
  | cons a rest ih =>
    rw [forEach_cons, List.flatMap_cons]
    exact (each a List.mem_cons_self).bind (ih fun b mem => each b (List.mem_cons_of_mem a mem))

theorem Visits.call {handler : PciHandler} (always : ∀ calls p, handler calls p = true)
    (bus device function : UInt8) {rest : Bool → PciM Unit} {l : List PciFunction}
    (after : Visits (rest true) l) :
    Visits (callHandler handler bus device function >>= rest) (⟨bus, device, function⟩ :: l) := by
  intro walk
  have called : (callHandler handler bus device function).run walk =
      (.ok true, { walk with calls := walk.calls ++ [⟨bus, device, function⟩] }) :=
    congrArg (fun b => (Except.ok b, _)) (always _ _)
  rw [run_bind_of_ok called, after, List.append_assoc]
  rfl

section Walks

variable {space : PciSpace} {handler : PciHandler} {walkBus : UInt8 → PciM Unit}
  {listed : UInt8 → List PciFunction}

/-- The step to the bus behind a function. -/
theorem Visits.behind {p : PciFunction}
    (walks : ∀ c, busBelow space p = some c → Visits (walkBus c) (listed c)) :
    Visits (if classCode space p = 0x0604 then
        if secondaryBus space p ≠ 0 then walkBus (secondaryBus space p) else pure ()
      else pure ()) ((busBelow space p).elim [] listed) := by
  cases leads : busBelow space p with
  | some c =>
    rcases busBelow_eq_some.mp leads with ⟨bridge, nonzero, rfl⟩
    rw [if_pos (show classCode space p = 0x0604 from bridge), if_pos nonzero]
    exact walks _ leads
  | none =>
    have stays : ¬ (IsBridge space p ∧ secondaryBus space p ≠ 0) := by
      rintro ⟨bridge, nonzero⟩
      rw [busBelow_eq_some.mpr ⟨bridge, nonzero, rfl⟩] at leads
      cases leads
    by_cases bridge : classCode space p = 0x0604
    · rw [if_pos bridge, if_neg fun nonzero => stays ⟨bridge, nonzero⟩]
      exact .nothing
    · rw [if_neg bridge]
      exact .nothing

theorem pciWalkDevice_visits (always : ∀ calls p, handler calls p = true) {bus device : UInt8}
    (walks : ∀ function c, Present space ⟨bus, device, function⟩ → function ∈ uint8Range 8 →
      busBelow space ⟨bus, device, function⟩ = some c → Visits (walkBus c) (listed c)) :
    Visits (pciWalkDevice space handler walkBus bus device)
      (((uint8Range 8).flatMap fun function =>
        if vendorId space ⟨bus, device, function⟩ = 0xFFFF then [] else
          [⟨bus, device, function⟩]).flatMap
          fun p => p :: (busBelow space p).elim [] listed) := by
  rw [List.flatMap_assoc]
  refine Visits.forEach fun function range => ?_
  rw [pciConfigVendor_eq, pure_bind]
  by_cases absent : vendorId space ⟨bus, device, function⟩ = 0xFFFF
  · rw [if_pos absent, if_pos absent]
    exact .nothing
  · rw [if_neg absent, if_neg absent, List.flatMap_singleton]
    refine Visits.call always bus device function ?_
    rw [pciConfigClass_eq, pure_bind]
    exact Visits.behind fun c leads => walks function c absent range leads

theorem pciWalkDevicesFrom_visits (always : ∀ calls p, handler calls p = true) {bus : UInt8}
    {devices : List UInt8}
    (walks : ∀ p c, p ∈ devices.flatMap (deviceFunctions space bus) → busBelow space p = some c →
      Visits (walkBus c) (listed c)) :
    Visits (pciWalkDevicesFrom space handler walkBus bus devices)
      ((devices.flatMap (deviceFunctions space bus)).flatMap
        fun p => p :: (busBelow space p).elim [] listed) := by
  induction devices with
  | nil => exact .nothing
  | cons device rest ih =>
    have later := ih fun p c mem => walks p c (by
      rw [List.flatMap_cons]
      exact List.mem_append_right _ mem)
    have now : ∀ p c, p ∈ deviceFunctions space bus device → busBelow space p = some c →
        Visits (walkBus c) (listed c) := fun p c mem => walks p c (by
      rw [List.flatMap_cons]
      exact List.mem_append_left _ mem)
    unfold pciWalkDevicesFrom
    rw [List.flatMap_cons, List.flatMap_append, pciConfigVendor_eq, pure_bind]
    unfold deviceFunctions at now ⊢
    by_cases absent : vendorId space ⟨bus, device, 0⟩ = 0xFFFF
    · rw [if_pos absent, if_pos absent]
      exact later
    · rw [if_neg absent] at now ⊢
      rw [if_neg absent, pciConfigHeaderType_eq, pure_bind]
      by_cases multi : MultiFunction space bus device
      · have bit : headerType space ⟨bus, device, 0⟩ &&& 0x80 ≠ 0 := multi
        rw [if_pos multi] at now ⊢
        rw [if_pos bit]
        refine Visits.bind (pciWalkDevice_visits always fun function c present range leads =>
          ?_) later
        refine now _ c (List.mem_flatMap.mpr ⟨function, range, ?_⟩) leads
        rw [if_neg present]
        exact List.mem_singleton_self _
      · have bit : ¬ (headerType space ⟨bus, device, 0⟩ &&& 0x80 ≠ 0) := multi
        rw [if_neg multi] at now ⊢
        rw [if_neg bit, pciConfigClass_eq, pure_bind, pciConfigSecondaryBus_eq, pure_bind,
          List.flatMap_singleton]
        refine Visits.call always bus device 0 (Visits.bind (Visits.behind fun c leads => ?_) later)
        exact now _ c (List.mem_singleton_self _) leads

end Walks

/-- On a tree the walk of a bus is the preorder listing of what lies under it. -/
theorem pciWalkBus_visits {space : PciSpace} {handler : PciHandler} (tree : TreeTopology space)
    (always : ∀ calls p, handler calls p = true) {depth : ℕ} {bus : UInt8}
    (deep : 255 - bus.toNat < depth) :
    Visits (pciWalkBus space handler depth bus)
      (preorder (busFunctions space) (busBelow space) depth bus) := by
  induction depth generalizing bus with
  | zero => omega
  | succ depth ih =>
    refine pciWalkDevicesFrom_visits always fun p c mem leads => ih ?_
    have lower := tree.forest.lower mem leads
    omega

/-- On a tree topology the walk ends and hands each function to be visited to the handler once, and
nothing else. -/
theorem pciWalkDevices_tree (space : PciSpace) (handler : PciHandler) (tree : TreeTopology space)
    (always : ∀ calls p, handler calls p = true) (depth : ℕ) (deep : 256 ≤ depth) :
    ∃ walk, (pciWalkDevices space handler depth).run .start = (.ok (), walk) ∧
      walk.calls.Nodup ∧ ∀ p, p ∈ walk.calls ↔ Visited space p := by
  have rank : 255 - (0 : UInt8).toNat < depth := by
    show 255 - 0 < depth
    omega
  refine ⟨⟨preorder (busFunctions space) (busBelow space) depth 0, [0]⟩, ?_, ?_, fun p => ?_⟩
  · have single : ¬ (headerType space ⟨0, 0, 0⟩ &&& 0x80 ≠ 0) := tree.single
    rw [pciWalkDevices, pciConfigHeaderType_eq, pure_bind, if_neg single, pciWalkRoot]
    exact (run_bind_of_ok (run_modify _ _)).trans (pciWalkBus_visits tree always rank _)
  · exact nodup_preorder tree.forest rank
  · exact (mem_preorder tree.forest rank).trans under_iff_visited

/-! ## A configuration space given by its registers -/

/-- The registers in the table; every other one reads as ones. -/
def pciTable (table : List (PciFunction × UInt32 × UInt32)) : PciSpace := fun address =>
  match table.find? fun ⟨p, offset, _⟩ =>
      pciAddress p.bus.toUInt32 p.device.toUInt32 p.function.toUInt32 offset = address with
  | some (_, _, value) => value
  | none => 0xFFFFFFFF

/-- A host controller, a bridge to bus 1 and a device with two functions there. -/
def bridgedRegisters : List (PciFunction × UInt32 × UInt32) :=
  [(⟨0, 0, 0⟩, 0x00, 0x29C08086), (⟨0, 0, 0⟩, 0x08, 0x06000000), (⟨0, 0, 0⟩, 0x0C, 0),
   (⟨0, 1, 0⟩, 0x00, 0x000C1B36), (⟨0, 1, 0⟩, 0x08, 0x06040000), (⟨0, 1, 0⟩, 0x0C, 0x00010000),
   (⟨0, 1, 0⟩, 0x18, 0x00000100),
   (⟨1, 2, 0⟩, 0x00, 0x00101B36), (⟨1, 2, 0⟩, 0x08, 0x01080200), (⟨1, 2, 0⟩, 0x0C, 0x00800000),
   (⟨1, 2, 5⟩, 0x00, 0x00101B36), (⟨1, 2, 5⟩, 0x08, 0x01080200)]

/-- The only bridge in the table. -/
theorem bridgedRegisters_bridge (p : PciFunction) (d : p.device < 32) (f : p.function < 8)
    (bridge : IsBridge (pciTable bridgedRegisters) p) : p = ⟨0, 1, 0⟩ := by
  unfold IsBridge classCode pciRegister pciTable at bridge
  split at bridge
  · rename_i q offset value found
    have same := List.find?_some found
    have mem := List.mem_of_find?_eq_some found
    have entry : ∀ e ∈ bridgedRegisters, ((e.2.2 >>> 16) &&& 0xFFFF).toUInt16 = 0x0604 →
        e.1 = ⟨0, 1, 0⟩ ∧ e.2.1 = 0x08 := by decide
    rcases entry _ mem bridge with ⟨rfl, rfl⟩
    exact (pciAddress_inj (by decide) (by decide) d f (by decide) (of_decide_eq_true same)).symm
  · exact absurd bridge (by decide)

theorem bridgedRegisters_tree : TreeTopology (pciTable bridgedRegisters) where
  single := by decide
  upward := by
    intro p d f _ bridge
    rw [bridgedRegisters_bridge p d f bridge]
    exact .inr (by decide)
  distinct := by
    intro p q d f _ bridge d' f' _ bridge' _ _
    exact (bridgedRegisters_bridge p d f bridge).trans (bridgedRegisters_bridge q d' f' bridge').symm

theorem pciWalkDevices_bridged :
    ∃ walk, (pciWalkDevices (pciTable bridgedRegisters) (fun _ _ => true) 256).run .start =
      (.ok (), walk) ∧ walk.calls.Nodup ∧
      ∀ p, p ∈ walk.calls ↔ Visited (pciTable bridgedRegisters) p :=
  pciWalkDevices_tree (pciTable bridgedRegisters) (fun _ _ => true) bridgedRegisters_tree
    (fun _ _ => rfl) 256 le_rfl

/-! ## Several host controllers -/

section Roots

variable {space : PciSpace} {handler : PciHandler} {roots : List UInt8}

theorem callHandler_roots (bus device function : UInt8) :
    Keeps (fun walk => walk.roots = roots) (callHandler handler bus device function) := by
  constructor
  intro walk same
  exact same

theorem behind_roots {walkBus : UInt8 → PciM Unit}
    (walks : ∀ bus, Keeps (fun walk => walk.roots = roots) (walkBus bus)) (p : PciFunction) :
    Keeps (fun walk => walk.roots = roots) (if classCode space p = 0x0604 then
        if secondaryBus space p ≠ 0 then walkBus (secondaryBus space p) else pure ()
      else pure ()) := by
  refine Triple.ite (fun _ => Triple.ite (fun _ => walks _) fun _ => ?_) fun _ => ?_
  · exact Triple.pure fun _ same => same
  · exact Triple.pure fun _ same => same

theorem pciWalkDevice_roots {walkBus : UInt8 → PciM Unit}
    (walks : ∀ bus, Keeps (fun walk => walk.roots = roots) (walkBus bus)) (bus device : UInt8) :
    Keeps (fun walk => walk.roots = roots) (pciWalkDevice space handler walkBus bus device) := by
  refine Keeps.forEach fun function _ => ?_
  rw [pciConfigVendor_eq, pure_bind]
  refine Triple.ite (fun _ => Triple.pure fun _ same => same) fun _ => ?_
  refine Keeps.bind (callHandler_roots bus device function) fun _ => ?_
  rw [pciConfigClass_eq, pure_bind]
  exact behind_roots walks ⟨bus, device, function⟩

theorem pciWalkDevicesFrom_roots {walkBus : UInt8 → PciM Unit}
    (walks : ∀ bus, Keeps (fun walk => walk.roots = roots) (walkBus bus)) (bus : UInt8)
    (devices : List UInt8) :
    Keeps (fun walk => walk.roots = roots)
      (pciWalkDevicesFrom space handler walkBus bus devices) := by
  induction devices with
  | nil => exact Triple.pure fun _ same => same
  | cons device rest ih =>
    unfold pciWalkDevicesFrom
    rw [pciConfigVendor_eq, pure_bind]
    refine Triple.ite (fun _ => ih) fun _ => ?_
    rw [pciConfigHeaderType_eq, pure_bind]
    refine Triple.ite (fun _ => Keeps.bind (pciWalkDevice_roots walks bus device) fun _ =>
      ih) fun _ => ?_
    rw [pciConfigClass_eq, pure_bind, pciConfigSecondaryBus_eq, pure_bind]
    refine Keeps.bind (callHandler_roots bus device 0) fun _ => ?_
    refine Triple.ite (fun _ => Triple.pure fun _ same => same) fun _ => ?_
    exact Keeps.bind (behind_roots walks ⟨bus, device, 0⟩) fun _ => ih

/-- Only `pci_walk_devices` itself adds to the roots. -/
theorem pciWalkBus_roots (depth : ℕ) (bus : UInt8) :
    Keeps (fun walk => walk.roots = roots) (pciWalkBus space handler depth bus) := by
  induction depth generalizing bus with
  | zero => exact Triple.fail fun _ same => same
  | succ depth ih => exact pciWalkDevicesFrom_roots ih bus (uint8Range 32)

end Roots

/-- The functions of device 0:0 in `l` that are not there. -/
def absentHosts (space : PciSpace) (l : List UInt8) : List UInt8 :=
  l.filter fun function => ¬ Present space ⟨0, 0, function⟩

/-- The buses walked are those of the absent functions; a walk that does not return ends the list. -/
theorem hostLoop_roots (space : PciSpace) (handler : PciHandler) (depth : ℕ) (l : List UInt8)
    (walk : PciWalk) :
    match (forEach l fun function => do
        if (← pciConfigVendor space 0 0 function) ≠ 0xFFFF then pure ()
        else pciWalkRoot space handler depth function).run walk with
    | (.ok _, after) => after.roots = walk.roots ++ absentHosts space l
    | (.error _, after) => ∃ first rest, absentHosts space l = first ++ rest ∧ first ≠ [] ∧
        after.roots = walk.roots ++ first := by
  induction l generalizing walk with
  | nil => exact (List.append_nil _).symm
  | cons function rest ih =>
    rw [forEach_cons, pciConfigVendor_eq, pure_bind]
    by_cases present : Present space ⟨0, 0, function⟩
    · have skipped : absentHosts space (function :: rest) = absentHosts space rest := by
        simp [absentHosts, present]
      rw [if_pos (show vendorId space ⟨0, 0, function⟩ ≠ 0xFFFF from present), pure_bind, skipped]
      exact ih walk
    · have added : absentHosts space (function :: rest) = function :: absentHosts space rest := by
        simp [absentHosts, present]
      rw [if_neg (show ¬ vendorId space ⟨0, 0, function⟩ ≠ 0xFFFF from present), added]
      have kept := (@pciWalkBus_roots space handler (walk.roots ++ [function]) depth function).ends
        { walk with roots := walk.roots ++ [function] } rfl
      rw [run_bind, pciWalkRoot, run_bind_of_ok (run_modify _ _)]
      cases outcome : (pciWalkBus space handler depth function).run
          { walk with roots := walk.roots ++ [function] } with
      | mk result after =>
        rw [outcome] at kept
        cases result with
        | error fault => exact ⟨[function], absentHosts space rest, rfl, List.cons_ne_nil _ _, kept⟩
        | ok _ =>
          have later := ih after
          rw [kept] at later
          dsimp only at later ⊢
          split at later
          · rename_i equation
            rw [equation]
            dsimp only
            rw [later, List.append_assoc]
            rfl
          · rename_i equation
            rcases later with ⟨first, last, split, _, roots⟩
            rw [equation]
            refine ⟨function :: first, last, ?_, List.cons_ne_nil _ _, ?_⟩
            · rw [split]
              rfl
            · rw [roots, List.append_assoc]
              rfl

/-- The buses of the present host controllers are walked and no others, so that every present device
there is handed to the handler. -/
structure HostsWalked (space : PciSpace) (walk : PciWalk) : Prop where
  roots : ∀ function : UInt8, function < 8 →
    (function ∈ walk.roots ↔ Present space ⟨0, 0, function⟩)
  handed : ∀ function : UInt8, function < 8 → Present space ⟨0, 0, function⟩ →
    ∀ device : UInt8, device < 32 → Present space ⟨function, device, 0⟩ →
      ⟨function, device, 0⟩ ∈ walk.calls

/-- With several host controllers the walk is never that of the present ones, whatever the handler. -/
theorem pciWalkDevices_not_hosts (space : PciSpace) (handler : PciHandler)
    (multi : MultiFunction space 0 0) (depth : ℕ) :
    ¬ HostsWalked space ((pciWalkDevices space handler depth).run .start).2 := by
  intro hosts
  have bit : headerType space ⟨0, 0, 0⟩ &&& 0x80 ≠ 0 := multi
  rw [pciWalkDevices, pciConfigHeaderType_eq, pure_bind, if_pos bit] at hosts
  have loop := hostLoop_roots space handler depth (uint8Range 8) .start
  -- the bus of an absent function is walked
  have wrong : ∀ function ∈ absentHosts space (uint8Range 8), ∀ walk : PciWalk,
      function ∈ walk.roots → ¬ HostsWalked space walk := by
    intro function mem walk root hosts
    rcases List.mem_filter.mp mem with ⟨range, absent⟩
    have bound : function < 8 := (mem_uint8Range (by decide)).mp range
    exact (of_decide_eq_true absent) ((hosts.roots function bound).mp root)
  split at loop
  · rename_i equation
    rw [equation] at hosts
    by_cases present : Present space ⟨0, 0, 0⟩
    · -- function 0 is present, and its bus is not walked
      have root := (hosts.roots 0 (by decide)).mpr present
      rw [loop] at root
      have absent := (List.mem_filter.mp root).2
      exact (of_decide_eq_true absent) present
    · have mem : 0 ∈ absentHosts space (uint8Range 8) :=
        List.mem_filter.mpr ⟨by decide, decide_eq_true present⟩
      exact wrong 0 mem _ (loop ▸ mem) hosts
  · rename_i equation
    rw [equation] at hosts
    rcases loop with ⟨first, rest, split, nonempty, roots⟩
    rcases List.exists_mem_of_ne_nil first nonempty with ⟨function, mem⟩
    refine wrong function (split ▸ List.mem_append_left rest mem) _ ?_ hosts
    rw [roots]
    exact mem

/-- One present host controller among eight functions, and a device on its bus. -/
def hostRegisters : List (PciFunction × UInt32 × UInt32) :=
  [(⟨0, 0, 0⟩, 0x00, 0x29C08086), (⟨0, 0, 0⟩, 0x08, 0x06000000), (⟨0, 0, 0⟩, 0x0C, 0x00800000),
   (⟨0, 1, 0⟩, 0x00, 0x00101B36), (⟨0, 1, 0⟩, 0x08, 0x01080200), (⟨0, 1, 0⟩, 0x0C, 0)]

/-- The buses of the seven absent controllers are walked, and nothing is handed to the handler. -/
theorem not_hostsWalked_single :
    MultiFunction (pciTable hostRegisters) 0 0 ∧
      (pciWalkDevices (pciTable hostRegisters) (fun _ _ => true) 256).run .start =
        (.ok (), ⟨[], [1, 2, 3, 4, 5, 6, 7]⟩) ∧
      ¬ HostsWalked (pciTable hostRegisters)
        ((pciWalkDevices (pciTable hostRegisters) (fun _ _ => true) 256).run .start).2 := by
  have outcome : (pciWalkDevices (pciTable hostRegisters) (fun _ _ => true) 256).run .start =
      (.ok (), ⟨[], [1, 2, 3, 4, 5, 6, 7]⟩) := by decide +kernel
  refine ⟨by decide, outcome, fun hosts => ?_⟩
  rw [outcome] at hosts
  have handed := hosts.handed 0 (by decide) (by decide) 1 (by decide) (by decide)
  exact absurd handed List.not_mem_nil

theorem pciWalkDevices_not_hosts_single :
    ¬ HostsWalked (pciTable hostRegisters)
      ((pciWalkDevices (pciTable hostRegisters) (fun _ _ => true) 256).run .start).2 :=
  pciWalkDevices_not_hosts (pciTable hostRegisters) (fun _ _ => true) (by decide) 256

end Vineyard
