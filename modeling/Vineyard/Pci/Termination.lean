import Vineyard.Pci.Enumeration
import Vineyard.Lib.Acyclic

/-!
# When the walk over the PCI buses ends

The walk follows the secondary bus numbers of the bridges with no record of where it has been.  It
needs as many calls inside one another as a path of bridges is long, so it ends for every handler
exactly when the bridges make no cycle that the starting bus leads to.
-/

namespace Vineyard

open Programs Programs.Prog Acyclic

/-- A bridge on the bus `b` that the walk comes to has the secondary bus `c`. -/
def Leads (space : PciSpace) (b c : UInt8) : Prop :=
  ∃ p ∈ busFunctions space b, busBelow space p = some c

section Walks

variable {space : PciSpace} {handler : PciHandler} {walkBus : UInt8 → PciM Unit}

/-! ## A walk that ends -/

theorem callHandler_returns (bus device function : UInt8) :
    Returns (callHandler handler bus device function) :=
  ⟨fun _ _ => trivial⟩

theorem behind_returns {p : PciFunction}
    (below : ∀ c, busBelow space p = some c → Returns (walkBus c)) :
    Returns (if classCode space p = 0x0604 then
        if secondaryBus space p ≠ 0 then walkBus (secondaryBus space p) else pure ()
      else pure ()) := by
  apply Triple.ite
  · intro bridge
    apply Triple.ite
    · intro nonzero
      exact below _ (busBelow_eq_some.mpr ⟨bridge, nonzero, rfl⟩)
    · intro _
      exact Triple.pure fun _ _ => trivial
  · intro _
    exact Triple.pure fun _ _ => trivial

theorem pciWalkDevice_returns {bus device : UInt8}
    (below : ∀ function c, function ∈ uint8Range 8 → Present space ⟨bus, device, function⟩ →
      busBelow space ⟨bus, device, function⟩ = some c → Returns (walkBus c)) :
    Returns (pciWalkDevice space handler walkBus bus device) := by
  refine Returns.forEach fun function range => ?_
  rw [pciConfigVendor_eq, pure_bind]
  apply Triple.ite
  · intro _
    exact Triple.pure fun _ _ => trivial
  · intro present
    refine Returns.bind (callHandler_returns bus device function) fun _ => ?_
    rw [pciConfigClass_eq, pure_bind]
    exact behind_returns fun c leads => below function c range present leads

/-- The functions of a multi-function device are listed. -/
theorem mem_deviceFunctions_of_multi {bus device function : UInt8}
    (there : vendorId space ⟨bus, device, 0⟩ ≠ 0xFFFF) (multi : MultiFunction space bus device)
    (range : function ∈ uint8Range 8) (present : Present space ⟨bus, device, function⟩) :
    ⟨bus, device, function⟩ ∈ deviceFunctions space bus device := by
  unfold deviceFunctions
  rw [if_neg there, if_pos multi]
  refine List.mem_flatMap.mpr ⟨function, range, ?_⟩
  rw [if_neg present]
  exact List.mem_singleton_self _

theorem mem_multi {bus device : UInt8} {p : PciFunction}
    (there : vendorId space ⟨bus, device, 0⟩ ≠ 0xFFFF) (multi : MultiFunction space bus device)
    (mem : p ∈ deviceFunctions space bus device) : ∃ function ∈ uint8Range 8,
      Present space ⟨bus, device, function⟩ ∧ p = ⟨bus, device, function⟩ := by
  unfold deviceFunctions at mem
  rw [if_neg there, if_pos multi] at mem
  obtain ⟨function, range, mem⟩ := List.mem_flatMap.mp mem
  by_cases absent : vendorId space ⟨bus, device, function⟩ = 0xFFFF
  · rw [if_pos absent] at mem
    cases mem
  · rw [if_neg absent] at mem
    exact ⟨function, range, absent, List.mem_singleton.mp mem⟩

theorem deviceFunctions_single {bus device : UInt8}
    (there : vendorId space ⟨bus, device, 0⟩ ≠ 0xFFFF) (single : ¬ MultiFunction space bus device) :
    deviceFunctions space bus device = [⟨bus, device, 0⟩] := by
  unfold deviceFunctions
  rw [if_neg there, if_neg single]

theorem pciWalkDevicesFrom_returns {bus : UInt8} {devices : List UInt8}
    (below : ∀ p c, p ∈ devices.flatMap (deviceFunctions space bus) → busBelow space p = some c →
      Returns (walkBus c)) :
    Returns (pciWalkDevicesFrom space handler walkBus bus devices) := by
  induction devices with
  | nil => exact Triple.pure fun _ _ => trivial
  | cons device rest ih =>
    have later := ih fun p c mem => below p c (List.mem_append_right _ mem)
    have now : ∀ p c, p ∈ deviceFunctions space bus device → busBelow space p = some c →
        Returns (walkBus c) := fun p c mem => below p c (List.mem_append_left _ mem)
    unfold pciWalkDevicesFrom
    rw [pciConfigVendor_eq, pure_bind]
    apply Triple.ite
    · intro _
      exact later
    intro there
    rw [pciConfigHeaderType_eq, pure_bind]
    apply Triple.ite
    · intro multi
      refine Returns.bind (pciWalkDevice_returns fun function c range present leads => ?_) fun _ =>
        later
      exact now _ c (mem_deviceFunctions_of_multi there multi range present) leads
    · intro single
      have listed := deviceFunctions_single there single
      rw [pciConfigClass_eq, pure_bind, pciConfigSecondaryBus_eq, pure_bind]
      refine Returns.bind (callHandler_returns bus device 0) fun answer => ?_
      apply Triple.ite
      · intro _
        exact Triple.pure fun _ _ => trivial
      · intro _
        refine Returns.bind (behind_returns fun c leads => now _ c ?_ leads) fun _ => later
        rw [listed]
        exact List.mem_singleton_self _

/-! ## A walk that does not end -/

theorem behind_neverReturns {p : PciFunction} {c : UInt8} (leads : busBelow space p = some c)
    (stuck : NeverReturns (walkBus c)) :
    NeverReturns (if classCode space p = 0x0604 then
        if secondaryBus space p ≠ 0 then walkBus (secondaryBus space p) else pure ()
      else pure ()) := by
  obtain ⟨bridge, nonzero, rfl⟩ := busBelow_eq_some.mp leads
  rw [if_pos (show classCode space p = 0x0604 from bridge), if_pos nonzero]
  exact stuck

theorem pciWalkDevice_neverReturns {bus device function c : UInt8} (range : function ∈ uint8Range 8)
    (present : Present space ⟨bus, device, function⟩)
    (leads : busBelow space ⟨bus, device, function⟩ = some c) (stuck : NeverReturns (walkBus c)) :
    NeverReturns (pciWalkDevice space handler walkBus bus device) := by
  refine NeverReturns.forEach range ?_
  rw [pciConfigVendor_eq, pure_bind, if_neg present]
  refine NeverReturns.bind_right fun _ => ?_
  rw [pciConfigClass_eq, pure_bind]
  exact behind_neverReturns leads stuck

/-- A handler that goes on is asked for every device. -/
theorem callHandler_neverReturns (always : ∀ calls p, handler calls p = true)
    {bus device function : UInt8} {rest : Bool → PciM Unit} (stuck : NeverReturns (rest true)) :
    NeverReturns (callHandler handler bus device function >>= rest) := by
  constructor
  intro walk _
  have called : (callHandler handler bus device function).run walk =
      (.ok true, { walk with calls := walk.calls ++ [⟨bus, device, function⟩] }) :=
    congrArg (fun b => (Except.ok b, _)) (always _ _)
  rw [run_bind_of_ok called]
  exact stuck.ends _ trivial

theorem pciWalkDevicesFrom_neverReturns (always : ∀ calls p, handler calls p = true) {bus c : UInt8}
    {devices : List UInt8} {p : PciFunction}
    (mem : p ∈ devices.flatMap (deviceFunctions space bus)) (leads : busBelow space p = some c)
    (stuck : NeverReturns (walkBus c)) :
    NeverReturns (pciWalkDevicesFrom space handler walkBus bus devices) := by
  induction devices with
  | nil => cases mem
  | cons device rest ih =>
    unfold pciWalkDevicesFrom
    rw [pciConfigVendor_eq, pure_bind]
    by_cases absent : vendorId space ⟨bus, device, 0⟩ = 0xFFFF
    · rw [if_pos absent]
      refine ih ?_
      rw [List.flatMap_cons, deviceFunctions, if_pos absent] at mem
      exact mem
    rw [if_neg absent, pciConfigHeaderType_eq, pure_bind]
    rcases List.mem_append.mp (List.flatMap_cons ▸ mem) with now | later
    · by_cases multi : MultiFunction space bus device
      · rw [if_pos (show headerType space ⟨bus, device, 0⟩ &&& 0x80 ≠ 0 from multi)]
        obtain ⟨function, range, present, rfl⟩ := mem_multi absent multi now
        exact (pciWalkDevice_neverReturns range present leads stuck).bind_left
      · rw [if_neg (show ¬ headerType space ⟨bus, device, 0⟩ &&& 0x80 ≠ 0 from multi),
          pciConfigClass_eq, pure_bind, pciConfigSecondaryBus_eq, pure_bind]
        rw [deviceFunctions_single absent multi] at now
        obtain rfl := List.mem_singleton.mp now
        exact callHandler_neverReturns always (behind_neverReturns leads stuck).bind_left
    · have goesOn := ih later
      by_cases multi : MultiFunction space bus device
      · rw [if_pos (show headerType space ⟨bus, device, 0⟩ &&& 0x80 ≠ 0 from multi)]
        exact NeverReturns.bind_right fun _ => goesOn
      · rw [if_neg (show ¬ headerType space ⟨bus, device, 0⟩ &&& 0x80 ≠ 0 from multi),
          pciConfigClass_eq, pure_bind, pciConfigSecondaryBus_eq, pure_bind]
        exact callHandler_neverReturns always (NeverReturns.bind_right fun _ => goesOn)

end Walks

/-! ## The depth of a walk -/

variable {space : PciSpace}

/-- A walk is as deep as the paths of bridges are long. -/
theorem pciWalkBus_returns {depth : ℕ} {bus : UInt8} (handler : PciHandler)
    (within : Within (Leads space) depth bus) : Returns (pciWalkBus space handler depth bus) := by
  induction depth generalizing bus with
  | zero => exact within.elim
  | succ depth ih =>
    exact pciWalkDevicesFrom_returns fun p c mem leads => ih (within c ⟨p, mem, leads⟩)

theorem pciWalkBus_neverReturns {handler : PciHandler} (always : ∀ calls p, handler calls p = true)
    {depth : ℕ} {bus : UInt8} (long : ¬ Within (Leads space) depth bus) :
    NeverReturns (pciWalkBus space handler depth bus) := by
  induction depth generalizing bus with
  | zero => exact Triple.fail fun _ _ => trivial
  | succ depth ih =>
    have further : ∃ c, Leads space bus c ∧ ¬ Within (Leads space) depth c := by
      by_contra none
      exact long fun c leads => by_contra fun deep => none ⟨c, leads, deep⟩
    obtain ⟨c, ⟨p, mem, leads⟩, deep⟩ := further
    exact pciWalkDevicesFrom_neverReturns always mem leads (ih deep)

/-- For every handler and whatever was called before, some number of calls inside one another is
enough for the walk to return. -/
def WalkEnds (space : PciSpace) (bus : UInt8) : Prop :=
  ∀ (handler : PciHandler) (walk : PciWalk), ∃ depth after,
    (pciWalkBus space handler depth bus).run walk = (.ok (), after)

instance finite_uint8 : Finite UInt8 :=
  Finite.of_injective UInt8.toFin fun _ _ same => UInt8.toFin_inj.mp same

/-- The walk of a bus ends with every handler exactly when no bus that its bridges lead to leads back
to itself. -/
theorem pciWalkBus_ends_iff (space : PciSpace) (bus : UInt8) :
    WalkEnds space bus ↔ AcyclicFrom (Leads space) bus := by
  rw [acyclicFrom_iff]
  constructor
  · intro ends
    obtain ⟨depth, after, run⟩ := ends (fun _ _ => true) .start
    refine ⟨depth, by_contra fun long => ?_⟩
    exact (pciWalkBus_neverReturns (fun _ _ => rfl) long).run _ _ _ run
  · rintro ⟨depth, within⟩ handler walk
    obtain ⟨_, after, run⟩ := (pciWalkBus_returns handler within).run walk
    exact ⟨depth, after, run⟩

/-- A bridge on bus 1 whose secondary bus is 1. -/
def loopRegisters : List (PciFunction × UInt32 × UInt32) :=
  [(⟨1, 0, 0⟩, 0x00, 0x000C1B36), (⟨1, 0, 0⟩, 0x08, 0x06040000), (⟨1, 0, 0⟩, 0x0C, 0x00010000),
   (⟨1, 0, 0⟩, 0x18, 0x00000100)]

theorem not_walkEnds_loop : ¬ WalkEnds (pciTable loopRegisters) 1 := by
  have leads : Leads (pciTable loopRegisters) 1 1 := ⟨⟨1, 0, 0⟩, by decide +kernel, by decide⟩
  intro ends
  obtain ⟨depth, after, run⟩ := ends (fun _ _ => true) .start
  refine (pciWalkBus_neverReturns (fun _ _ => rfl) fun within => ?_).run _ _ _ run
  exact within.no_cycle (.single leads)

end Vineyard
