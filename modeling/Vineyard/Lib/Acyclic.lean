import Mathlib.Data.Fintype.Card
import Mathlib.Data.Set.Finite.Lattice
import Mathlib.Logic.Relation

/-!
# Graphs without cycles

A walk along the edges of a graph ends when no place that it can come to leads back to itself.  On a
finite graph this is the same as a bound on the number of places on every path.
-/

namespace Acyclic

open Relation

variable {α : Type*} {r : α → α → Prop} {a b : α} {n : ℕ}

/-- No place that can be reached from `a` leads back to itself. -/
def AcyclicFrom (r : α → α → Prop) (a : α) : Prop :=
  ∀ b, ReflTransGen r a b → ¬ TransGen r b b

/-- Every path from the place has at most `n` places. -/
def Within (r : α → α → Prop) : ℕ → α → Prop
  | 0, _ => False
  | n + 1, a => ∀ b, r a b → Within r n b

theorem Within.succ (within : Within r n a) : Within r (n + 1) a := by
  induction n generalizing a with
  | zero => exact within.elim
  | succ n ih => exact fun b edge => ih (within b edge)

theorem Within.mono {m : ℕ} (le : n ≤ m) (within : Within r n a) : Within r m a := by
  induction le with
  | refl => exact within
  | step _ ih => exact ih.succ

theorem Within.reach (within : Within r n a) (path : ReflTransGen r a b) : Within r n b := by
  induction path with
  | refl => exact within
  | tail _ edge ih =>
    cases n with
    | zero => exact ih.elim
    | succ n => exact Within.succ (ih _ edge)

theorem Within.no_cycle (within : Within r n b) : ¬ TransGen r b b := by
  induction n with
  | zero => exact within.elim
  | succ n ih =>
    intro cycle
    obtain ⟨c, edge, back⟩ := TransGen.head'_iff.mp cycle
    exact ih (Within.reach (within c edge) back) cycle

/-- The places below one that can be reached are well founded. -/
theorem AcyclicFrom.wellFounded [Finite α] (acyclic : AcyclicFrom r a) :
    WellFounded fun x y => ReflTransGen r a y ∧ TransGen r y x := by
  have trans : IsTrans α fun x y => ReflTransGen r a y ∧ TransGen r y x :=
    ⟨fun _ _ _ first second => ⟨second.1, second.2.trans first.2⟩⟩
  have irrefl : Std.Irrefl fun x y => ReflTransGen r a y ∧ TransGen r y x :=
    ⟨fun x cycle => acyclic x cycle.1 cycle.2⟩
  exact Finite.wellFounded_of_trans_of_irrefl _

theorem AcyclicFrom.within [Finite α] (acyclic : AcyclicFrom r a) : ∃ n, Within r n a := by
  have each : ∀ b, ReflTransGen r a b → ∃ n, Within r n b := by
    intro b
    induction b using acyclic.wellFounded.induction with
    | _ b ih =>
      intro path
      have below : ∀ c : α, ∃ n, r b c → Within r n c := by
        intro c
        by_cases edge : r b c
        · obtain ⟨n, within⟩ := ih c ⟨path, .single edge⟩ (path.tail edge)
          exact ⟨n, fun _ => within⟩
        · exact ⟨0, fun h => absurd h edge⟩
      choose bound within using below
      obtain ⟨n, le⟩ := (Set.finite_range bound).bddAbove
      exact ⟨n + 1, fun c edge => (within c edge).mono (le (Set.mem_range_self c))⟩
  exact each a .refl

/-- On a finite graph exactly the places without cycles have a bound. -/
theorem acyclicFrom_iff [Finite α] : AcyclicFrom r a ↔ ∃ n, Within r n a := by
  constructor
  · exact AcyclicFrom.within
  · rintro ⟨n, within⟩ b path
    exact (within.reach path).no_cycle

end Acyclic
