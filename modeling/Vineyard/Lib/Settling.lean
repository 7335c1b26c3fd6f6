import Vineyard.Lib.Programs

/-!
# Programs with a bound on their loops

A loop that may not end is a family of programs, one for each bound on the number of rounds.  The
family settles when all large enough bounds give the same result.
-/

namespace Programs

open Prog

variable {ε σ α β : Type}

/-- From `s` the program returns `a` in `t`, whatever the bound is beyond some number. -/
def Settles (m : ℕ → Prog ε σ α) (s : σ) (a : α) (t : σ) : Prop :=
  ∃ enough, ∀ n, enough ≤ n → (m n).run s = (.ok a, t)

/-- A program that does not use the bound. -/
theorem Settles.of_run {m : Prog ε σ α} {s t : σ} {a : α} (run : m.run s = (.ok a, t)) :
    Settles (fun _ => m) s a t := ⟨0, fun _ _ => run⟩

/-- A loop that ends in its first round. -/
theorem Settles.stop {m : ℕ → Prog ε σ α} {s t : σ} {a : α}
    (stop : ∀ n, (m (n + 1)).run s = (.ok a, t)) :
    Settles m s a t := by
  refine ⟨1, fun n le => ?_⟩
  rcases Nat.exists_eq_add_of_le' le with ⟨k, rfl⟩
  exact stop k

theorem Settles.bind {m : ℕ → Prog ε σ α} {f : ℕ → α → Prog ε σ β} {s t u : σ} {a : α} {b : β}
    (first : Settles m s a t) (second : Settles (fun n => f n a) t b u) :
    Settles (fun n => m n >>= f n) s b u := by
  rcases first with ⟨enough, first⟩
  rcases second with ⟨enough', second⟩
  refine ⟨max enough enough', fun n le => ?_⟩
  rw [run_bind_of_ok (first n (Nat.le_trans (Nat.le_max_left _ _) le))]
  exact second n (Nat.le_trans (Nat.le_max_right _ _) le)

/-- One round, and the rest with one less. -/
theorem Settles.round {m m' : ℕ → Prog ε σ α} {s t u : σ} {a : α}
    (step : ∀ n, (m (n + 1)).run s = (m' n).run t) (rest : Settles m' t a u) : Settles m s a u := by
  rcases rest with ⟨enough, rest⟩
  refine ⟨enough + 1, fun n le => ?_⟩
  rcases Nat.exists_eq_add_of_le' (Nat.le_trans (Nat.le_add_left 1 enough) le) with ⟨k, rfl⟩
  rw [step, rest k (by omega)]

/-- A program on a component. -/
theorem Settles.on {τ : Type} {m : ℕ → Prog ε τ α} {c : Component σ τ} {s : σ} {a : α} {t : τ}
    (settles : Settles m (c.view s) a t) : Settles (fun n => (m n).on c) s a (c.put t s) := by
  rcases settles with ⟨enough, settles⟩
  exact ⟨enough, fun n le => by rw [run_on, settles n le]⟩

/-- A family settles in one way only. -/
theorem Settles.unique {m : ℕ → Prog ε σ α} {s t u : σ} {a b : α} (first : Settles m s a t)
    (second : Settles m s b u) : a = b ∧ t = u := by
  rcases first with ⟨enough, first⟩
  rcases second with ⟨enough', second⟩
  have same := (first _ (Nat.le_max_left enough enough')).symm.trans (second _ (Nat.le_max_right _ _))
  simpa using same

end Programs
