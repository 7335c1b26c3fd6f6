import Vineyard.Lib.Programs

/-!
# Simulation of programs

Two programs over different states agree when, from related states, both return related values or both
stop with the same error, and the states behind them are related again.  There is a rule for each way
to put programs together.
-/

namespace Programs

open Prog

variable {ε σ τ α β γ δ : Type}

/-- Both programs returned, with related values, or both stopped for the same reason. -/
inductive Alike (R : α → β → Prop) : Except ε α → Except ε β → Prop
  | ok {a : α} {b : β} (related : R a b) : Alike R (.ok a) (.ok b)
  | error (e : ε) : Alike R (.error e) (.error e)

theorem Alike.eq {r r' : Except ε α} (alike : Alike (fun a b => a = b) r r') : r = r' := by
  cases alike with
  | ok same => exact congrArg Except.ok same
  | error e => rfl

/-- From states related by `S` the programs end alike, in states related by `S`. -/
structure Simulates (S : σ → τ → Prop) (R : α → β → Prop) (m : Prog ε σ α) (l : Prog ε τ β) :
    Prop where
  ends : ∀ s t, S s t → Alike R (m.run s).1 (l.run t).1 ∧ S (m.run s).2 (l.run t).2

namespace Simulates

variable {S : σ → τ → Prop} {R : α → β → Prop} {Q : γ → δ → Prop}

theorem pure {a : α} {b : β} (related : R a b) :
    Simulates S R (pure a : Prog ε σ α) (pure b : Prog ε τ β) :=
  ⟨fun _ _ states => ⟨.ok related, states⟩⟩

theorem bind {m : Prog ε σ α} {l : Prog ε τ β} {f : α → Prog ε σ γ} {g : β → Prog ε τ δ}
    (first : Simulates S R m l) (rest : ∀ a b, R a b → Simulates S Q (f a) (g b)) :
    Simulates S Q (m >>= f) (l >>= g) := by
  constructor
  intro s t states
  obtain ⟨alike, after⟩ := first.ends s t states
  rw [run_bind, run_bind]
  cases left : m.run s with
  | mk result s' =>
    cases right : l.run t with
    | mk result' t' =>
      rw [left, right] at alike after
      cases alike with
      | ok related => exact (rest _ _ related).ends s' t' after
      | error e => exact ⟨.error e, after⟩

/-- A program whose counterpart only computes a value. -/
theorem bind_value {m : Prog ε σ α} {b : β} {f : α → Prog ε σ γ} {l : Prog ε τ δ}
    (first : Simulates S R m (Pure.pure b)) (rest : ∀ a, R a b → Simulates S Q (f a) l) :
    Simulates S Q (m >>= f) l := by
  have both : Simulates S (fun a b' => R a b' ∧ b' = b) m (Pure.pure b) := by
    constructor
    intro s t states
    obtain ⟨alike, after⟩ := first.ends s t states
    refine ⟨?_, after⟩
    rw [run_pure] at alike ⊢
    cases outcome : (m.run s).1 with
    | ok a =>
      rw [outcome] at alike
      cases alike with
      | ok related => exact .ok ⟨related, rfl⟩
    | error e =>
      rw [outcome] at alike
      cases alike
  refine both.bind (g := fun _ => l) fun a b' related => rest a ?_
  exact related.2 ▸ related.1

/-- Both programs branch alike. -/
theorem ite {c : Prop} [Decidable c] {m m' : Prog ε σ α} {l l' : Prog ε τ β}
    (yes : c → Simulates S R m l) (no : ¬ c → Simulates S R m' l') :
    Simulates S R (if c then m else m') (if c then l else l') := by
  by_cases h : c
  · rw [if_pos h, if_pos h]
    exact yes h
  · rw [if_neg h, if_neg h]
    exact no h

theorem ite_value {c : Prop} [Decidable c] {m m' : Prog ε σ α} {b b' : β}
    (yes : c → Simulates S R m (Pure.pure b : Prog ε τ β))
    (no : ¬ c → Simulates S R m' (Pure.pure b' : Prog ε τ β)) :
    Simulates S R (if c then m else m') (Pure.pure (if c then b else b') : Prog ε τ β) := by
  by_cases h : c
  · rw [if_pos h, if_pos h]
    exact yes h
  · rw [if_neg h, if_neg h]
    exact no h

/-- A change of the state that keeps it related. -/
theorem modify_bind {change : σ → σ} {f : Unit → Prog ε σ γ} {l : Prog ε τ δ}
    (keeps : ∀ s t, S s t → S (change s) t) (rest : Simulates S Q (f ()) l) :
    Simulates S Q (modify change >>= f) l :=
  ⟨fun s t states => rest.ends (change s) t (keeps s t states)⟩

/-- Both programs look at their states. -/
theorem get_bind {f : σ → Prog ε σ γ} {g : τ → Prog ε τ δ}
    (rest : ∀ s t, S s t → Simulates S Q (f s) (g t)) :
    Simulates S Q (get >>= f) (get >>= g) :=
  ⟨fun s t states => (rest s t states).ends s t states⟩

/-- A program that runs on a component of the state. -/
theorem on (c : Component σ τ) (l : Prog ε τ α)
    (component : ∀ s t, S s t → c.view s = t ∧ ∀ t', S (c.put t' s) t') :
    Simulates S (fun a b => a = b) (l.on c) l := by
  constructor
  intro s t states
  obtain ⟨rfl, puts⟩ := component s t states
  rw [run_on]
  refine ⟨?_, puts _⟩
  dsimp only
  cases (l.run (c.view s)).1 with
  | ok a => exact .ok rfl
  | error e => exact .error e

/-- What the second program returns is known of it alone. -/
theorem returns {m : Prog ε σ α} {l : Prog ε τ β} {p : β → Prop} (simulates : Simulates S R m l)
    (triple : Triple (fun _ => True) l (fun b _ => p b) fun _ => True) :
    Simulates S (fun a b => R a b ∧ p b) m l := by
  constructor
  intro s t states
  obtain ⟨alike, after⟩ := simulates.ends s t states
  have known := triple.ends t trivial
  refine ⟨?_, after⟩
  cases right : l.run t with
  | mk result' t' =>
    rw [right] at alike known
    cases left : (m.run s).1 with
    | ok a =>
      rw [left] at alike
      cases alike with
      | ok related => exact .ok ⟨related, known⟩
    | error e =>
      rw [left] at alike
      cases alike
      exact .error e

end Simulates

end Programs
