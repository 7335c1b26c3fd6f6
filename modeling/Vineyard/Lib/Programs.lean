import Mathlib.Tactic.Common

/-!
# Programs over a state that survives a failure

A program takes a state and ends with a value or an error, and with a state in both cases: what was
done before an error stays done.  `Triple P m Q E` says that from a state with `P` the program ends
with a value and `Q`, or with an error and `E`.
-/

namespace Programs

/-- A program over states `σ` that returns an `α` or stops with an `ε`. -/
@[ext]
structure Prog (ε σ α : Type) where
  run : σ → Except ε α × σ

variable {ε σ α β : Type}

namespace Prog

/-- Goes on with `f` after a value; an error ends the program. -/
def andThen (m : Prog ε σ α) (f : α → Prog ε σ β) : Prog ε σ β where
  run s :=
    match m.run s with
    | (.ok a, t) => (f a).run t
    | (.error e, t) => (.error e, t)

instance : Monad (Prog ε σ) where
  pure a := ⟨fun s => (.ok a, s)⟩
  bind := andThen

/-- The state as it is. -/
def get : Prog ε σ σ := ⟨fun s => (.ok s, s)⟩

/-- Changes the state. -/
def modify (f : σ → σ) : Prog ε σ Unit := ⟨fun s => (.ok (), f s)⟩

/-- Stops. -/
def fail (e : ε) : Prog ε σ α := ⟨fun s => (.error e, s)⟩

/-- Does `m` for each element in turn. -/
def forEach (l : List α) (m : α → Prog ε σ Unit) : Prog ε σ Unit :=
  match l with
  | [] => pure ()
  | a :: rest => do
    m a
    forEach rest m

end Prog

/-- A component `τ` of the states `σ`. -/
structure Component (σ τ : Type) where
  view : σ → τ
  put : τ → σ → σ
  view_put : ∀ t s, view (put t s) = t
  put_view : ∀ s, put (view s) s = s
  put_put : ∀ t t' s, put t' (put t s) = put t' s

/-- The program runs on a component of the state. -/
def Prog.on {τ : Type} (m : Prog ε τ α) (c : Component σ τ) : Prog ε σ α where
  run s := ((m.run (c.view s)).1, c.put (m.run (c.view s)).2 s)

open Prog

@[simp] theorem run_pure (a : α) (s : σ) : (pure a : Prog ε σ α).run s = (.ok a, s) := rfl

@[simp] theorem run_get (s : σ) : (get : Prog ε σ σ).run s = (.ok s, s) := rfl

@[simp] theorem run_modify (f : σ → σ) (s : σ) :
    (modify f : Prog ε σ Unit).run s = (.ok (), f s) := rfl

@[simp] theorem run_fail (e : ε) (s : σ) : (fail e : Prog ε σ α).run s = (.error e, s) := rfl

theorem run_bind (m : Prog ε σ α) (f : α → Prog ε σ β) (s : σ) :
    (m >>= f).run s = match m.run s with
      | (.ok a, t) => (f a).run t
      | (.error e, t) => (.error e, t) := rfl

/-- A step that returns is followed by the rest. -/
theorem run_bind_of_ok {m : Prog ε σ α} {f : α → Prog ε σ β} {s t : σ} {a : α}
    (first : m.run s = (.ok a, t)) : (m >>= f).run s = (f a).run t := by
  rw [run_bind, first]

/-- A step that stops is followed by nothing. -/
theorem run_bind_of_error {m : Prog ε σ α} {f : α → Prog ε σ β} {s t : σ} {e : ε}
    (first : m.run s = (.error e, t)) : (m >>= f).run s = (.error e, t) := by
  rw [run_bind, first]

theorem pure_bind (a : α) (f : α → Prog ε σ β) : (pure a >>= f) = f a := rfl

theorem bind_assoc {γ : Type} (m : Prog ε σ α) (f : α → Prog ε σ β) (g : β → Prog ε σ γ) :
    ((m >>= f) >>= g) = (m >>= fun a => f a >>= g) := by
  apply Prog.ext
  funext s
  rw [run_bind, run_bind, run_bind]
  cases outcome : m.run s with
  | mk result t =>
    cases result with
    | ok a => rfl
    | error e => rfl

section Components

variable {τ : Type} (c : Component σ τ)

theorem run_on (m : Prog ε τ α) (s : σ) :
    (m.on c).run s = ((m.run (c.view s)).1, c.put (m.run (c.view s)).2 s) := rfl

@[simp] theorem on_pure (a : α) : (pure a : Prog ε τ α).on c = pure a := by
  apply Prog.ext
  funext s
  rw [run_on, run_pure, c.put_view, run_pure]

@[simp] theorem on_fail (e : ε) : (fail e : Prog ε τ α).on c = fail e := by
  apply Prog.ext
  funext s
  rw [run_on, run_fail, c.put_view, run_fail]

theorem on_bind (m : Prog ε τ α) (f : α → Prog ε τ β) :
    (m >>= f).on c = (m.on c >>= fun a => (f a).on c) := by
  apply Prog.ext
  funext s
  rw [run_on, run_bind, run_bind, run_on]
  cases outcome : m.run (c.view s) with
  | mk result t =>
    cases result with
    | ok a =>
      dsimp only
      rw [run_on, c.view_put, c.put_put]
    | error e => rfl

end Components

@[simp] theorem forEach_nil (m : α → Prog ε σ Unit) : forEach [] m = pure () := rfl

theorem forEach_cons (a : α) (l : List α) (m : α → Prog ε σ Unit) :
    forEach (a :: l) m = (m a >>= fun _ => forEach l m) := rfl

theorem forEach_append (l more : List α) (m : α → Prog ε σ Unit) :
    forEach (l ++ more) m = (forEach l m >>= fun _ => forEach more m) := by
  induction l with
  | nil => rfl
  | cons a l ih => rw [List.cons_append, forEach_cons, forEach_cons, ih, bind_assoc]

/-- What holds after a value, and what after an error. -/
structure Triple (P : σ → Prop) (m : Prog ε σ α) (Q : α → σ → Prop) (E : σ → Prop) : Prop where
  ends : ∀ s, P s → match m.run s with
    | (.ok a, t) => Q a t
    | (.error _, t) => E t

section Rules

variable {P E : σ → Prop} {Q : α → σ → Prop} {R : β → σ → Prop}

theorem Triple.bind {m : Prog ε σ α} {f : α → Prog ε σ β} (first : Triple P m Q E)
    (rest : ∀ a, Triple (Q a) (f a) R E) : Triple P (m >>= f) R E := by
  constructor
  intro s pre
  have here := first.ends s pre
  rw [run_bind]
  cases outcome : m.run s with
  | mk result t =>
    rw [outcome] at here
    cases result with
    | ok a => exact (rest a).ends t here
    | error e => exact here

theorem Triple.pure {a : α} (post : ∀ s, P s → Q a s) : Triple P (pure a : Prog ε σ α) Q E := ⟨post⟩

theorem Triple.fail {e : ε} (post : ∀ s, P s → E s) : Triple P (fail e : Prog ε σ α) Q E := ⟨post⟩

theorem Triple.modify {f : σ → σ} {Q : Unit → σ → Prop} (post : ∀ s, P s → Q () (f s)) :
    Triple P (modify f : Prog ε σ Unit) Q E := ⟨post⟩

theorem Triple.modify_bind {f : σ → σ} {g : Unit → Prog ε σ β} {M : σ → Prop}
    (change : ∀ s, P s → M (f s)) (rest : Triple M (g ()) R E) :
    Triple P (Prog.modify f >>= g) R E := ⟨fun s pre => rest.ends (f s) (change s pre)⟩

/-- The rest of the program runs from the state that was looked at. -/
theorem Triple.get_bind {g : σ → Prog ε σ β} (rest : ∀ t, P t → Triple (fun s => s = t) (g t) R E) :
    Triple P (Prog.get >>= g) R E := ⟨fun s pre => (rest s pre).ends s rfl⟩

theorem Triple.ite {c : Prop} [Decidable c] {m n : Prog ε σ α} (yes : c → Triple P m Q E)
    (no : ¬ c → Triple P n Q E) : Triple P (if c then m else n) Q E := by
  by_cases h : c
  · rw [if_pos h]
    exact yes h
  · rw [if_neg h]
    exact no h

theorem Triple.mono {m : Prog ε σ α} {P' : σ → Prop} {Q' : α → σ → Prop} (triple : Triple P m Q E)
    (pre : ∀ s, P' s → P s) (post : ∀ a s, Q a s → Q' a s) : Triple P' m Q' E := by
  constructor
  intro s h
  have here := triple.ends s (pre s h)
  cases outcome : m.run s with
  | mk result t =>
    rw [outcome] at here
    cases result with
    | ok a => exact post a t here
    | error e => exact here

/-- The state in which the program starts can be fixed. -/
theorem Triple.of_state {m : Prog ε σ α} (each : ∀ s, P s → Triple (fun t => t = s) m Q E) :
    Triple P m Q E := ⟨fun s pre => (each s pre).ends s rfl⟩

theorem Triple.any {m : Prog ε σ α} : Triple P m (fun _ _ => True) fun _ => True := by
  constructor
  intro s _
  cases outcome : m.run s with
  | mk result t => cases result <;> trivial

/-- Continuations that agree on the values that the program returns can be exchanged. -/
theorem bind_congr_of_returns {m : Prog ε σ α} {p : α → Prop} {f g : α → Prog ε σ β}
    (returns : Triple (fun _ => True) m (fun a _ => p a) fun _ => True)
    (agree : ∀ a, p a → f a = g a) :
    (m >>= f) = (m >>= g) := by
  apply Prog.ext
  funext s
  have here := returns.ends s trivial
  rw [run_bind, run_bind]
  cases outcome : m.run s with
  | mk result t =>
    rw [outcome] at here
    cases result with
    | ok a => exact congrArg (fun h : Prog ε σ β => h.run t) (agree a here)
    | error e => rfl

/-- What the program ends with, whichever way it ends. -/
theorem Triple.after {m : Prog ε σ α} (triple : Triple P m (fun _ => E) E) {s : σ} (pre : P s) :
    E (m.run s).2 := by
  have here := triple.ends s pre
  cases outcome : m.run s with
  | mk result t =>
    rw [outcome] at here
    cases result with
    | ok a => exact here
    | error e => exact here

end Rules

/-- The program keeps `I`, whichever way it ends. -/
abbrev Keeps (I : σ → Prop) (m : Prog ε σ α) : Prop := Triple I m (fun _ => I) I

theorem Keeps.bind {I : σ → Prop} {m : Prog ε σ α} {f : α → Prog ε σ β} (first : Keeps I m)
    (rest : ∀ a, Keeps I (f a)) : Keeps I (m >>= f) := Triple.bind first rest

theorem Keeps.forEach {I : σ → Prop} {l : List α} {m : α → Prog ε σ Unit}
    (each : ∀ a ∈ l, Keeps I (m a)) : Keeps I (Prog.forEach l m) := by
  induction l with
  | nil => exact Triple.pure fun _ h => h
  | cons a rest ih =>
    rw [forEach_cons]
    exact Keeps.bind (each a List.mem_cons_self) fun _ => ih fun b mem => each b
      (List.mem_cons_of_mem a mem)

/-- The program returns from every state. -/
abbrev Returns (m : Prog ε σ α) : Prop :=
  Triple (fun _ => True) m (fun _ _ => True) fun _ => False

/-- The program returns from no state. -/
abbrev NeverReturns (m : Prog ε σ α) : Prop :=
  Triple (fun _ => True) m (fun _ _ => False) fun _ => True

theorem Returns.bind {m : Prog ε σ α} {f : α → Prog ε σ β} (first : Returns m)
    (rest : ∀ a, Returns (f a)) : Returns (m >>= f) := Triple.bind first rest

theorem Returns.forEach {l : List α} {m : α → Prog ε σ Unit} (each : ∀ a ∈ l, Returns (m a)) :
    Returns (Prog.forEach l m) := by
  induction l with
  | nil => exact Triple.pure fun _ _ => trivial
  | cons a rest ih =>
    rw [forEach_cons]
    exact Returns.bind (each a List.mem_cons_self) fun _ => ih fun b mem => each b
      (List.mem_cons_of_mem a mem)

theorem Returns.run {m : Prog ε σ α} (returns : Returns m) (s : σ) : ∃ a t, m.run s = (.ok a, t) := by
  have here := returns.ends s trivial
  cases outcome : m.run s with
  | mk result t =>
    rw [outcome] at here
    cases result with
    | ok a => exact ⟨a, t, rfl⟩
    | error e => exact here.elim

theorem NeverReturns.bind_left {m : Prog ε σ α} {f : α → Prog ε σ β} (first : NeverReturns m) :
    NeverReturns (m >>= f) :=
  Triple.bind first fun _ => ⟨fun _ none => none.elim⟩

theorem NeverReturns.bind_right {m : Prog ε σ α} {f : α → Prog ε σ β}
    (rest : ∀ a, NeverReturns (f a)) :
    NeverReturns (m >>= f) :=
  Triple.bind Triple.any rest

theorem NeverReturns.forEach {l : List α} {m : α → Prog ε σ Unit} {a : α} (mem : a ∈ l)
    (stuck : NeverReturns (m a)) : NeverReturns (Prog.forEach l m) := by
  induction mem with
  | head => exact stuck.bind_left
  | tail _ _ ih => exact NeverReturns.bind_right fun _ => ih

theorem NeverReturns.run {m : Prog ε σ α} (stuck : NeverReturns m) (s t : σ) (a : α) :
    m.run s ≠ (.ok a, t) := by
  intro outcome
  have here := stuck.ends s trivial
  rw [outcome] at here
  exact here

end Programs
