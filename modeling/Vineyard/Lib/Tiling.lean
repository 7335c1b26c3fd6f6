import Mathlib.Data.List.Basic
import Mathlib.Data.List.Pairwise
import Mathlib.Order.Nat

/-!
# Intervals that tile a range

A list of pieces, each with a start and a length, tiles `[lo, hi)` when the first piece starts at
`lo`, every piece starts where the one before it ends, none is empty, and the last one ends at `hi`.
-/

namespace Tiling

variable {α : Type} (start len : α → ℕ)

/-- The pieces lie end to end from `lo` to `hi`. -/
def Tiles : ℕ → List α → ℕ → Prop
  | lo, [], hi => lo = hi
  | lo, r :: rs, hi => start r = lo ∧ 0 < len r ∧ Tiles (lo + len r) rs hi

/-- The address lies in the piece. -/
def Covers (r : α) (a : ℕ) : Prop := start r ≤ a ∧ a < start r + len r

instance (r : α) (a : ℕ) : Decidable (Covers start len r a) :=
  inferInstanceAs (Decidable (start r ≤ a ∧ a < start r + len r))

variable {start len} {lo hi : ℕ} {rs ks : List α} {r r' : α}

theorem tiles_append : Tiles start len lo (rs ++ ks) hi ↔
    ∃ mid, Tiles start len lo rs mid ∧ Tiles start len mid ks hi := by
  induction rs generalizing lo with
  | nil => simp [Tiles]
  | cons r rs ih =>
    simp only [List.cons_append, Tiles, ih]
    constructor
    · rintro ⟨hs, hl, mid, h, h'⟩
      exact ⟨mid, ⟨hs, hl, h⟩, h'⟩
    · rintro ⟨mid, ⟨hs, hl, h⟩, h'⟩
      exact ⟨hs, hl, mid, h, h'⟩

theorem Tiles.le (h : Tiles start len lo rs hi) : lo ≤ hi := by
  induction rs generalizing lo with
  | nil => exact le_of_eq h
  | cons r rs ih =>
    have := ih h.2.2
    omega

/-- There are no more pieces than addresses. -/
theorem Tiles.length_le (h : Tiles start len lo rs hi) : lo + rs.length ≤ hi := by
  induction rs generalizing lo with
  | nil => exact le_of_eq h
  | cons r rs ih =>
    obtain ⟨_, pos, rest⟩ := h
    have := ih rest
    rw [List.length_cons]
    omega

theorem Tiles.len_pos (h : Tiles start len lo rs hi) (mem : r ∈ rs) : 0 < len r := by
  induction rs generalizing lo with
  | nil => cases mem
  | cons k rs ih =>
    rcases List.mem_cons.1 mem with rfl | mem
    · exact h.2.1
    · exact ih h.2.2 mem

/-- Every piece lies in the range. -/
theorem Tiles.bounds (h : Tiles start len lo rs hi) (mem : r ∈ rs) :
    lo ≤ start r ∧ start r + len r ≤ hi := by
  induction rs generalizing lo with
  | nil => cases mem
  | cons k rs ih =>
    obtain ⟨first, _, rest⟩ := h
    rcases List.mem_cons.1 mem with rfl | mem
    · have := rest.le
      omega
    · have := ih rest mem
      omega

/-- A piece ends before any later one starts. -/
theorem Tiles.pairwise (h : Tiles start len lo rs hi) :
    rs.Pairwise fun r r' => start r + len r ≤ start r' := by
  induction rs generalizing lo with
  | nil => exact List.Pairwise.nil
  | cons r rs ih =>
    obtain ⟨first, _, rest⟩ := h
    refine List.Pairwise.cons (fun r' hr' => ?_) (ih rest)
    rw [first]
    exact (rest.bounds hr').1

/-- No two pieces share an address. -/
theorem Tiles.eq_of_covers (h : Tiles start len lo rs hi) (mem : r ∈ rs) (mem' : r' ∈ rs) {a : ℕ}
    (covers : Covers start len r a) (covers' : Covers start len r' a) : r = r' := by
  induction rs generalizing lo with
  | nil => cases mem
  | cons k rs ih =>
    obtain ⟨first, _, rest⟩ := h
    unfold Covers at covers covers'
    rcases List.mem_cons.1 mem with rfl | later <;> rcases List.mem_cons.1 mem' with rfl | later'
    · rfl
    · have := (rest.bounds later').1
      omega
    · have := (rest.bounds later).1
      omega
    · exact ih rest later later'

/-- Pieces with the same start are the same. -/
theorem Tiles.eq_of_start (h : Tiles start len lo rs hi) (mem : r ∈ rs) (mem' : r' ∈ rs)
    (same : start r = start r') : r = r' := by
  refine h.eq_of_covers mem mem' (a := start r) ⟨le_rfl, ?_⟩ ⟨same.ge, ?_⟩
  · have := h.len_pos mem
    omega
  · have := h.len_pos mem'
    omega

theorem Tiles.nodup (h : Tiles start len lo rs hi) : rs.Nodup := by
  have pos : ∀ r ∈ rs, 0 < len r := fun r hr => h.len_pos hr
  refine h.pairwise.imp_of_mem fun {r r'} hr _ le e => ?_
  have := pos r hr
  rw [e] at le this
  omega

/-- Pieces of whole units start at whole units. -/
theorem Tiles.start_mod {m : ℕ} (h : Tiles start len lo rs hi) (first : lo % m = 0)
    (whole : ∀ r ∈ rs, len r % m = 0) (mem : r ∈ rs) : start r % m = 0 := by
  induction rs generalizing lo with
  | nil => cases mem
  | cons k rs ih =>
    obtain ⟨atLo, _, rest⟩ := h
    rcases List.mem_cons.1 mem with rfl | mem
    · rw [atLo, first]
    · refine ih rest ?_ (fun x hx => whole x (List.mem_cons_of_mem _ hx)) mem
      rw [Nat.add_mod, first, whole k (by simp)]
      simp

theorem tiles_map {β : Type} {f : β → α} {ks : List β} : Tiles start len lo (ks.map f) hi ↔
    Tiles (fun k => start (f k)) (fun k => len (f k)) lo ks hi := by
  induction ks generalizing lo with
  | nil => rfl
  | cons k ks ih => simp only [List.map_cons, Tiles, ih]

/-- A piece may be replaced by one of the same place and length. -/
theorem Tiles.replace {l k : List α} (h : Tiles start len lo (l ++ r :: k) hi)
    (hs : start r' = start r) (hl : len r' = len r) : Tiles start len lo (l ++ r' :: k) hi := by
  obtain ⟨mid, left, first, pos, right⟩ := tiles_append.1 h
  exact tiles_append.2 ⟨mid, left, hs.trans first, hl ▸ pos, hl ▸ right⟩

/-- A piece may be cut in two. -/
theorem Tiles.cut {l k : List α} {r₁ r₂ : α} (h : Tiles start len lo (l ++ r :: k) hi)
    (first : start r₁ = start r) (second : start r₂ = start r₁ + len r₁)
    (total : len r₁ + len r₂ = len r) (pos₁ : 0 < len r₁) (pos₂ : 0 < len r₂) :
    Tiles start len lo (l ++ r₁ :: r₂ :: k) hi := by
  obtain ⟨mid, left, atMid, _, right⟩ := tiles_append.1 h
  refine tiles_append.2 ⟨mid, left, first.trans atMid, pos₁, ?_, pos₂, ?_⟩
  · rw [second, first, atMid]
  · rw [Nat.add_assoc, total]
    exact right

end Tiling
