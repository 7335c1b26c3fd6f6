import Mathlib.Data.List.Nodup
import Mathlib.Logic.Function.Basic

/-!
# Rings

A ring is a doubly linked list that is closed: the last node is linked to the first.  It lives in two
maps, `next` and `prev`, from nodes to nodes.  `Ring next prev a l` says that from `a` the links go
through `l`, in this order, and back to `a`.
-/

namespace Rings

open List

variable {α : Type}

/-- The links go from `a` through the nodes of the list to `b`. -/
def Path (next prev : α → α) (a : α) : List α → α → Prop
  | [], b => next a = b ∧ prev b = a
  | c :: l, b => next a = c ∧ prev c = a ∧ Path next prev c l b

/-- The nodes of the ring from `a` on are `a` and `l`. -/
structure Ring (next prev : α → α) (a : α) (l : List α) : Prop where
  nodup : (a :: l).Nodup
  path : Path next prev a l a

variable {next prev next' prev' : α → α} {a b c : α} {l r : List α}

theorem path_append : Path next prev a (l ++ c :: r) b ↔ Path next prev a l c ∧
      Path next prev c r b := by
  induction l generalizing a with
  | nil => exact and_assoc.symm
  | cons d l ih => simp only [cons_append, Path, ih, and_assoc]

/-- A path depends on the links forth but from its end, and on those back but from its start. -/
theorem Path.congr (path : Path next prev a l b) (forth : ∀ x ∈ a :: l, next' x = next x)
    (back : ∀ x ∈ b :: l, prev' x = prev x) : Path next' prev' a l b := by
  induction l generalizing a with
  | nil => exact ⟨(forth a (by simp)).trans path.1, (back b (by simp)).trans path.2⟩
  | cons c l ih =>
    obtain ⟨there, home, rest⟩ := path
    refine ⟨(forth a (by simp)).trans there, (back c (by simp)).trans home, ih rest ?_ ?_⟩
    · exact fun x inside => forth x (mem_cons_of_mem a inside)
    · exact fun x inside => back x ((cons_subset_cons b (subset_cons_self c l)) inside)

theorem Path.next_eq (path : Path next prev a l b) : next a = l.headD b := by
  cases l <;> exact path.1

theorem Path.prev_eq (path : Path next prev a l b) : prev b = l.getLastD a := by
  induction l generalizing a with
  | nil => exact path.2
  | cons c l ih => rw [ih path.2.2, getLastD_cons]

/-- Two paths with the node `b` between them taken out. -/
theorem Path.join {d : α} (left : Path next prev a l b) (right : Path next prev b r d)
    (nodup : (a :: (l ++ r)).Nodup) (nodup' : (d :: (l ++ r)).Nodup) (outside : b ∉ a :: (l ++ r))
    (outside' : b ∉ d :: (l ++ r)) (forth : next' (prev b) = next b) (back : prev' (next b) = prev b)
    (forthOther : ∀ x, x ≠ prev b → x ≠ b → next' x = next x)
    (backOther : ∀ x, x ≠ next b → x ≠ b → prev' x = prev x) : Path next' prev' a (l ++ r) d := by
  have behind := right.next_eq
  induction l generalizing a with
  | nil =>
    rw [left.2] at forth back forthOther
    rw [behind] at forth back backOther
    cases r with
    | nil => exact ⟨forth, back⟩
    | cons c r =>
      obtain ⟨notIn, -⟩ := nodup_cons.1 nodup
      obtain ⟨notD, inner⟩ := nodup_cons.1 nodup'
      refine ⟨forth, back, right.2.2.congr (fun x inside => forthOther x ?_ ?_) fun x inside =>
        backOther x ?_ ?_⟩
      · exact ne_of_mem_of_not_mem inside notIn
      · exact ne_of_mem_of_not_mem (mem_cons_of_mem a inside) outside
      · obtain rfl | inside := mem_cons.1 inside
        · exact fun same => notD (same ▸ mem_cons_self)
        · exact ne_of_mem_of_not_mem inside (nodup_cons.1 inner).1
      · obtain rfl | inside := mem_cons.1 inside
        · exact ne_of_mem_of_not_mem mem_cons_self outside'
        · exact ne_of_mem_of_not_mem (mem_cons_of_mem d (mem_cons_of_mem c inside)) outside'
  | cons c l ih =>
    obtain ⟨there, home, rest⟩ := left
    obtain ⟨notIn, inner⟩ := nodup_cons.1 nodup
    obtain ⟨notD, inner'⟩ := nodup_cons.1 nodup'
    have last : prev b ∈ c :: l := by
      rw [rest.prev_eq]
      exact getLastD_mem_cons
    have first : next b ∈ d :: r := by
      rw [behind]
      cases r <;> simp
    refine ⟨(forthOther a ?_ ?_).trans there, (backOther c ?_ ?_).trans home, ih rest inner ?_ ?_ ?_⟩
    · rintro rfl
      exact notIn (mem_append_left r last)
    · exact ne_of_mem_of_not_mem mem_cons_self outside
    · rintro rfl
      obtain same | inside := mem_cons.1 first
      · exact notD (same ▸ mem_cons_self)
      · exact (nodup_cons.1 inner).1 (mem_append_right l inside)
    · exact ne_of_mem_of_not_mem (mem_cons_of_mem a mem_cons_self) outside
    · exact nodup_cons.2 ⟨fun inside => notD (mem_cons_of_mem c inside), (nodup_cons.1 inner').2⟩
    · exact fun inside => outside (mem_cons_of_mem a inside)
    · exact fun inside => outside' (cons_subset_cons d (subset_cons_self c _) inside)

theorem ring_nil (forth : next a = a) (back : prev a = a) : Ring next prev a [] :=
  ⟨nodup_singleton a, forth, back⟩

namespace Ring

theorem next_eq (ring : Ring next prev a l) : next a = l.headD a := ring.path.next_eq

theorem prev_eq (ring : Ring next prev a l) : prev a = l.getLastD a := ring.path.prev_eq

/-- A ring depends only on the links of its nodes. -/
theorem congr (ring : Ring next prev a l) (forth : ∀ x ∈ a :: l, next' x = next x)
    (back : ∀ x ∈ a :: l, prev' x = prev x) : Ring next' prev' a l :=
      ⟨ring.nodup, ring.path.congr forth back⟩

/-- The ring seen from its last node. -/
theorem rotate (ring : Ring next prev a (l ++ [b])) : Ring next prev b (a :: l) := by
  obtain ⟨front, last⟩ := path_append.1 ring.path
  exact ⟨(perm_append_singleton b (a :: l)).nodup_iff.1 ring.nodup, last.1, last.2, front⟩

/-- A new node behind `a`. -/
theorem insert (ring : Ring next prev a l) (fresh : b ∉ a :: l) (forthNew : next' b = next a)
    (backNew : prev' b = a) (forth : next' a = b) (back : prev' (next a) = b)
    (forthOther : ∀ x, x ≠ a → x ≠ b → next' x = next x)
    (backOther : ∀ x, x ≠ next a → x ≠ b → prev' x = prev x) : Ring next' prev' a (b :: l) := by
  obtain ⟨other, outside⟩ : b ≠ a ∧ b ∉ l := by simpa using fresh
  obtain ⟨notIn, nodup⟩ := nodup_cons.1 ring.nodup
  refine ⟨nodup_cons.2 ⟨by simp [notIn, other.symm], nodup_cons.2 ⟨outside, nodup⟩⟩, forth,
    backNew, ?_⟩
  have path := ring.path
  have first := ring.next_eq
  cases l with
  | nil =>
    rw [headD_nil] at first
    rw [first] at back forthNew
    exact ⟨forthNew, back⟩
  | cons c l =>
    rw [headD_cons] at first
    rw [first] at back forthNew backOther
    refine ⟨forthNew, back, path.2.2.congr (fun x inside => forthOther x ?_ ?_) fun x inside =>
      backOther x ?_ ?_⟩
    · exact ne_of_mem_of_not_mem inside notIn
    · exact ne_of_mem_of_not_mem inside outside
    · obtain rfl | inside := mem_cons.1 inside
      · exact fun same => notIn (same ▸ mem_cons_self)
      · exact ne_of_mem_of_not_mem inside (nodup_cons.1 nodup).1
    · obtain rfl | inside := mem_cons.1 inside
      · exact other.symm
      · exact ne_of_mem_of_not_mem (mem_cons_of_mem c inside) outside

/-- A node `b` is taken out. -/
theorem remove (ring : Ring next prev a (l ++ b :: r)) (forth : next' (prev b) = next b)
    (back : prev' (next b) = prev b) (forthOther : ∀ x, x ≠ prev b → x ≠ b → next' x = next x)
    (backOther : ∀ x, x ≠ next b → x ≠ b → prev' x = prev x) : Ring next' prev' a (l ++ r) := by
  have perm : (a :: (l ++ b :: r)).Perm (b :: a :: (l ++ r)) :=
    (perm_middle.cons a).trans (Perm.swap b a _)
  obtain ⟨outside, nodup⟩ := nodup_cons.1 (perm.nodup_iff.1 ring.nodup)
  obtain ⟨left, right⟩ := path_append.1 ring.path
  exact ⟨nodup, left.join right nodup nodup outside outside forth back forthOther backOther⟩

theorem next_middle (ring : Ring next prev a (l ++ b :: r)) : next b = r.headD a :=
  (path_append.1 ring.path).2.next_eq

theorem prev_middle (ring : Ring next prev a (l ++ b :: r)) : prev b = l.getLastD a :=
  (path_append.1 ring.path).1.prev_eq

theorem next_mem (ring : Ring next prev a (l ++ b :: r)) : next b ∈ a :: (l ++ r) := by
  rw [ring.next_middle]
  cases r <;> simp

theorem prev_mem (ring : Ring next prev a (l ++ b :: r)) : prev b ∈ a :: (l ++ r) := by
  rw [ring.prev_middle]
  cases l with
  | nil => exact mem_cons_self
  | cons c l =>
    rw [getLastD_cons]
    exact mem_cons_of_mem a (mem_append_left r getLastD_mem_cons)

theorem prev_next (ring : Ring next prev a (l ++ b :: r)) : prev (next b) = b := by
  have right := (path_append.1 ring.path).2
  cases r with
  | nil =>
    rw [right.1]
    exact right.2
  | cons c r =>
    rw [right.1]
    exact right.2.1

theorem next_prev (ring : Ring next prev a (l ++ b :: r)) : next (prev b) = b := by
  have left := (path_append.1 ring.path).1
  have before := ring.prev_middle
  obtain rfl | ⟨l, c, rfl⟩ := eq_nil_or_concat l
  · rw [before]
    exact left.1
  · rw [concat_eq_append] at left before
    rw [before, getLastD_concat]
    exact (path_append.1 left).2.1

/-- The neighbours are one node only if there is no other. -/
theorem next_eq_prev_iff (ring : Ring next prev a (l ++ b :: r)) : next b = prev b ↔ l ++ r = [] := by
  have perm : (a :: (l ++ b :: r)).Perm (b :: a :: (l ++ r)) :=
    (perm_middle.cons a).trans (Perm.swap b a _)
  obtain ⟨notA, apart⟩ := nodup_cons.1 (nodup_cons.1 (perm.nodup_iff.1 ring.nodup)).2
  rw [ring.next_middle, ring.prev_middle]
  refine ⟨fun same => ?_, fun none => ?_⟩
  · cases r with
    | nil =>
      cases l with
      | nil => rfl
      | cons c l =>
        rw [headD_nil, getLastD_cons] at same
        exact absurd (mem_append_left _ (same ▸ getLastD_mem_cons)) notA
    | cons d r =>
      cases l with
      | nil =>
        rw [headD_cons, getLastD_nil] at same
        exact absurd (same ▸ mem_cons_self) notA
      | cons c l =>
        rw [headD_cons, getLastD_cons] at same
        have left : d ∈ c :: l := same ▸ getLastD_mem_cons
        exact absurd rfl ((nodup_append.1 apart).2.2 d left d mem_cons_self)
  · obtain ⟨rfl, rfl⟩ := append_eq_nil_iff.1 none
    rfl

end Ring

end Rings
