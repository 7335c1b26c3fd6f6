import Mathlib.Data.List.Nodup
import Mathlib.Logic.Function.Basic

/-!
# Doubly linked lists

A doubly linked list lives in two maps, `next` and `prev`, from nodes to nodes; the node `0` is the
null pointer.  `Seg next prev b xs e` says that the nodes `xs` are linked to one another in this
order, with `b` before the first and `e` after the last; `IsList` adds the pointers to the first
and the last node.
-/

namespace Links

open Function

/-- The nodes `xs` are linked in order, between `b` and `e`. -/
def Seg (next prev : ℕ → ℕ) : ℕ → List ℕ → ℕ → Prop
  | _, [], _ => True
  | b, x :: xs, e => x ≠ 0 ∧ prev x = b ∧ next x = xs.headD e ∧ Seg next prev x xs e

variable {next prev next' prev' : ℕ → ℕ} {a b e : ℕ} {xs ys : List ℕ}

theorem seg_append : Seg next prev b (xs ++ ys) e ↔
    Seg next prev b xs (ys.headD e) ∧ Seg next prev (xs.getLastD b) ys e := by
  induction xs generalizing b with
  | nil => simp [Seg]
  | cons x xs ih =>
    have head : (xs ++ ys).headD e = xs.headD (ys.headD e) := by cases xs <;> rfl
    simp only [List.cons_append, Seg, head, ih, List.getLastD_cons, and_assoc]

theorem Seg.ne_zero (h : Seg next prev b xs e) : ∀ x ∈ xs, x ≠ 0 := by
  induction xs generalizing b with
  | nil => simp
  | cons x xs ih =>
    intro y hy
    rcases List.mem_cons.1 hy with rfl | hy
    · exact h.1
    · exact ih h.2.2.2 y hy

/-- A segment depends only on the links of its nodes. -/
theorem Seg.congr (h : Seg next prev b xs e) (hn : ∀ x ∈ xs, next' x = next x)
    (hp : ∀ x ∈ xs, prev' x = prev x) : Seg next' prev' b xs e := by
  induction xs generalizing b with
  | nil => trivial
  | cons x xs ih =>
    obtain ⟨nz, before, after, rest⟩ := h
    refine ⟨nz, (hp x (by simp)).trans before, (hn x (by simp)).trans after, ih rest ?_ ?_⟩
    · exact fun y hy => hn y (List.mem_cons_of_mem _ hy)
    · exact fun y hy => hp y (List.mem_cons_of_mem _ hy)

/-- A segment gets a new predecessor when the `prev` of its first node is rewritten. -/
theorem Seg.rebase {y b' : ℕ} (h : Seg next prev b (y :: ys) e)
    (hn : ∀ x ∈ y :: ys, next' x = next x) (hp : ∀ x ∈ ys, prev' x = prev x) (head : prev' y = b') :
    Seg next' prev' b' (y :: ys) e := by
  obtain ⟨nz, _, after, rest⟩ := h
  exact ⟨nz, head, (hn y (by simp)).trans after,
    rest.congr (fun x hx => hn x (List.mem_cons_of_mem _ hx)) hp⟩

/-- The maps and the two end pointers hold the list `xs`. -/
structure IsList (next prev : ℕ → ℕ) (head tail : ℕ) (xs : List ℕ) : Prop where
  head_eq : head = xs.headD 0
  tail_eq : tail = xs.getLastD 0
  seg : Seg next prev 0 xs 0
  nodup : xs.Nodup

theorem IsList.congr {head tail : ℕ} (h : IsList next prev head tail xs)
    (hn : ∀ x ∈ xs, next' x = next x) (hp : ∀ x ∈ xs, prev' x = prev x) :
    IsList next' prev' head tail xs :=
  ⟨h.head_eq, h.tail_eq, h.seg.congr hn hp, h.nodup⟩

theorem isList_singleton {x : ℕ} (nz : x ≠ 0) (hn : next x = 0) (hp : prev x = 0) :
    IsList next prev x x [x] :=
  ⟨rfl, rfl, ⟨nz, hp, hn, trivial⟩, List.nodup_singleton x⟩

theorem IsList.next_eq {head tail : ℕ} {l r : List ℕ} (h : IsList next prev head tail (l ++ a :: r)) :
    next a = r.headD 0 :=
  (seg_append.1 h.seg).2.2.2.1

/-- A new element behind `a`. -/
theorem nodup_insert {new : ℕ} {l r : List ℕ} (nodup : (l ++ a :: r).Nodup)
    (fresh : new ∉ l ++ a :: r) : (l ++ a :: new :: r).Nodup := by
  have perm : (l ++ a :: new :: r).Perm (new :: (l ++ a :: r)) := by
    rw [List.append_cons l a (new :: r), List.append_cons l a r]
    exact List.perm_middle
  rw [perm.nodup_iff, List.nodup_cons]
  exact ⟨fresh, nodup⟩

/-- The nodes behind the new one, the first of which gets another predecessor. -/
theorem Seg.behind {new : ℕ} {r : List ℕ} (right : Seg next prev a r 0) (nodup : r.Nodup)
    (aRight : a ∉ r) (freshRight : new ∉ r) (link : next a = r.headD 0)
    (nextOther : ∀ x, x ≠ new → x ≠ a → next' x = next x)
    (prevNext : next a ≠ 0 → prev' (next a) = new)
    (prevOther : ∀ x, x ≠ new → x ≠ next a → prev' x = prev x) : Seg next' prev' new r 0 := by
  cases r with
  | nil => trivial
  | cons y ys =>
    rw [List.headD_cons] at link
    have rightNe : ∀ x ∈ y :: ys, x ≠ new := fun x hx e => freshRight (e ▸ hx)
    refine right.rebase (fun x hx => nextOther x (rightNe x hx) ?_) (fun x hx => ?_) ?_
    · exact fun e => aRight (e ▸ hx)
    · refine prevOther x (rightNe x (List.mem_cons_of_mem _ hx)) fun e => ?_
      rw [link] at e
      exact (List.nodup_cons.1 nodup).1 (e ▸ hx)
    · rw [← link]
      refine prevNext ?_
      rw [link]
      exact right.1

/-- Linking a new node in after `a`. -/
theorem IsList.insertAfter {head tail new : ℕ} {l r : List ℕ}
    (h : IsList next prev head tail (l ++ a :: r)) (nz : new ≠ 0) (fresh : new ∉ l ++ a :: r)
    (nextNew : next' new = next a) (nextA : next' a = new)
    (nextOther : ∀ x, x ≠ new → x ≠ a → next' x = next x)
    (prevNew : prev' new = a) (prevNext : next a ≠ 0 → prev' (next a) = new)
    (prevOther : ∀ x, x ≠ new → x ≠ next a → prev' x = prev x) :
    IsList next' prev' head (if next a = 0 then new else tail) (l ++ a :: new :: r) := by
  have link := h.next_eq
  obtain ⟨left, middle⟩ := seg_append.1 h.seg
  obtain ⟨aNz, aPrev, _, right⟩ := middle
  have inserted := nodup_insert h.nodup fresh
  have nodup := h.nodup
  rw [List.nodup_append, List.nodup_cons] at nodup
  obtain ⟨_, ⟨aRight, rightNodup⟩, apart⟩ := nodup
  simp only [List.mem_append, List.mem_cons, not_or] at fresh
  obtain ⟨freshLeft, freshA, freshRight⟩ := fresh
  -- The node after `a`, if there is one, is the first of `r`.
  have notNext : ∀ x, x ∉ r → x ≠ 0 → x ≠ next a := by
    intro x hx hz e
    rw [link] at e
    cases r with
    | nil => exact hz e
    | cons y ys => exact hx (by simp [e])
  have aNe : ∀ x ∈ l, x ≠ a := fun x hx => apart x hx a (by simp)
  have leftRight : ∀ x ∈ l, x ∉ r := fun x hx hr => apart x hx x (List.mem_cons_of_mem _ hr) rfl
  refine ⟨?_, ?_, ?_, inserted⟩
  · rw [h.head_eq]
    cases l <;> rfl
  · rw [h.tail_eq, link]
    cases r with
    | nil => simp
    | cons y ys =>
      have := right.1
      simp [this]
  · refine seg_append.2 ⟨?_, aNz, ?_, nextA, nz, prevNew, ?_, ?_⟩
    · refine left.congr (fun x hx => nextOther x ?_ (aNe x hx)) (fun x hx => prevOther x ?_ ?_)
      · exact fun e => freshLeft (e ▸ hx)
      · exact fun e => freshLeft (e ▸ hx)
      · exact notNext x (leftRight x hx) (left.ne_zero x hx)
    · rw [prevOther a (Ne.symm freshA) (notNext a aRight aNz)]
      exact aPrev
    · rw [nextNew, link]
    · exact right.behind rightNodup aRight freshRight link nextOther prevNext prevOther

/-- Linking a new node in at the end. -/
theorem IsList.append {head tail new : ℕ} (h : IsList next prev head tail xs) (nz : new ≠ 0)
    (fresh : new ∉ xs) (nextNew : next' new = 0) (nextTail : tail ≠ 0 → next' tail = new)
    (nextOther : ∀ x, x ≠ new → x ≠ tail → next' x = next x)
    (prevNew : prev' new = tail) (prevOther : ∀ x, x ≠ new → prev' x = prev x) :
    IsList next' prev' (if head = 0 then new else head) new (xs ++ [new]) := by
  rcases xs.eq_nil_or_concat with rfl | ⟨l, a, rfl⟩
  · rw [if_pos (by simpa using h.head_eq)]
    exact isList_singleton nz nextNew (prevNew.trans (by simpa using h.tail_eq))
  · simp only [List.concat_eq_append] at h fresh ⊢
    have last : tail = a := by simpa using h.tail_eq
    have stops : next a = 0 := h.next_eq
    subst last
    have linked := h.insertAfter nz fresh (nextNew.trans stops.symm)
      (nextTail (h.seg.ne_zero tail (by simp))) nextOther prevNew (fun some => absurd stops some)
      (fun x hx _ => prevOther x hx)
    have first : head ≠ 0 := by
      rw [h.head_eq]
      cases l with
      | nil => exact h.seg.ne_zero tail (by simp)
      | cons y ys => exact h.seg.ne_zero y (by simp)
    rw [if_neg first, List.append_assoc]
    simpa [stops] using linked

theorem IsList.prev_eq {head tail : ℕ} {l r : List ℕ} (h : IsList next prev head tail (l ++ a :: r)) :
    prev a = l.getLastD 0 :=
  (seg_append.1 h.seg).2.2.1

theorem getLastD_mem (some : xs ≠ []) : xs.getLastD 0 ∈ xs := by
  cases xs with
  | nil => exact absurd rfl some
  | cons y ys =>
    rw [List.getLastD_cons]
    exact List.getLastD_mem_cons

/-- The neighbours of a node are in its list. -/
theorem IsList.next_mem {head tail : ℕ} {l r : List ℕ} (h : IsList next prev head tail (l ++ a :: r))
    (some : next a ≠ 0) : next a ∈ l ++ a :: r := by
  rw [h.next_eq] at some ⊢
  cases r with
  | nil => exact absurd rfl some
  | cons y ys => simp

theorem IsList.prev_mem {head tail : ℕ} {l r : List ℕ} (h : IsList next prev head tail (l ++ a :: r))
    (some : prev a ≠ 0) : prev a ∈ l ++ a :: r := by
  rw [h.prev_eq] at some ⊢
  exact List.mem_append_left _ (getLastD_mem (by rintro rfl; exact some rfl))

theorem IsList.tail_mem {head tail : ℕ} (h : IsList next prev head tail xs) (some : tail ≠ 0) :
    tail ∈ xs := by
  rw [h.tail_eq] at some ⊢
  exact getLastD_mem (by rintro rfl; exact some rfl)

/-- The nodes before a removed one, the last of which gets another successor. -/
theorem Seg.before {l : List ℕ} {e' : ℕ} (left : Seg next prev 0 l e) (nodup : l.Nodup)
    (last : l ≠ [] → next' (l.getLastD 0) = e')
    (nextOther : ∀ x ∈ l, x ≠ l.getLastD 0 → next' x = next x)
    (prevOther : ∀ x ∈ l, prev' x = prev x) : Seg next' prev' 0 l e' := by
  rcases l.eq_nil_or_concat with rfl | ⟨k, p, rfl⟩
  · trivial
  · simp only [List.concat_eq_append, List.getLastD_concat] at left nodup last nextOther prevOther ⊢
    have apart : ∀ x ∈ k, x ≠ p := fun x hx => (List.nodup_append.1 nodup).2.2 x hx p (by simp)
    have parts := seg_append.1 left
    refine seg_append.2 ⟨parts.1.congr (fun x hx => ?_) (fun x hx => ?_), ?_⟩
    · exact nextOther x (by simp [hx]) (apart x hx)
    · exact prevOther x (by simp [hx])
    · refine ⟨parts.2.1, (prevOther p (by simp)).trans parts.2.2.1, ?_, trivial⟩
      simpa using last (by simp)

/-- A node is the first of its list exactly when none is before it. -/
theorem IsList.first_iff {head tail : ℕ} {l r : List ℕ}
    (h : IsList next prev head tail (l ++ a :: r)) :
    prev a = 0 ↔ l = [] := by
  rw [h.prev_eq]
  cases l with
  | nil => simp
  | cons y ys =>
    have last : (y :: ys).getLastD 0 ∈ y :: ys := getLastD_mem (by simp)
    simpa using h.seg.ne_zero _ (List.mem_append_left _ last)

/-- A node is the last of its list exactly when none is behind it. -/
theorem IsList.last_iff {head tail : ℕ} {l r : List ℕ}
    (h : IsList next prev head tail (l ++ a :: r)) :
    next a = 0 ↔ r = [] := by
  rw [h.next_eq]
  cases r with
  | nil => simp
  | cons y ys => simpa using h.seg.ne_zero y (by simp)

/-- Taking a node out; its own links stay as they are. -/
theorem IsList.remove {head tail : ℕ} {l r : List ℕ} (h : IsList next prev head tail (l ++ a :: r))
    (nextPrev : prev a ≠ 0 → next' (prev a) = next a)
    (nextOther : ∀ x, x ≠ prev a → next' x = next x)
    (prevNext : next a ≠ 0 → prev' (next a) = prev a)
    (prevOther : ∀ x, x ≠ next a → prev' x = prev x) :
    IsList next' prev' (if prev a = 0 then next a else head) (if next a = 0 then prev a else tail)
      (l ++ r) := by
  have first := h.first_iff
  have last := h.last_iff
  have nonzero := h.seg.ne_zero
  have nodup := List.nodup_append.1 h.nodup
  have rightNodup := List.nodup_cons.1 nodup.2.1
  have parts := seg_append.1 h.seg
  have apart : ∀ x ∈ l, x ∉ r := fun x hx hr => nodup.2.2 x hx x (List.mem_cons_of_mem _ hr) rfl
  have before := h.prev_eq
  have behind := h.next_eq
  have ends : Seg next' prev' 0 l (r.headD 0) := by
    refine parts.1.before nodup.1 (fun some => ?_) (fun x _ hx => ?_) (fun x hx => ?_)
    · rw [← before, ← behind]
      exact nextPrev (mt first.1 some)
    · exact nextOther x (before ▸ hx)
    · refine prevOther x fun e => ?_
      cases r with
      | nil => exact nonzero x (by simp [hx]) (e.trans behind)
      | cons y ys => exact apart x hx (by simp [e.trans behind])
  have starts : Seg next' prev' (l.getLastD 0) r 0 := by
    have right := parts.2.2.2.2
    cases r with
    | nil => trivial
    | cons y ys =>
      simp only [List.headD_cons] at behind
      refine right.rebase (fun x hx => ?_) (fun x hx => ?_) ?_
      · refine nextOther x fun e => ?_
        rcases eq_or_ne l [] with rfl | some
        · exact nonzero x (by simp [List.mem_cons.1 hx]) (e.trans before)
        · exact apart x (e.trans before ▸ getLastD_mem some) hx
      · refine prevOther x fun e => ?_
        exact (List.nodup_cons.1 rightNodup.2).1 (behind ▸ e ▸ hx)
      · rw [← behind, prevNext (mt last.1 (by simp)), before]
  refine ⟨?_, ?_, seg_append.2 ⟨ends, starts⟩, ?_⟩
  · cases l with
    | nil => simpa [first.2 rfl] using behind
    | cons y ys => simpa [mt first.1] using h.head_eq
  · cases r with
    | nil => simpa [last.2 rfl] using before
    | cons y ys => simpa [mt last.1] using h.tail_eq
  · exact h.nodup.sublist ((List.sublist_cons_self a r).append_left l)

/-- The sequence with `new` put right behind the first `a`. -/
def insertBehind (a new : ℕ) : List ℕ → List ℕ
  | [] => []
  | x :: xs => if x = a then x :: new :: xs else x :: insertBehind a new xs

theorem insertBehind_append {new : ℕ} {l : List ℕ} (r : List ℕ) (first : a ∉ l) :
    insertBehind a new (l ++ a :: r) = l ++ a :: new :: r := by
  induction l with
  | nil => simp [insertBehind]
  | cons x xs ih =>
    simp only [List.mem_cons, not_or] at first
    simp [insertBehind, Ne.symm first.1, ih first.2]

/-- Behind a member the new node is put in once. -/
theorem insertBehind_perm (new : ℕ) (mem : a ∈ xs) : (insertBehind a new xs).Perm (new :: xs) := by
  obtain ⟨l, r, rfl, first⟩ := List.eq_append_cons_of_mem mem
  rw [insertBehind_append r first, List.append_cons, List.append_cons l a r]
  exact List.perm_middle

end Links
