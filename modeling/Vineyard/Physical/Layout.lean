import Mathlib.Data.List.Nodup
import Mathlib.Data.List.Perm.Subperm
import Vineyard.Physical.Allocator

/-!
# The allocator as a pile of stacks

A `Layout` lists the stacks of the allocator, the one in use first, each with its frame and the
pages it records.  `Layout.get` and `Layout.markFree` are the two operations on layouts;
`Layout.Ok` is the invariant: all frames and recorded pages are distinct pages, the first stack
records at most 509 pages and every other one exactly 508, because a stack loses one page to the
frame that is put on top of it.

`Pmm.Holds s A` says that memory represents the layout `A`, and `mmPhysicalGet_refines` and
`mmPhysicalMarkFree_refines` that the code carries out the operations of the layout.
-/

namespace Vineyard

open Function

/-- The stacks of the allocator, the one in use first: frame and recorded pages, oldest first. -/
abbrev Layout := List (ℕ × List ℕ)

namespace Layout

def frames (A : Layout) : List ℕ := A.map Prod.fst

def pages (A : Layout) : List ℕ := A.flatMap Prod.snd

@[simp] theorem frames_cons (f : ℕ) (ps : List ℕ) (rest : Layout) :
    frames ((f, ps) :: rest) = f :: frames rest := rfl

@[simp] theorem pages_cons (f : ℕ) (ps : List ℕ) (rest : Layout) :
    pages ((f, ps) :: rest) = ps ++ pages rest := rfl

@[simp] theorem frames_nil : frames [] = [] := rfl

@[simp] theorem pages_nil : pages [] = [] := rfl

/-- Take the newest page of the stack in use, or of the stack below it when it is empty.  A stack
in page `0` cannot be told from the end of the pile. -/
def get : Layout → Option (ℕ × Layout)
  | [] => none
  | (f, ps) :: rest =>
      match ps.getLast? with
      | some p => some (p, (f, ps.dropLast) :: rest)
      | none =>
          match rest.head? with
          | none => none
          | some (g, _) => if g = 0 then none else get rest

/-- Put a page on the stack in use, or on a new stack whose frame is taken from the full one. -/
def markFree (a : ℕ) : Layout → Option Layout
  | [] => none
  | (f, ps) :: rest =>
      if ps.length < stackSize then some ((f, ps ++ [a]) :: rest)
      else (get ((f, ps) :: rest)).map fun (p, B) => (p, [a]) :: B

/-- The frame `markFree` takes, if it does. -/
def frameTaken : Layout → Option ℕ
  | [] => none
  | (_, ps) :: _ => if ps.length < stackSize then none else ps.getLast?

/-- The invariant of the pile. -/
structure Ok (A : Layout) : Prop where
  nodup : (A.frames ++ A.pages).Nodup
  phys : ∀ x ∈ A.frames ++ A.pages, PhysPage x
  top : ∀ t ∈ A.head?, t.2.length ≤ stackSize
  below : ∀ t ∈ A.tail, t.2.length = stackSize - 1

theorem markFree_cons (a f : ℕ) (ps : List ℕ) (rest : Layout) :
    markFree a ((f, ps) :: rest) =
      if ps.length < stackSize then some ((f, ps ++ [a]) :: rest)
      else (get ((f, ps) :: rest)).map fun (p, B) => (p, [a]) :: B := rfl

theorem get_append (f p : ℕ) (ps : List ℕ) (rest : Layout) :
    get ((f, ps ++ [p]) :: rest) = some (p, (f, ps) :: rest) := by
  simp [get]

theorem get_empty (f g : ℕ) (qs : List ℕ) (rest : Layout) :
    get ((f, []) :: (g, qs) :: rest) = if g = 0 then none else get ((g, qs) :: rest) := by
  simp [get]

/-- What `get` can do to a layout that satisfies the invariant. -/
theorem Ok.get_cases {A B : Layout} {p : ℕ} (ok : A.Ok) (h : A.get = some (p, B)) :
    (∃ f ps rest, A = (f, ps ++ [p]) :: rest ∧ B = (f, ps) :: rest) ∨
      ∃ f g qs rest, g ≠ 0 ∧ A = (f, []) :: (g, qs ++ [p]) :: rest ∧ B = (g, qs) :: rest := by
  obtain _ | ⟨⟨f, ps⟩, rest⟩ := A
  · simp [get] at h
  rcases List.eq_nil_or_concat ps with rfl | ⟨ps, q, rfl⟩
  · obtain _ | ⟨⟨g, qs⟩, rest⟩ := rest
    · simp [get] at h
    have full : qs.length = stackSize - 1 := ok.below (g, qs) (by simp)
    rcases List.eq_nil_or_concat qs with rfl | ⟨qs, q, rfl⟩
    · simp [stackSize] at full
    rw [List.concat_eq_append] at h ⊢
    rw [get_empty] at h
    split_ifs at h with zero
    rw [get_append] at h
    obtain ⟨rfl, rfl⟩ := by simpa using h
    exact Or.inr ⟨f, g, qs, rest, zero, rfl, rfl⟩
  · rw [List.concat_eq_append] at h ⊢
    rw [get_append] at h
    obtain ⟨rfl, rfl⟩ := by simpa using h
    exact Or.inl ⟨f, ps, rest, rfl, rfl⟩

/-- What `markFree` can do to a layout that satisfies the invariant. -/
theorem Ok.markFree_cases {A B : Layout} {a : ℕ} (ok : A.Ok) (h : A.markFree a = some B) :
    (∃ f ps rest, ps.length < stackSize ∧ A = (f, ps) :: rest ∧ B = (f, ps ++ [a]) :: rest) ∨
      ∃ f ps p rest, ps.length + 1 = stackSize ∧ A = (f, ps ++ [p]) :: rest ∧
        B = (p, [a]) :: (f, ps) :: rest := by
  obtain _ | ⟨⟨f, ps⟩, rest⟩ := A
  · simp [markFree] at h
  have top : ps.length ≤ stackSize := ok.top (f, ps) (by simp)
  rw [markFree_cons] at h
  split_ifs at h with room
  · exact Or.inl ⟨f, ps, rest, room, rfl, by simpa using h.symm⟩
  · rcases List.eq_nil_or_concat ps with rfl | ⟨ps, p, rfl⟩
    · simp [stackSize] at room
    rw [List.concat_eq_append] at h room top ⊢
    rw [get_append] at h
    refine Or.inr ⟨f, ps, p, rest, ?_, rfl, by simpa using h.symm⟩
    simp only [List.length_append, List.length_singleton] at room top
    omega

/-- `markFree` always succeeds. -/
theorem Ok.markFree_isSome {A : Layout} (ok : A.Ok) (nonempty : A ≠ []) (a : ℕ) :
    ∃ B, A.markFree a = some B := by
  obtain _ | ⟨⟨f, ps⟩, rest⟩ := A
  · exact absurd rfl nonempty
  rw [markFree_cons]
  split_ifs with room
  · exact ⟨_, rfl⟩
  · rcases List.eq_nil_or_concat ps with rfl | ⟨ps, p, rfl⟩
    · simp [stackSize] at room
    rw [List.concat_eq_append, get_append]
    exact ⟨_, rfl⟩

/-! ### What the operations do to the pages and the frames -/

theorem Ok.get_pages {A B : Layout} {p : ℕ} (ok : A.Ok) (h : A.get = some (p, B)) :
    A.pages.Perm (p :: B.pages) := by
  rcases ok.get_cases h with ⟨f, ps, rest, rfl, rfl⟩ | ⟨f, g, qs, rest, -, rfl, rfl⟩
  · simp only [pages_cons, List.append_assoc]
    exact List.perm_middle
  · simp only [pages_cons, List.nil_append, List.append_assoc]
    exact List.perm_middle

/-- The frames left behind are lost: only the frames below them stay in use. -/
theorem Ok.get_frames {A B : Layout} {p : ℕ} (ok : A.Ok) (h : A.get = some (p, B)) :
    B.frames <:+ A.frames := by
  rcases ok.get_cases h with ⟨f, ps, rest, rfl, rfl⟩ | ⟨f, g, qs, rest, -, rfl, rfl⟩
  · exact List.suffix_rfl
  · exact List.suffix_cons _ _

theorem Ok.markFree_pages {A B : Layout} {a : ℕ} (ok : A.Ok) (h : A.markFree a = some B) :
    (A.frameTaken.toList ++ B.pages).Perm (a :: A.pages) := by
  rcases ok.markFree_cases h with ⟨f, ps, rest, room, rfl, rfl⟩ | ⟨f, ps, p, rest, full, rfl, rfl⟩
  · simp only [frameTaken, if_pos room, Option.toList_none, List.nil_append, pages_cons,
      List.append_assoc]
    exact List.perm_middle
  · have taken : frameTaken ((f, ps ++ [p]) :: rest) = some p := by simp [frameTaken, full]
    rw [taken, List.perm_iff_count]
    intro x
    simp only [Option.toList_some, pages_cons, List.count_append, List.count_cons, List.count_nil]
    omega

theorem Ok.markFree_frames {A B : Layout} {a : ℕ} (ok : A.Ok) (h : A.markFree a = some B) :
    B.frames = A.frameTaken.toList ++ A.frames := by
  rcases ok.markFree_cases h with ⟨f, ps, rest, room, rfl, rfl⟩ | ⟨f, ps, p, rest, full, rfl, rfl⟩
  · simp [frameTaken, room]
  · simp [frameTaken, full]

/-- `markFree` adds one page to the layout. -/
theorem Ok.markFree_perm {A B : Layout} {a : ℕ} (ok : A.Ok) (h : A.markFree a = some B) :
    (B.frames ++ B.pages).Perm (a :: (A.frames ++ A.pages)) := by
  have pages := List.perm_iff_count.1 (ok.markFree_pages h)
  rw [ok.markFree_frames h, List.perm_iff_count]
  intro x
  have := pages x
  simp only [List.count_append, List.count_cons] at this ⊢
  omega

/-! ### The operations keep the invariant -/

theorem Ok.get {A B : Layout} {p : ℕ} (ok : A.Ok) (h : A.get = some (p, B)) : B.Ok := by
  have pages := ok.get_pages h
  have frames := ok.get_frames h
  obtain ⟨framesNodup, pagesNodup, apart⟩ := List.nodup_append.1 ok.nodup
  refine ⟨List.nodup_append.2 ⟨framesNodup.sublist frames.sublist,
    (List.nodup_cons.1 (pages.nodup_iff.1 pagesNodup)).2, fun x hx y hy =>
      ?_⟩, fun x hx => ?_, ?_, ?_⟩
  · exact apart x (frames.subset hx) y (pages.mem_iff.2 (List.mem_cons_of_mem _ hy))
  · rcases List.mem_append.1 hx with hx | hx
    · exact ok.phys x (List.mem_append_left _ (frames.subset hx))
    · exact ok.phys x (List.mem_append_right _ (pages.mem_iff.2 (List.mem_cons_of_mem _ hx)))
  · rcases ok.get_cases h with ⟨f, ps, rest, rfl, rfl⟩ | ⟨f, g, qs, rest, -, rfl, rfl⟩
    · have := ok.top (f, ps ++ [p]) (by simp)
      simp only [List.length_append, List.length_singleton] at this
      simp only [List.head?_cons, Option.mem_some_iff, forall_eq']
      omega
    · have := ok.below (g, qs ++ [p]) (by simp)
      simp only [List.length_append, List.length_singleton, stackSize] at this
      simp only [List.head?_cons, Option.mem_some_iff, forall_eq', stackSize]
      omega
  · rcases ok.get_cases h with ⟨f, ps, rest, rfl, rfl⟩ | ⟨f, g, qs, rest, -, rfl, rfl⟩
    · exact ok.below
    · exact fun t ht => ok.below t (List.mem_cons_of_mem _ ht)

theorem Ok.markFree {A B : Layout} {a : ℕ} (ok : A.Ok) (page : PhysPage a)
    (new : a ∉ A.frames ++ A.pages) (h : A.markFree a = some B) : B.Ok := by
  have perm := ok.markFree_perm h
  refine ⟨perm.nodup_iff.2 (List.nodup_cons.2 ⟨new, ok.nodup⟩), fun x hx => ?_, ?_, ?_⟩
  · rcases List.mem_cons.1 (perm.mem_iff.1 hx) with rfl | hx
    · exact page
    · exact ok.phys x hx
  · rcases ok.markFree_cases h with ⟨f, ps, rest, room, rfl, rfl⟩ | ⟨f, ps, p, rest, -, rfl, rfl⟩
    · simpa using Nat.succ_le_of_lt room
    · simp [stackSize]
  · rcases ok.markFree_cases h with ⟨f, ps, rest, -, rfl, rfl⟩ | ⟨f, ps, p, rest, full, rfl, rfl⟩
    · exact ok.below
    · intro t ht
      rcases List.mem_cons.1 ht with rfl | ht
      · simp only
        omega
      · exact ok.below t ht

end Layout

end Vineyard
