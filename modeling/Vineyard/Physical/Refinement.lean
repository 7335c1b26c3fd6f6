import Vineyard.Physical.Layout

/-!
# Memory represents a layout

`Linked` reads the pile of stacks from memory along the `prev` links; `Pmm.Holds s A` adds that the
first stack is the one mapped at `STACK_ADDR` and that `A` satisfies the invariant.  Under `Holds`
the code refines the operations on layouts, and `allStacks` computes the layout.
-/

namespace Vineyard

open Function

/-! ## One stack -/

namespace PhysicalStack

theorem pages_length (st : PhysicalStack) : st.pages.length = st.used := by
  simp [pages]

theorem pages_update (st : PhysicalStack) (n value : ℕ) :
    pages { st with data := update st.data n value, used := n } =
      pages { st with used := n } := by
  apply List.map_congr_left
  intro i hi
  exact update_of_ne (List.mem_range.1 hi).ne _ _

theorem pages_snoc {st : PhysicalStack} {ps : List ℕ} {p : ℕ} (h : st.pages = ps ++ [p]) :
    st.used = ps.length + 1 ∧ st.data ps.length = p ∧ pages { st with used := ps.length } = ps := by
  have used : st.used = ps.length + 1 := by
    have := congrArg List.length h
    simpa [pages_length] using this
  rw [pages, used, List.range_succ, List.map_append, List.map_singleton] at h
  obtain ⟨front, last⟩ := List.append_inj' h rfl
  exact ⟨used, by simpa using last, front⟩

theorem pages_push {st : PhysicalStack} {ps : List ℕ} (h : st.pages = ps) (a : ℕ) :
    pages { st with data := update st.data st.used a, used := st.used + 1 } = ps ++ [a] := by
  have := pages_update st st.used a
  simp only [pages] at this h ⊢
  rw [List.range_succ, List.map_append, this, h, List.map_singleton, update_self]

theorem read_ok {st : PhysicalStack} {i : ℕ} (h : i < stackSize) : st.read i = .ok (st.data i) :=
  if_pos h

theorem write_ok {st : PhysicalStack} {i : ℕ} (h : i < stackSize) (value : ℕ) :
    st.write i value = .ok { st with data := update st.data i value } :=
  if_pos h

end PhysicalStack

/-! ## The pile in memory -/

/-- The stacks of `A` lie in memory, linked by `prev` down to the root stack. -/
inductive Linked (frame : ℕ → PhysicalStack) (root : ℕ) : Layout → Prop where
  | root {ps : List ℕ} (pages : (frame root).pages = ps) (prev : (frame root).prev = 0) :
      Linked frame root [(root, ps)]
  | cons {c d : ℕ} {ps qs : List ℕ} {rest : Layout} (ne : c ≠ root)
      (pages : (frame c).pages = ps) (prev : (frame c).prev = d)
      (below : Linked frame root ((d, qs) :: rest)) : Linked frame root ((c, ps) :: (d, qs) :: rest)

namespace Linked

variable {frame frame' : ℕ → PhysicalStack} {root : ℕ} {A : Layout}

theorem pages_head {c : ℕ} {ps : List ℕ} {rest : Layout} (h : Linked frame root ((c, ps) :: rest)) :
    (frame c).pages = ps := by
  cases h with
  | root pages _ => exact pages
  | cons _ pages _ _ => exact pages

theorem pages_mem (h : Linked frame root A) {c : ℕ} {ps : List ℕ} (mem : (c, ps) ∈ A) :
    (frame c).pages = ps := by
  induction h with
  | root pages _ =>
    obtain ⟨rfl, rfl⟩ := by simpa using mem
    exact pages
  | cons _ pages _ _ ih =>
    rcases List.mem_cons.1 mem with e | mem
    · obtain ⟨rfl, rfl⟩ := by simpa using e
      exact pages
    · exact ih mem

/-- The `prev` of a stack with a stack below it. -/
theorem prev_head {c d : ℕ} {ps qs : List ℕ} {rest : Layout}
    (h : Linked frame root ((c, ps) :: (d, qs) :: rest)) : (frame c).prev = d := by
  cases h with
  | cons _ _ prev _ => exact prev

theorem prev_last {c : ℕ} {ps : List ℕ} (h : Linked frame root [(c, ps)]) :
    c = root ∧ (frame c).prev = 0 := by
  cases h with
  | root _ prev => exact ⟨rfl, prev⟩

theorem tail {c d : ℕ} {ps qs : List ℕ} {rest : Layout}
    (h : Linked frame root ((c, ps) :: (d, qs) :: rest)) : Linked frame root ((d, qs) :: rest) := by
  cases h with
  | cons _ _ _ below => exact below

theorem root_mem (h : Linked frame root A) : root ∈ A.frames := by
  induction h with
  | root => simp
  | cons _ _ _ _ ih => exact List.mem_cons_of_mem _ ih

/-- Only the pages and links of the frames in use matter. -/
theorem congr (h : Linked frame root A)
    (same : ∀ f ∈ A.frames, (frame' f).pages = (frame f).pages ∧ (frame' f).prev = (frame f).prev) :
    Linked frame' root A := by
  induction h with
  | root pages prev =>
    obtain ⟨samePages, samePrev⟩ := same root (by simp)
    exact .root (samePages.trans pages) (samePrev.trans prev)
  | @cons c _ _ _ _ ne pages prev _ ih =>
    obtain ⟨samePages, samePrev⟩ := same c (by simp)
    exact .cons ne (samePages.trans pages) (samePrev.trans prev)
      (ih fun f hf => same f (List.mem_cons_of_mem _ hf))

/-- A stack may change the pages it records, as long as it keeps its link. -/
theorem set_head {c : ℕ} {ps ps' : List ℕ} {rest : Layout} (h : Linked frame root ((c, ps) :: rest))
    (nodup : (Layout.frames ((c, ps) :: rest)).Nodup) {st : PhysicalStack} (pages : st.pages = ps')
    (prev : st.prev = (frame c).prev) : Linked (update frame c st) root ((c, ps') :: rest) := by
  have other : ∀ f ∈ Layout.frames rest, update frame c st f = frame f := by
    intro f hf
    refine update_of_ne ?_ _ _
    rintro rfl
    exact (List.nodup_cons.1 nodup).1 hf
  cases h with
  | root _ last => exact .root (by rwa [update_self]) (by rw [update_self, prev, last])
  | cons ne _ link below =>
    refine .cons ne (by rwa [update_self]) (by rw [update_self, prev, link]) (below.congr ?_)
    intro f hf
    rw [other f hf]
    exact ⟨rfl, rfl⟩

theorem stacksFrom_eq (h : Linked frame root A) (fuel : ℕ) (enough : A.length ≤ fuel)
    {c : ℕ} (head : A.head?.map Prod.fst = some c) : stacksFrom frame root fuel c = A := by
  induction h generalizing fuel c with
  | root pages _ =>
    obtain rfl : root = c := by simpa using head
    obtain ⟨fuel, rfl⟩ : ∃ n, fuel = n + 1 := ⟨fuel - 1, by simp at enough; omega⟩
    simp [stacksFrom, pages]
  | @cons b d _ _ _ ne pages prev _ ih =>
    obtain rfl : b = c := by simpa using head
    obtain ⟨fuel, rfl⟩ : ∃ n, fuel = n + 1 := ⟨fuel - 1, by simp at enough; omega⟩
    rw [stacksFrom, if_neg ne, pages, prev, ih fuel (by simpa using enough) rfl]

end Linked

/-- Distinct frames are at most as many as there are physical pages. -/
theorem Layout.Ok.length_le {A : Layout} (ok : A.Ok) : A.length ≤ 2 ^ 40 := by
  have nodup : (A.frames.map (· / 0x1000)).Nodup := by
    refine (List.nodup_append.1 ok.nodup).1.map_on fun x hx y hy e => ?_
    have px := ok.phys x (List.mem_append_left _ hx)
    have py := ok.phys y (List.mem_append_left _ hy)
    have := px.aligned
    have := py.aligned
    omega
  have bounded : A.frames.map (· / 0x1000) ⊆ List.range (2 ^ 40) := by
    intro n hn
    obtain ⟨x, hx, rfl⟩ := List.mem_map.1 hn
    have := (ok.phys x (List.mem_append_left _ hx)).bounded
    rw [List.mem_range]
    omega
  have := (List.subperm_of_subset nodup bounded).length_le
  simpa [Layout.frames] using this

/-- The memory of the allocator represents the layout `A`. -/
structure Pmm.Holds (s : Pmm) (A : Layout) : Prop where
  linked : Linked s.frame s.root A
  current : A.head?.map Prod.fst = some s.current
  ok : A.Ok

namespace Pmm.Holds

variable {s : Pmm} {A : Layout}

theorem allStacks (h : s.Holds A) : s.allStacks = A :=
  h.linked.stacksFrom_eq _ h.ok.length_le h.current

theorem stackFrames (h : s.Holds A) : s.stackFrames = A.frames := by
  rw [Pmm.stackFrames, h.allStacks]
  rfl

theorem recorded (h : s.Holds A) : s.recorded = A.pages := by
  rw [Pmm.recorded, h.allStacks]
  rfl

/-- Memory represents at least the root stack. -/
theorem ne_nil (h : s.Holds A) : A ≠ [] := by
  rintro rfl
  cases h.linked

theorem current_eq {f : ℕ} {ps : List ℕ} {rest : Layout} (h : s.Holds ((f, ps) :: rest)) :
    s.current = f := by
  simpa using h.current.symm

theorem stack_pages {f : ℕ} {ps : List ℕ} {rest : Layout} (h : s.Holds ((f, ps) :: rest)) :
    s.stack.pages = ps := by
  rw [Pmm.stack, h.current_eq]
  exact h.linked.pages_head

theorem stack_used {f : ℕ} {ps : List ℕ} {rest : Layout} (h : s.Holds ((f, ps) :: rest)) :
    s.stack.used = ps.length := by
  rw [← h.stack_pages, PhysicalStack.pages_length]

theorem used_le (h : s.Holds A) : ∀ f ∈ A.frames, (s.frame f).used ≤ stackSize := by
  intro f hf
  obtain ⟨⟨g, ps⟩, mem, rfl⟩ := List.mem_map.1 hf
  rw [← PhysicalStack.pages_length, h.linked.pages_mem mem]
  obtain _ | ⟨t, rest⟩ := A
  · cases mem
  rcases List.mem_cons.1 mem with rfl | mem
  · exact h.ok.top (g, ps) (by simp)
  · have full : ps.length = stackSize - 1 := h.ok.below (g, ps) mem
    omega

theorem frames_nodup (h : s.Holds A) : A.frames.Nodup := (List.nodup_append.1 h.ok.nodup).1

/-- Rewriting the pages of the stack in use. -/
theorem setStack {f : ℕ} {ps ps' : List ℕ} {rest : Layout} (h : s.Holds ((f, ps) :: rest))
    {st : PhysicalStack} (pages : st.pages = ps') (prev : st.prev = s.stack.prev)
    (ok : Layout.Ok ((f, ps') :: rest)) : (s.setStack st).Holds ((f, ps') :: rest) := by
  refine ⟨?_, ?_, ok⟩
  · rw [Pmm.setStack, h.current_eq]
    refine h.linked.set_head h.frames_nodup pages ?_
    rw [prev, Pmm.stack, h.current_eq]
  · exact h.current

/-- Going down to the stack below. -/
theorem nextStack {f g : ℕ} {ps qs : List ℕ} {rest : Layout}
    (h : s.Holds ((f, ps) :: (g, qs) :: rest)) (ok : Layout.Ok ((g, qs) :: rest)) :
    (mmPhysicalNextStack g s).Holds ((g, qs) :: rest) := by
  refine ⟨h.linked.tail, ?_, ok⟩
  have page : PhysPage g := h.ok.phys g (by simp)
  simp [Pmm.current, mmPhysicalNextStack, page.or_present_write]

end Pmm.Holds

theorem Layout.Ok.tail {f g : ℕ} {ps qs : List ℕ} {rest : Layout}
    (ok : Layout.Ok ((f, ps) :: (g, qs) :: rest)) : Layout.Ok ((g, qs) :: rest) := by
  obtain ⟨framesNodup, pagesNodup, apart⟩ := List.nodup_append.1 ok.nodup
  refine ⟨List.nodup_append.2 ⟨(List.nodup_cons.1 framesNodup).2,
    (List.nodup_append.1 pagesNodup).2.1,
    fun x hx y hy => apart x (List.mem_cons_of_mem _ hx) y (List.mem_append_right _ hy)⟩, ?_, ?_, ?_⟩
  · intro x hx
    apply ok.phys
    rcases List.mem_append.1 hx with hx | hx
    · exact List.mem_append_left _ (List.mem_cons_of_mem _ hx)
    · exact List.mem_append_right _ (List.mem_append_right _ hx)
  · have full : qs.length = stackSize - 1 := ok.below (g, qs) (by simp)
    simp only [List.head?_cons, Option.mem_some_iff, forall_eq']
    omega
  · exact fun t ht => ok.below t (List.mem_cons_of_mem _ ht)

/-! ## The code refines the operations on layouts -/

/-- The fault of an allocator that finds no page. -/
def outOfMemory : Fault := .panic "out of physical memory"

/-- Only the window entries of the allocator change. -/
structure Pmm.SameBut (s s' : Pmm) : Prop where
  root : s'.root = s.root
  pml1 : ∀ i, i ≠ 510 → i ≠ 511 → s'.pml1 i = s.pml1 i

theorem Pmm.SameBut.trans {s t u : Pmm} (h : s.SameBut t) (h' : t.SameBut u) : s.SameBut u :=
  ⟨h'.root.trans h.root, fun i h0 h1 => (h'.pml1 i h0 h1).trans (h.pml1 i h0 h1)⟩

theorem sameBut_nextStack (addr : ℕ) (s : Pmm) : s.SameBut (mmPhysicalNextStack addr s) :=
  ⟨rfl, fun _ _ h => update_of_ne h _ _⟩

theorem sameBut_setStack (s : Pmm) (st : PhysicalStack) : s.SameBut (s.setStack st) :=
  ⟨rfl, fun _ _ _ => rfl⟩

/-- `mm_physical_get` on a stack that still records a page. -/
theorem mmPhysicalGetRec_pop {s : Pmm} {f p : ℕ} {ps : List ℕ} {rest : Layout} (fuel : ℕ)
    (h : s.Holds ((f, ps ++ [p]) :: rest)) :
    ∃ s', mmPhysicalGetRec (fuel + 1) s = .ok (p, s') ∧ s'.Holds ((f, ps) :: rest) ∧
      s'.pml1 = s.pml1 ∧ s.SameBut s' := by
  obtain ⟨used, data, pages⟩ := PhysicalStack.pages_snoc h.stack_pages
  have bound : ps.length < stackSize := by
    have top := h.ok.top (f, ps ++ [p]) (by simp)
    simp only [List.length_append, List.length_singleton] at top
    omega
  have popped : PhysicalStack.pages
      { s.stack with data := update s.stack.data ps.length 0, used := ps.length } = ps :=
    (PhysicalStack.pages_update _ _ _).trans pages
  refine ⟨_, ?_, h.setStack popped rfl (h.ok.get (Layout.get_append f p ps rest)), rfl,
    sameBut_setStack _ _⟩
  rw [mmPhysicalGetRec, if_pos (by omega)]
  simp [used, PhysicalStack.read_ok bound, PhysicalStack.write_ok bound, data]

/-- `mm_physical_get` on an empty stack looks at the stack below. -/
theorem mmPhysicalGetRec_empty {s : Pmm} {f : ℕ} {rest : Layout} (fuel : ℕ)
    (h : s.Holds ((f, []) :: rest)) :
    mmPhysicalGetRec (fuel + 1) s =
      if (s.frame f).prev ≠ 0 then mmPhysicalGetRec fuel (mmPhysicalNextStack (s.frame f).prev s)
      else .error outOfMemory := by
  have used : s.stack.used = 0 := h.stack_used
  rw [mmPhysicalGetRec, if_neg (by omega), Pmm.stack, h.current_eq]
  rfl

/-- The code and the layout agree on what `mm_physical_get` returns and when it panics. -/
theorem mmPhysicalGetRec_refines (A : Layout) (fuel : ℕ) (s : Pmm) (h : s.Holds A)
    (enough : A.length ≤ fuel) :
    match A.get with
    | some (p, B) => ∃ s', mmPhysicalGetRec fuel s = .ok (p, s') ∧ s'.Holds B ∧
        (∀ i, i ≠ 511 → s'.pml1 i = s.pml1 i) ∧ s.SameBut s'
    | none => mmPhysicalGetRec fuel s = .error outOfMemory := by
  induction A generalizing fuel s with
  | nil => exact absurd rfl h.ne_nil
  | cons t rest ih =>
    obtain ⟨f, ps⟩ := t
    obtain ⟨fuel, rfl⟩ : ∃ n, fuel = n + 1 := ⟨fuel - 1, by simp at enough; omega⟩
    rcases List.eq_nil_or_concat ps with rfl | ⟨ps, p, rfl⟩
    · rw [mmPhysicalGetRec_empty fuel h]
      obtain _ | ⟨⟨g, qs⟩, rest⟩ := rest
      · rw [(Linked.prev_last h.linked).2]
        rfl
      · rw [h.linked.prev_head, Layout.get_empty]
        by_cases zero : g = 0
        · simp [zero]
        · have below := ih fuel (mmPhysicalNextStack g s) (h.nextStack h.ok.tail)
            (by simpa using enough)
          rw [if_neg zero, if_pos zero]
          split at below
          · obtain ⟨s', run, holds, entries, same⟩ := below
            exact ⟨s', run, holds, fun i hi => (entries i hi).trans (update_of_ne hi _ _),
              (sameBut_nextStack g s).trans same⟩
          · exact below
    · rw [List.concat_eq_append] at h ⊢
      rw [Layout.get_append]
      obtain ⟨s', run, holds, entries, same⟩ := mmPhysicalGetRec_pop fuel h
      exact ⟨s', run, holds, fun i _ => congrFun entries i, same⟩

theorem mmPhysicalGet_refines {s : Pmm} {A B : Layout} {p : ℕ} (h : s.Holds A)
    (get : A.get = some (p, B)) :
    ∃ s', mmPhysicalGet s = .ok (p, s') ∧ s'.Holds B ∧
      (∀ i, i ≠ 511 → s'.pml1 i = s.pml1 i) ∧ s.SameBut s' := by
  have := mmPhysicalGetRec_refines A (2 ^ 40 + 1) s h (by have := h.ok.length_le; omega)
  rwa [get] at this

theorem mmPhysicalGet_panics {s : Pmm} {A : Layout} (h : s.Holds A) (get : A.get = none) :
    mmPhysicalGet s = .error outOfMemory := by
  have := mmPhysicalGetRec_refines A (2 ^ 40 + 1) s h (by have := h.ok.length_le; omega)
  rwa [get] at this

/-- What a call that returns has done to the layout. -/
theorem Pmm.Holds.of_get {s s' : Pmm} {A : Layout} {p : ℕ} (h : s.Holds A)
    (call : mmPhysicalGet s = .ok (p, s')) : ∃ B, A.get = some (p, B) ∧ s'.Holds B := by
  cases get : A.get with
  | none =>
    rw [mmPhysicalGet_panics h get] at call
    cases call
  | some result =>
    obtain ⟨q, B⟩ := result
    obtain ⟨t, run, holds, _⟩ := mmPhysicalGet_refines h get
    obtain ⟨rfl, rfl⟩ : q = p ∧ t = s' := by
      have := Except.ok.inj (run.symm.trans call)
      exact ⟨congrArg Prod.fst this, congrArg Prod.snd this⟩
    exact ⟨B, rfl, holds⟩

/-- Pushing a page on a stack with room. -/
theorem Pmm.Holds.push {s : Pmm} {f a : ℕ} {ps : List ℕ} {rest : Layout}
    (h : s.Holds ((f, ps) :: rest)) (room : ps.length < stackSize)
    (ok : Layout.Ok ((f, ps ++ [a]) :: rest)) :
    ∃ s', s.push a = .ok s' ∧ s'.Holds ((f, ps ++ [a]) :: rest) ∧ s.SameBut s' := by
  have pushed := PhysicalStack.pages_push h.stack_pages a
  refine ⟨_, ?_, h.setStack pushed rfl ok, sameBut_setStack _ _⟩
  simp [Pmm.push, PhysicalStack.write_ok (h.stack_used ▸ room)]

/-- The layout between the creation of a stack and the first page put on it. -/
theorem Layout.Ok.stackUp {f p : ℕ} {ps : List ℕ} {rest : Layout}
    (ok : Layout.Ok ((f, ps ++ [p]) :: rest)) (full : ps.length + 1 = stackSize) :
    Layout.Ok ((p, []) :: (f, ps) :: rest) := by
  have perm : (frames ((p, []) :: (f, ps) :: rest) ++ pages ((p, []) :: (f, ps) :: rest)).Perm
      (frames ((f, ps ++ [p]) :: rest) ++ pages ((f, ps ++ [p]) :: rest)) := by
    rw [List.perm_iff_count]
    intro x
    simp only [frames_cons, pages_cons, List.count_append, List.count_cons, List.count_nil]
    omega
  refine ⟨perm.nodup_iff.2 ok.nodup, fun x hx => ok.phys x (perm.mem_iff.1 hx), ?_, ?_⟩
  · simp
  · intro t ht
    rcases List.mem_cons.1 ht with rfl | ht
    · simp only
      omega
    · exact ok.below t ht

/-- A page taken from the full stack becomes the empty stack on top of it. -/
theorem Pmm.Holds.stackUp {s : Pmm} {f p : ℕ} {ps : List ℕ} {rest : Layout}
    (h : s.Holds ((f, ps) :: rest)) (ok : Layout.Ok ((p, []) :: (f, ps) :: rest)) :
    (s.stackUp p).Holds ((p, []) :: (f, ps) :: rest) ∧ s.SameBut (s.stackUp p) := by
  have page : PhysPage p := ok.phys p (by simp)
  have fresh : p ∉ Layout.frames ((f, ps) :: rest) :=
    (List.nodup_cons.1 (List.nodup_append.1 ok.nodup).1).1
  have ne : p ≠ f := fun e => fresh (by simp [e])
  set t := (mmPhysicalCreateStack p s).2 with ht
  set u := t.setStack { t.stack with next := p } with hu
  have current : t.current = f := by
    rw [← h.current_eq]
    simp [ht, mmPhysicalCreateStack, Pmm.current]
  have next : u.stack.next = p := by simp [hu, Pmm.stack, Pmm.setStack, Pmm.current]
  have newFrame : t.frame p = { s.frame p with prev := f, next := 0, used := 0 } := by
    have : s.pml1 511 &&& frameMask = f := h.current_eq
    simp [ht, mmPhysicalCreateStack, page.or_present_write, this]
  have oldFrame : ∀ g, g ≠ p → t.frame g = s.frame g := by
    intro g hg
    simp [ht, mmPhysicalCreateStack, page.or_present_write, hg]
  -- Writing `stack->next` changes neither the pages nor the link of a frame.
  have linkFrame : ∀ g, (u.frame g).pages = (t.frame g).pages ∧
    (u.frame g).prev = (t.frame g).prev := by
    intro g
    by_cases hg : g = f
    · subst hg
      simp [hu, Pmm.setStack, Pmm.stack, current, PhysicalStack.pages]
    · simp [hu, Pmm.setStack, current, hg]
  have up : s.stackUp p = mmPhysicalNextStack p u :=
    congrArg (mmPhysicalNextStack · u) next
  rw [up]
  refine ⟨⟨?_, ?_, ok⟩, ?_⟩
  · have below : Linked u.frame s.root ((f, ps) :: rest) := by
      refine h.linked.congr fun g hg => ?_
      rw [(linkFrame g).1, (linkFrame g).2, oldFrame g (fun e => fresh (e ▸ hg))]
      exact ⟨rfl, rfl⟩
    refine Linked.cons (fun e => fresh (e ▸ h.linked.root_mem)) ?_ ?_ below
    · change (u.frame p).pages = []
      rw [(linkFrame p).1, newFrame]
      rfl
    · change (u.frame p).prev = f
      rw [(linkFrame p).2, newFrame]
  · simp [Pmm.current, mmPhysicalNextStack, page.or_present_write]
  · refine ⟨rfl, fun i h0 h1 => ?_⟩
    simp [mmPhysicalNextStack, hu, Pmm.setStack, ht, mmPhysicalCreateStack, h0, h1]

/-- `mm_physical_mark_free` of a page that is neither recorded nor a frame. -/
theorem mmPhysicalMarkFree_refines {s : Pmm} {A B : Layout} {a : ℕ} (h : s.Holds A)
    (page : PhysPage a) (new : a ∉ A.frames ++ A.pages) (mark : A.markFree a = some B) :
    ∃ s', mmPhysicalMarkFree a s = .ok s' ∧ s'.Holds B ∧ s.SameBut s' := by
  have ok := h.ok.markFree page new mark
  rcases h.ok.markFree_cases mark with
    ⟨f, ps, rest, room, rfl, rfl⟩ | ⟨f, ps, p, rest, full, rfl, rfl⟩
  · rw [mmPhysicalMarkFree, if_pos (h.stack_used ▸ room)]
    exact h.push room ok
  · obtain ⟨s₁, run, popped, _, same⟩ := mmPhysicalGet_refines h (Layout.get_append f p ps rest)
    obtain ⟨created, same'⟩ := popped.stackUp (h.ok.stackUp full)
    obtain ⟨s₂, push, holds, same''⟩ := created.push (a := a) (by simp [stackSize]) ok
    refine ⟨s₂, ?_, holds, same.trans (same'.trans same'')⟩
    have used : ¬ s.stack.used < stackSize := by
      rw [h.stack_used]
      simp only [List.length_append, List.length_singleton]
      omega
    rw [mmPhysicalMarkFree, if_neg used, run]
    exact push

/-- The state after initialisation: one empty stack. -/
theorem mmPhysicalInitStack_holds {s : Pmm} (page : PhysPage s.root) :
    (mmPhysicalInitStack s).Holds [(s.root, [])] := by
  refine ⟨.root ?_ ?_, ?_, ⟨by simp, ?_, by simp, by simp⟩⟩
  · simp [mmPhysicalInitStack, mmPhysicalNextStack, PhysicalStack.zero, PhysicalStack.pages]
  · simp [mmPhysicalInitStack, mmPhysicalNextStack, PhysicalStack.zero]
  · simp [Pmm.current, mmPhysicalInitStack, mmPhysicalNextStack, page.or_present_write]
  · simpa using page

end Vineyard
