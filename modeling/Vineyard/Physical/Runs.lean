import Vineyard.Physical.Refinement

/-!
# Runs of the physical page allocator

A run starts with one empty root stack and makes any calls of `mm_physical_mark_free` on pages that
are neither recorded nor a stack frame, and of `mm_physical_get`; between the calls the owners of
the other pages may write to them.  The history of a run lists what happened to pages, newest
first.  `PmmRun.inv` ties history and memory together: recorded pages are those last marked free,
and a page held by a caller is neither recorded nor a frame.
-/

namespace Vineyard

/-- What happens to a page. -/
inductive PmmEvent where
  /-- `mm_physical_mark_free` was called on the page. -/
  | marked (page : ℕ)
  /-- `mm_physical_mark_free` took the page as the frame of a new stack. -/
  | framed (page : ℕ)
  /-- `mm_physical_get` returned the page to its caller. -/
  | got (page : ℕ)
  deriving DecidableEq

namespace PmmEvent

def page : PmmEvent → ℕ
  | marked a => a
  | framed a => a
  | got a => a

def isMarked : PmmEvent → Bool
  | marked _ => true
  | _ => false

def isFramed : PmmEvent → Bool
  | framed _ => true
  | _ => false

def isGot : PmmEvent → Bool
  | got _ => true
  | _ => false

end PmmEvent

/-- What happened to a page last. -/
def lastEvent (es : List PmmEvent) (a : ℕ) : Option PmmEvent := es.find? fun e => e.page = a

theorem lastEvent_cons (e : PmmEvent) (es : List PmmEvent) (a : ℕ) :
    lastEvent (e :: es) a = if e.page = a then some e else lastEvent es a := by
  by_cases h : e.page = a <;> simp [lastEvent, h]

/-- The page that a call of `mm_physical_mark_free` takes for a new stack. -/
def Pmm.frameTaken (s : Pmm) : Option ℕ :=
  if s.stack.used < stackSize then none else (mmPhysicalGet s).toOption.map Prod.fst

/-- Runs of the allocator, with their histories. -/
inductive PmmRun : List PmmEvent → Pmm → Prop where
  | init (s : Pmm) (page : PhysPage s.root) : PmmRun [] (mmPhysicalInitStack s)
  | markFree {es : List PmmEvent} {s s' : Pmm} {a : ℕ} (run : PmmRun es s) (page : PhysPage a)
      (notRecorded : a ∉ s.recorded) (notFrame : a ∉ s.stackFrames)
      (call : mmPhysicalMarkFree a s = .ok s') :
      PmmRun (.marked a :: (s.frameTaken.toList.map .framed ++ es)) s'
  | get {es : List PmmEvent} {s s' : Pmm} {a : ℕ} (run : PmmRun es s)
      (call : mmPhysicalGet s = .ok (a, s')) : PmmRun (.got a :: es) s'
  /-- The owners of pages that are not stack frames write to them. -/
  | write {es : List PmmEvent} {s : Pmm} (run : PmmRun es s) (frame : ℕ → PhysicalStack)
      (same : ∀ f ∈ s.stackFrames, frame f = s.frame f) : PmmRun es { s with frame := frame }

theorem Pmm.Holds.frameTaken {s : Pmm} {A : Layout} (h : s.Holds A) :
    s.frameTaken = A.frameTaken := by
  obtain _ | ⟨⟨f, ps⟩, rest⟩ := A
  · exact absurd rfl h.ne_nil
  rw [Pmm.frameTaken, h.stack_used, Layout.frameTaken]
  split_ifs with room
  · rfl
  · rcases List.eq_nil_or_concat ps with rfl | ⟨ps, p, rfl⟩
    · simp [stackSize] at room
    rw [List.concat_eq_append] at h ⊢
    obtain ⟨s', run, _⟩ := mmPhysicalGet_refines h (Layout.get_append f p ps rest)
    simp [run, Except.toOption]

/-! ## The invariant of runs -/

/-- The history agrees with the frames and the recorded pages. -/
structure Book (es : List PmmEvent) (frames pages : List ℕ) : Prop where
  held : ∀ a, lastEvent es a = some (.got a) → a ∉ frames ++ pages
  free : ∀ a ∈ pages, lastEvent es a = some (.marked a)
  count : es.countP PmmEvent.isMarked =
    es.countP PmmEvent.isGot + es.countP PmmEvent.isFramed + pages.length

namespace Book

variable {es : List PmmEvent} {frames frames' pages pages' : List ℕ} {p : ℕ}

/-- A recorded page goes to a caller. -/
theorem got (book : Book es frames pages) (taken : pages.Perm (p :: pages'))
    (nodup : (frames ++ pages).Nodup) (sub : frames' ⊆ frames) :
    Book (.got p :: es) frames' pages' := by
  obtain ⟨_, pagesNodup, apart⟩ := List.nodup_append.1 nodup
  have gone : p ∉ pages' := (List.nodup_cons.1 (taken.nodup_iff.1 pagesNodup)).1
  have old : ∀ a ∈ pages', a ∈ pages := fun a ha => taken.mem_iff.2 (List.mem_cons_of_mem _ ha)
  refine ⟨fun a held => ?_, fun a ha => ?_, ?_⟩
  · rw [lastEvent_cons] at held
    rw [List.mem_append, not_or]
    split_ifs at held with e
    · obtain rfl : p = a := e
      exact ⟨fun hf => apart p (sub hf) p (taken.mem_iff.2 (by simp)) rfl, gone⟩
    · have out := book.held a held
      rw [List.mem_append, not_or] at out
      exact ⟨fun hf => out.1 (sub hf), fun hp => out.2 (old a hp)⟩
  · have ne : (PmmEvent.got p).page ≠ a := by
      rintro rfl
      exact gone ha
    rw [lastEvent_cons, if_neg ne]
    exact book.free a (old a ha)
  · have := book.count
    have := taken.length_eq
    simp only [List.length_cons] at this
    simp only [List.countP_cons, PmmEvent.isMarked, PmmEvent.isGot, PmmEvent.isFramed,
      Bool.false_eq_true, if_false, if_true]
    omega

/-- A recorded page becomes a frame. -/
theorem framed (book : Book es frames pages) (taken : pages.Perm (p :: pages'))
    (nodup : pages.Nodup) : Book (.framed p :: es) (p :: frames) pages' := by
  have gone : p ∉ pages' := (List.nodup_cons.1 (taken.nodup_iff.1 nodup)).1
  have old : ∀ a ∈ pages', a ∈ pages := fun a ha => taken.mem_iff.2 (List.mem_cons_of_mem _ ha)
  refine ⟨fun a held => ?_, fun a ha => ?_, ?_⟩
  · rw [lastEvent_cons] at held
    split_ifs at held with e
    · cases held
    · have out := book.held a held
      rw [List.mem_append, not_or] at out
      simp only [List.cons_append, List.mem_cons, List.mem_append, not_or]
      exact ⟨fun h => e h.symm, out.1, fun hp => out.2 (old a hp)⟩
  · have ne : (PmmEvent.framed p).page ≠ a := by
      rintro rfl
      exact gone ha
    rw [lastEvent_cons, if_neg ne]
    exact book.free a (old a ha)
  · have := book.count
    have := taken.length_eq
    simp only [List.length_cons] at this
    simp only [List.countP_cons, PmmEvent.isMarked, PmmEvent.isGot, PmmEvent.isFramed,
      Bool.false_eq_true, if_false, if_true]
    omega

/-- A page becomes recorded. -/
theorem marked (book : Book es frames pages) (put : pages'.Perm (p :: pages)) :
    Book (.marked p :: es) frames pages' := by
  refine ⟨fun a held => ?_, fun a ha => ?_, ?_⟩
  · rw [lastEvent_cons] at held
    split_ifs at held with e
    · cases held
    · have out := book.held a held
      rw [List.mem_append, not_or] at out ⊢
      refine ⟨out.1, fun hp => ?_⟩
      rcases List.mem_cons.1 (put.mem_iff.1 hp) with rfl | hp
      · exact e rfl
      · exact out.2 hp
  · rw [lastEvent_cons]
    split_ifs with e
    · rw [show p = a from e]
    · rcases List.mem_cons.1 (put.mem_iff.1 ha) with rfl | ha
      · exact absurd rfl e
      · exact book.free a ha
  · have := book.count
    have := put.length_eq
    simp only [List.length_cons] at this
    simp only [List.countP_cons, PmmEvent.isMarked, PmmEvent.isGot, PmmEvent.isFramed,
      Bool.false_eq_true, if_false, if_true]
    omega

/-- One call of `mm_physical_mark_free` takes at most one frame and records one page. -/
theorem markFree {A B : Layout} {a : ℕ} (book : Book es A.frames A.pages) (ok : A.Ok)
    (h : A.markFree a = some B) :
    Book (.marked a :: (A.frameTaken.toList.map .framed ++ es)) B.frames B.pages := by
  have pages := ok.markFree_pages h
  rw [ok.markFree_frames h]
  cases taken : A.frameTaken with
  | none =>
    rw [taken] at pages
    exact book.marked pages
  | some f =>
    rcases ok.markFree_cases h with ⟨g, ps, rest, room, rfl, -⟩ | ⟨g, ps, p, rest, full, rfl, rfl⟩
    · simp [Layout.frameTaken, room] at taken
    · obtain rfl : p = f := by simpa [Layout.frameTaken, full] using taken
      have frameTaken : (Layout.pages ((g, ps ++ [p]) :: rest)).Perm
          (p :: Layout.pages ((g, ps) :: rest)) := by
        simp only [Layout.pages_cons, List.append_assoc]
        exact List.perm_middle
      exact (book.framed frameTaken (List.nodup_append.1 ok.nodup).2.1).marked (List.Perm.refl _)

end Book

/-- In every run memory represents a layout that the history agrees with. -/
theorem PmmRun.inv {es : List PmmEvent} {s : Pmm} (run : PmmRun es s) :
    ∃ A, s.Holds A ∧ Book es A.frames A.pages := by
  induction run with
  | init s page =>
    refine ⟨_, mmPhysicalInitStack_holds page, ?_, ?_, ?_⟩ <;> simp [lastEvent]
  | @markFree es s s' a run page notRecorded notFrame call ih =>
    obtain ⟨A, holds, book⟩ := ih
    rw [holds.recorded] at notRecorded
    rw [holds.stackFrames] at notFrame
    have new : a ∉ A.frames ++ A.pages := by
      rw [List.mem_append, not_or]
      exact ⟨notFrame, notRecorded⟩
    obtain ⟨B, mark⟩ := holds.ok.markFree_isSome holds.ne_nil a
    obtain ⟨t, run, holds', _⟩ := mmPhysicalMarkFree_refines holds page new mark
    obtain rfl : t = s' := Except.ok.inj (run.symm.trans call)
    refine ⟨B, holds', ?_⟩
    rw [holds.frameTaken]
    exact book.markFree holds.ok mark
  | @get es s s' a run call ih =>
    obtain ⟨A, holds, book⟩ := ih
    obtain ⟨B, get, holds'⟩ := holds.of_get call
    exact ⟨B, holds', book.got (holds.ok.get_pages get) holds.ok.nodup
      (holds.ok.get_frames get).subset⟩
  | @write es s run frame same ih =>
    obtain ⟨A, holds, book⟩ := ih
    rw [holds.stackFrames] at same
    refine ⟨A, ⟨holds.linked.congr fun f hf => ?_, holds.current, holds.ok⟩, book⟩
    exact ⟨congrArg PhysicalStack.pages (same f hf), congrArg PhysicalStack.prev (same f hf)⟩

/-! ## Marking several pages -/

/-- Mark pages free one after the other. -/
def markFreeAll (as : List ℕ) (s : Pmm) : Except Fault Pmm :=
  as.foldlM (fun s a => mmPhysicalMarkFree a s) s

namespace Layout

def markAll (as : List ℕ) (A : Layout) : Option Layout := as.foldlM (fun A a => A.markFree a) A

theorem markAll_nil (A : Layout) : markAll [] A = some A := rfl

theorem markAll_cons (a : ℕ) (as : List ℕ) (A : Layout) :
    markAll (a :: as) A = (A.markFree a).bind (markAll as) := rfl

theorem markAll_append (as bs : List ℕ) (A : Layout) :
    markAll (as ++ bs) A = (markAll as A).bind (markAll bs) := List.foldlM_append

/-- Pages that fit on the stack in use are put there. -/
theorem markAll_room (f : ℕ) (ps as : List ℕ) (rest : Layout)
    (room : ps.length + as.length ≤ stackSize) :
    markAll as ((f, ps) :: rest) = some ((f, ps ++ as) :: rest) := by
  induction as generalizing ps with
  | nil => simp [markAll]
  | cons a as ih =>
    simp only [List.length_cons] at room
    rw [markAll_cons, markFree_cons, if_pos (by omega), Option.bind_some, ih (ps ++ [a])]
    · simp
    · simp only [List.length_append, List.length_singleton]
      omega

/-- A page that does not fit goes on a new stack. -/
theorem markAll_full (a f p : ℕ) (ps as : List ℕ) (rest : Layout) (full : ps.length + 1 = stackSize) :
    markAll (a :: as) ((f, ps ++ [p]) :: rest) = markAll as ((p, [a]) :: (f, ps) :: rest) := by
  rw [markAll_cons, markFree_cons, if_neg (by simp [full]), get_append]
  rfl

end Layout

/-- Marking new pages always succeeds, follows the layout, and continues any run. -/
theorem markFreeAll_refines {s : Pmm} {A : Layout} (holds : s.Holds A) (as : List ℕ)
    (nodup : (as ++ (A.frames ++ A.pages)).Nodup) (pages : ∀ a ∈ as, PhysPage a) :
    ∃ s' B, markFreeAll as s = .ok s' ∧ A.markAll as = some B ∧ s'.Holds B ∧
      (B.frames ++ B.pages).Perm (as ++ (A.frames ++ A.pages)) ∧
      ∀ es, PmmRun es s → ∃ es', PmmRun es' s' := by
  induction as generalizing s A with
  | nil => exact ⟨s, A, rfl, rfl, holds, List.Perm.refl _, fun es run => ⟨es, run⟩⟩
  | cons a as ih =>
    rw [List.cons_append, List.nodup_cons, List.mem_append, not_or] at nodup
    have page : PhysPage a := pages a (by simp)
    obtain ⟨B, mark⟩ := holds.ok.markFree_isSome holds.ne_nil a
    obtain ⟨t, call, holds', _⟩ := mmPhysicalMarkFree_refines holds page nodup.1.2 mark
    have perm := holds.ok.markFree_perm mark
    have fresh : (as ++ (B.frames ++ B.pages)).Nodup := by
      rw [(perm.append_left as).nodup_iff, List.nodup_middle, List.nodup_cons,
        List.mem_append, not_or]
      exact nodup
    obtain ⟨s', C, calls, marks, holds'', perm', runs⟩ :=
      ih holds' fresh fun x hx => pages x (List.mem_cons_of_mem _ hx)
    refine ⟨s', C, ?_, ?_, holds'', ?_, fun es run => ?_⟩
    · rw [markFreeAll, List.foldlM_cons, call]
      exact calls
    · rw [Layout.markAll_cons, mark]
      exact marks
    · exact perm'.trans ((perm.append_left as).trans List.perm_middle)
    · have out := nodup.1.2
      rw [List.mem_append, not_or] at out
      exact runs _ (run.markFree page (by rw [holds.recorded]; exact out.2)
        (by rw [holds.stackFrames]; exact out.1) call)

/-! ## Safety -/

/-- Over whole runs no stack is overrun, no page is recorded twice or while it is a stack frame, and
every page handed out was marked free and has had no other owner since. -/
theorem PmmRun.safe {es : List PmmEvent} {s : Pmm} (run : PmmRun es s) :
    (∀ f ∈ s.stackFrames, (s.frame f).used ≤ stackSize) ∧
    s.recorded.Nodup ∧
    (∀ a ∈ s.recorded, a ∉ s.stackFrames) ∧
    (∀ a, lastEvent es a = some (.got a) → a ∉ s.stackFrames ∧ a ∉ s.recorded) ∧
    (∀ a s', mmPhysicalGet s = .ok (a, s') →
      lastEvent es a = some (.marked a) ∧ a ∉ s'.stackFrames) ∧
    ((∃ a s', mmPhysicalGet s = .ok (a, s')) ∨ mmPhysicalGet s = .error outOfMemory) ∧
    (∀ a, PhysPage a → a ∉ s.recorded → a ∉ s.stackFrames →
      ∃ s', mmPhysicalMarkFree a s = .ok s') := by
  obtain ⟨A, holds, book⟩ := run.inv
  obtain ⟨_, pagesNodup, apart⟩ := List.nodup_append.1 holds.ok.nodup
  rw [holds.recorded, holds.stackFrames]
  refine ⟨holds.used_le, pagesNodup, fun a ha hf => apart a hf a ha rfl, fun a held => ?_,
    fun a s' call => ?_, ?_, fun a page notRecorded notFrame => ?_⟩
  · have out := book.held a held
    rwa [List.mem_append, not_or] at out
  · obtain ⟨B, get, holds'⟩ := holds.of_get call
    have taken := holds.ok.get_pages get
    have recorded : a ∈ A.pages := taken.mem_iff.2 (by simp)
    rw [holds'.stackFrames]
    exact ⟨book.free a recorded, fun hf =>
      apart a ((holds.ok.get_frames get).subset hf) a recorded rfl⟩
  · cases get : A.get with
    | none => exact Or.inr (mmPhysicalGet_panics holds get)
    | some result =>
      obtain ⟨s', call, _⟩ := mmPhysicalGet_refines holds get
      exact Or.inl ⟨_, s', call⟩
  · have new : a ∉ A.frames ++ A.pages := by
      rw [List.mem_append, not_or]
      exact ⟨notFrame, notRecorded⟩
    obtain ⟨B, mark⟩ := holds.ok.markFree_isSome holds.ne_nil a
    obtain ⟨s', call, _⟩ := mmPhysicalMarkFree_refines holds page new mark
    exact ⟨s', call⟩

/-- A machine whose root stack lies at 256 MiB, before the allocator is initialised. -/
def pmmAt256M : Pmm := ⟨fun _ => 0, fun _ => .zero, 0x10000000⟩

theorem pmmAt256M_run : PmmRun [] (mmPhysicalInitStack pmmAt256M) :=
  .init pmmAt256M (by decide)

theorem pmmAt256M_holds : (mmPhysicalInitStack pmmAt256M).Holds [(0x10000000, [])] :=
  mmPhysicalInitStack_holds (s := pmmAt256M) (by decide)

/-- Pages below 256 MiB, given by their numbers. -/
def pagesOf (ns : List ℕ) : List ℕ := ns.map (0x1000 * ·)

theorem pagesOf_append (ns ms : List ℕ) : pagesOf (ns ++ ms) = pagesOf ns ++ pagesOf ms :=
  List.map_append

theorem pagesOf_length (ns : List ℕ) : (pagesOf ns).length = ns.length := List.length_map _

theorem pagesOf_nodup {ns : List ℕ} (nodup : ns.Nodup) (bound : ∀ n ∈ ns, n < 0x10000) :
    (pagesOf ns ++ [0x10000000]).Nodup := by
  have multiples : Function.Injective (0x1000 * · : ℕ → ℕ) := fun x y h =>
    Nat.eq_of_mul_eq_mul_left (by decide) h
  refine List.nodup_append.2 ⟨nodup.map multiples, List.nodup_singleton _, ?_⟩
  intro a ha b hb
  obtain ⟨n, hn, rfl⟩ := List.mem_map.1 ha
  have := bound n hn
  rw [List.mem_singleton] at hb
  omega

theorem pagesOf_page {ns : List ℕ} (bound : ∀ n ∈ ns, n < 0x10000) :
    ∀ a ∈ pagesOf ns, PhysPage a := by
  intro a ha
  obtain ⟨n, hn, rfl⟩ := List.mem_map.1 ha
  have := bound n hn
  constructor <;> omega

/-- 511 pages: the first 509 fill the root stack, and the last of them becomes the frame for the
other two. -/
def overflowOrder : List ℕ := List.range' 1 507 ++ ([508, 509] ++ 510 :: [511])

theorem overflowOrder_nodup : overflowOrder.Nodup := by
  simp only [overflowOrder, List.nodup_append, List.nodup_cons, List.mem_cons, List.mem_append,
    List.mem_range'_1, List.not_mem_nil, List.nodup_nil, or_false]
  refine ⟨List.nodup_range', by simp, ?_⟩
  intros
  omega

theorem overflowOrder_bound : ∀ n ∈ overflowOrder, n < 0x10000 := by
  intro n hn
  simp only [overflowOrder, List.mem_append, List.mem_cons, List.mem_range'_1, List.not_mem_nil,
    or_false] at hn
  omega

theorem Layout.markAll_overflow (root a b c d : ℕ) (ps : List ℕ)
    (length : ps.length + 2 = stackSize) :
    markAll (ps ++ ([a, b] ++ c :: [d])) [(root, [])] = some [(b, [c, d]), (root, ps ++ [a])] := by
  rw [show ps ++ ([a, b] ++ c :: [d]) = (ps ++ [a, b]) ++ c :: [d] by simp, markAll_append,
    markAll_room _ _ _ _ (by simp; omega), Option.bind_some,
    show [] ++ (ps ++ [a, b]) = (ps ++ [a]) ++ [b] by simp,
    markAll_full _ _ _ _ _ _ (by simp; omega), markAll_room _ _ _ _ (by simp [stackSize])]
  rfl

/-- After these pages two are on the stack in use, which is page 509. -/
theorem pmmAt256M_overflow : ∃ es s, PmmRun es s ∧
    s.Holds [(0x1000 * 509, [0x1000 * 510, 0x1000 * 511]),
      (0x10000000, pagesOf (List.range' 1 507) ++ [0x1000 * 508])] := by
  obtain ⟨s, A, _, marks, holds, _, runs⟩ := markFreeAll_refines pmmAt256M_holds
    (pagesOf overflowOrder) (pagesOf_nodup overflowOrder_nodup overflowOrder_bound)
    (pagesOf_page overflowOrder_bound)
  obtain ⟨es, run⟩ := runs _ pmmAt256M_run
  have length : (pagesOf (List.range' 1 507)).length + 2 = stackSize := by
    simp [pagesOf_length, stackSize]
  rw [overflowOrder, pagesOf_append] at marks
  obtain rfl := Option.some.inj ((Layout.markAll_overflow 0x10000000 (0x1000 * 508) (0x1000 * 509)
    (0x1000 * 510) (0x1000 * 511) _ length).symm.trans marks)
  exact ⟨es, s, run, holds⟩

/-- Three pages are taken, the last of them from the stack below, and the first is the caller's. -/
theorem PmmRun.safe_got : ∃ es s,
    PmmRun (.got (0x1000 * 508) :: .got (0x1000 * 510) :: .got (0x1000 * 511) :: es) s ∧
      0x1000 * 511 ∉ s.stackFrames ∧ 0x1000 * 511 ∉ s.recorded := by
  obtain ⟨es, s, run, holds⟩ := pmmAt256M_overflow
  obtain ⟨s₁, first, holds₁, _⟩ := mmPhysicalGet_refines holds
    (Layout.get_append _ (0x1000 * 511) [0x1000 * 510] _)
  obtain ⟨s₂, second, holds₂, _⟩ := mmPhysicalGet_refines holds₁
    (Layout.get_append _ (0x1000 * 510) [] _)
  obtain ⟨s₃, third, _⟩ := mmPhysicalGet_refines holds₂
    (by rw [Layout.get_empty, if_neg (by decide), Layout.get_append])
  have run₃ := ((run.get first).get second).get third
  exact ⟨es, s₃, run₃, (PmmRun.safe run₃).2.2.2.1 (0x1000 * 511) rfl⟩

end Vineyard
