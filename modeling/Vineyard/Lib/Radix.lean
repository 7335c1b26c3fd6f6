import Mathlib.Logic.Basic
import Mathlib.Data.Option.Basic
import Mathlib.Tactic.Common

/-!
# Radix trees in memory

A tree of nodes whose entries may point to further nodes, as page tables are.  A path lists the
indices taken from the root, the last one first; `walk` follows it.  Some entries need not belong to
the tree (a root that points to itself, leaves), so only `Legal` paths count: `Tree` says that no node
is reached by two of them.  Then writing one entry changes the walks of the paths through that entry
and no others.  Nodes that are shared within a level (`Leveled`) still stay where they are.
-/

namespace Radix

variable {N I E : Type} {child : E → Option N} {mem mem' : N → I → E} {root c n : N} {i : I}
  {p q : List I} {Legal : List I → Prop}

/-- The node that a path leads to. -/
def walk (child : E → Option N) (mem : N → I → E) (root : N) : List I → Option N
  | [] => some root
  | i :: p => (walk child mem root p).bind fun n => child (mem n i)

theorem walk_append : walk child mem root (p ++ q) =
    (walk child mem root q).bind fun n => walk child mem n p := by
  induction p with
  | nil => simp [walk]
  | cons i p ih =>
    simp only [List.cons_append, walk, ih, Option.bind_assoc]

/-- A node that a legal path leads to. -/
def Reaches (child : E → Option N) (mem : N → I → E) (root : N) (Legal : List I → Prop) (n : N) :
    Prop :=
  ∃ p, Legal p ∧ walk child mem root p = some n

/-- No node is reached by two legal paths. -/
structure Tree (child : E → Option N) (mem : N → I → E) (root : N) (Legal : List I → Prop) :
  Prop where
  tail : ∀ i p, Legal (i :: p) → Legal p
  inj : ∀ p q n, Legal p → Legal q → walk child mem root p = some n →
    walk child mem root q = some n → p = q

/-- Walks depend only on the entries that legal paths go through. -/
theorem walk_congr (tail : ∀ i p, Legal (i :: p) → Legal p)
    (same : ∀ q m j, Legal (j :: q) → walk child mem root q = some m →
      child (mem' m j) = child (mem m j)) :
    ∀ q, Legal q → walk child mem' root q = walk child mem root q := by
  intro q
  induction q with
  | nil => exact fun _ => rfl
  | cons j q ih =>
    intro legal
    rw [walk, walk, ih (tail j q legal)]
    cases at_ : walk child mem root q with
    | none => rfl
    | some m => rw [Option.bind_some, Option.bind_some, same q m j legal at_]

/-! ## Shared nodes -/

/-- No node is reached by legal paths of different lengths. -/
structure Leveled (child : E → Option N) (mem : N → I → E) (root : N) (Legal : List I → Prop) :
  Prop where
  tail : ∀ i p, Legal (i :: p) → Legal p
  level : ∀ p q n, Legal p → Legal q → walk child mem root p = some n →
    walk child mem root q = some n → p.length = q.length

theorem Tree.leveled (tree : Tree child mem root Legal) : Leveled child mem root Legal :=
  ⟨tree.tail, fun p q n hp hq h h' => congrArg List.length (tree.inj p q n hp hq h h')⟩

section Levels

variable (leveled : Leveled child mem root Legal) (found : walk child mem root p = some n)

include leveled in
theorem Leveled.congr (walks : ∀ q, Legal q → walk child mem' root q = walk child mem root q) :
    Leveled child mem' root Legal :=
  ⟨leveled.tail, fun p q n hp hq h h' => leveled.level p q n hp hq (walks p hp ▸ h) (walks q hq ▸ h')⟩

include leveled found in
/-- Writing entries of a node on the last level changes no walk. -/
theorem Leveled.walk_setLeaves (legal : Legal p)
    (leaf : ∀ j q, q.length = p.length → ¬ Legal (j :: q))
    (same : ∀ m j, Reaches child mem root Legal m → m ≠ n → mem' m j = mem m j) :
    ∀ q, Legal q → walk child mem' root q = walk child mem root q := by
  refine walk_congr leveled.tail fun q m j legalQ at_ => ?_
  have legalTail := leveled.tail j q legalQ
  have other : m ≠ n := by
    rintro rfl
    exact leaf j q (leveled.level q p m legalTail legal at_ found) legalQ
  rw [same m j ⟨q, legalTail, at_⟩ other]

variable (same : ∀ m j, Reaches child mem root Legal m → ¬ (m = n ∧ j = i) → mem' m j = mem m j)

include leveled found same in
/-- Writing an entry of a node does not move the node. -/
theorem Leveled.walk_node (legal : Legal p) : walk child mem' root p = some n := by
  suffices kept : ∀ q, q <:+ p → Legal q → walk child mem' root q = walk child mem root q from
    (kept p List.suffix_rfl legal).trans found
  intro q
  induction q with
  | nil => exact fun _ _ => rfl
  | cons j q ih =>
    intro suffix legalQ
    have legalTail := leveled.tail j q legalQ
    rw [walk, walk, ih ((List.suffix_cons j q).trans suffix) legalTail]
    cases at_ : walk child mem root q with
    | none => rfl
    | some m =>
      have other : ¬ (m = n ∧ j = i) := by
        rintro ⟨rfl, rfl⟩
        have length := leveled.level q p m legalTail legal at_ found
        have := suffix.length_le
        rw [List.length_cons] at this
        omega
      rw [Option.bind_some, Option.bind_some, same m j ⟨q, legalTail, at_⟩ other]

variable (legal : Legal (i :: p)) (empty : child (mem n i) = none)
  (link : child (mem' n i) = some c) (blank : ∀ j, child (mem' c j) = none)

include leveled same empty in
/-- Linking a node into an empty entry keeps all nodes where they are. -/
theorem Leveled.walk_grow {m : N} : ∀ q, Legal q → walk child mem root q = some m →
    walk child mem' root q = some m := by
  intro q
  induction q generalizing m with
  | nil => exact fun _ found => found
  | cons j q ih =>
    intro legalQ at_
    rw [walk] at at_ ⊢
    obtain ⟨x, above, at_⟩ := Option.bind_eq_some_iff.1 at_
    have other : ¬ (x = n ∧ j = i) := by
      rintro ⟨rfl, rfl⟩
      rw [empty] at at_
      cases at_
    have legalTail := leveled.tail j q legalQ
    rw [ih legalTail above, Option.bind_some, same x j ⟨q, legalTail, above⟩ other, at_]

include leveled found same legal link blank in
/-- Linking a blank node into an entry adds that node, one level below. -/
theorem Leveled.walk_graft {m : N} : ∀ q, Legal q → walk child mem' root q = some m →
    walk child mem root q = some m ∨ (m = c ∧ q.length = (i :: p).length) := by
  have legalP := leveled.tail i p legal
  intro q
  induction q generalizing m with
  | nil => exact fun _ found => .inl found
  | cons j q ih =>
    intro legalQ at_
    have legalTail := leveled.tail j q legalQ
    rw [walk] at at_
    obtain ⟨x, above, at_⟩ := Option.bind_eq_some_iff.1 at_
    obtain old | ⟨rfl, _⟩ := ih legalTail above
    · by_cases here : x = n ∧ j = i
      · obtain ⟨rfl, rfl⟩ := here
        rw [link] at at_
        refine .inr ⟨(Option.some.inj at_).symm, ?_⟩
        rw [List.length_cons, List.length_cons, leveled.level q p x legalTail legalP old found]
      · rw [same x j ⟨q, legalTail, old⟩ here] at at_
        left
        rw [walk, old, Option.bind_some, at_]
    · rw [blank] at at_
      cases at_

include leveled found same legal link blank in
/-- The new node has to be new for the levels to stay apart. -/
theorem Leveled.graft (fresh : ¬ Reaches child mem root Legal c) :
    Leveled child mem' root Legal := by
  refine ⟨leveled.tail, fun q₁ q₂ m legal₁ legal₂ h₁ h₂ => ?_⟩
  obtain old₁ | ⟨rfl, length₁⟩ := leveled.walk_graft found same legal link blank q₁ legal₁ h₁
  · obtain old₂ | ⟨rfl, _⟩ := leveled.walk_graft found same legal link blank q₂ legal₂ h₂
    · exact leveled.level q₁ q₂ m legal₁ legal₂ old₁ old₂
    · exact absurd ⟨q₁, legal₁, old₁⟩ fresh
  · obtain old₂ | ⟨_, length₂⟩ := leveled.walk_graft found same legal link blank q₂ legal₂ h₂
    · exact absurd ⟨q₂, legal₂, old₂⟩ fresh
    · rw [length₁, length₂]

end Levels

/-! ## Trees -/

section Write

variable (tree : Tree child mem root Legal) (found : walk child mem root p = some n)

variable (same : ∀ m j, Reaches child mem root Legal m → ¬ (m = n ∧ j = i) → mem' m j = mem m j)

include tree in
/-- A memory with the same walks is a tree too. -/
theorem Tree.congr (walks : ∀ q, Legal q → walk child mem' root q = walk child mem root q) :
    Tree child mem' root Legal :=
  ⟨tree.tail, fun p q n hp hq h h' => tree.inj p q n hp hq (walks p hp ▸ h) (walks q hq ▸ h')⟩

variable (legal : Legal (i :: p)) (empty : child (mem n i) = none)
  (link : child (mem' n i) = some c) (blank : ∀ j, child (mem' c j) = none)

include tree found same legal empty link blank in
/-- Linking a blank node into an empty entry adds one path. -/
theorem walk_graft [DecidableEq I] : ∀ q, Legal q →
    walk child mem' root q = if q = i :: p then some c else walk child mem root q := by
  have legalP := tree.tail i p legal
  intro q
  induction q with
  | nil => exact fun _ => rfl
  | cons j q ih =>
    intro legalQ
    have legalTail := tree.tail j q legalQ
    rw [walk, ih legalTail]
    by_cases through : q = i :: p
    · -- Below the new node there is nothing, as there was nothing below the empty entry.
      subst through
      have longer : j :: i :: p ≠ i :: p := fun e => by simpa using congrArg List.length e
      rw [if_pos rfl, if_neg longer, Option.bind_some, blank, walk, walk, found,
        Option.bind_some, empty, Option.bind_none]
    · rw [if_neg through]
      cases at_ : walk child mem root q with
      | none =>
        have other : j :: q ≠ i :: p := by
          intro e
          injection e with _ e
          rw [e, found] at at_
          cases at_
        rw [if_neg other, walk, at_]
        rfl
      | some m =>
        by_cases here : m = n ∧ j = i
        · obtain ⟨rfl, rfl⟩ := here
          obtain rfl := tree.inj q p m legalTail legalP at_ found
          rw [if_pos rfl, Option.bind_some, link]
        · have other : j :: q ≠ i :: p := by
            intro e
            injection e with e₁ e₂
            rw [e₂, found] at at_
            injection at_ with e₃
            exact here ⟨e₃.symm, e₁⟩
          rw [if_neg other, Option.bind_some, same m j ⟨q, legalTail, at_⟩ here, walk, at_,
            Option.bind_some]

include tree found same legal empty link blank in
theorem reaches_graft [DecidableEq I] (t : N) : Reaches child mem' root Legal t ↔
    Reaches child mem root Legal t ∨ t = c := by
  have walks := walk_graft tree found same legal empty link blank
  constructor
  · rintro ⟨q, legalQ, h⟩
    rw [walks q legalQ] at h
    split_ifs at h with new
    · exact .inr (Option.some.inj h).symm
    · exact .inl ⟨q, legalQ, h⟩
  · rintro (⟨q, legalQ, h⟩ | rfl)
    · have old : q ≠ i :: p := by
        rintro rfl
        rw [walk, found, Option.bind_some, empty] at h
        cases h
      exact ⟨q, legalQ, by rw [walks q legalQ, if_neg old, h]⟩
    · exact ⟨i :: p, legal, by rw [walks _ legal, if_pos rfl]⟩

include tree found same legal empty link blank in
/-- The new node has to be new for the tree to stay a tree. -/
theorem Tree.graft [DecidableEq I] (fresh : ¬ Reaches child mem root Legal c) :
    Tree child mem' root Legal := by
  have walks := walk_graft tree found same legal empty link blank
  refine ⟨tree.tail, fun q₁ q₂ m legal₁ legal₂ h₁ h₂ => ?_⟩
  rw [walks _ legal₁] at h₁
  rw [walks _ legal₂] at h₂
  split_ifs at h₁ h₂ with new₁ new₂ new₂
  · rw [new₁, new₂]
  · injection h₁ with e
    exact absurd ⟨q₂, legal₂, e ▸ h₂⟩ fresh
  · injection h₂ with e
    exact absurd ⟨q₁, legal₁, e ▸ h₁⟩ fresh
  · exact tree.inj q₁ q₂ m legal₁ legal₂ h₁ h₂

end Write

end Radix
