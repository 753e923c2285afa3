import Mathlib.Data.Finset.Card
import Mathlib.Data.Finset.Max
import Mathlib.Logic.Relation
import Mathlib.Order.WellFounded

/-!
# Reachability, graph searches and acyclicity

General facts about a relation `edge` on an arbitrary type. A search keeps a set of
expanded vertices and a set of pending ones; `Frontier` is the invariant that every such
search maintains, whatever order its queue or stack imposes, and an empty pending set
turns it into exact reachability.

Acyclicity over a finite carrier supplies a numeric rank that grows along every edge, so
that recursions over a dependency order can be justified by counting.
-/

namespace Forge.Common

open Relation

variable {α : Type*} {edge : α → α → Prop}

/-- The vertices reached from some root by zero or more edges. -/
def reachSet (edge : α → α → Prop) (roots : Set α) : Set α :=
  {b | ∃ a ∈ roots, ReflTransGen edge a b}

/-- The search invariant: everything seen is reachable, the roots are seen, and an edge
never leaves the expanded vertices for an unseen one. -/
structure Frontier (edge : α → α → Prop) (roots done pending : Set α) : Prop where
  reached : done ∪ pending ⊆ reachSet edge roots
  covers : roots ⊆ done ∪ pending
  closed : ∀ a ∈ done, ∀ b, edge a b → b ∈ done ∪ pending

/-- A search starts with its roots pending. -/
theorem Frontier.start (edge : α → α → Prop) (roots : Set α) : Frontier edge roots ∅ roots where
  reached := fun a ha => ⟨a, by simpa using ha, .refl⟩
  covers := by simp
  closed := by simp

/-- One search step: nothing seen is forgotten, a new vertex is a successor of a seen one,
and the successors of a newly expanded vertex are seen. -/
theorem Frontier.advance {roots done pending done' pending' : Set α}
    (h : Frontier edge roots done pending)
    (hkeep : done ∪ pending ⊆ done' ∪ pending')
    (hnew : ∀ b ∈ done' ∪ pending', b ∈ done ∪ pending ∨ ∃ a ∈ done ∪ pending, edge a b)
    (hexpand : ∀ a ∈ done', a ∉ done → ∀ b, edge a b → b ∈ done' ∪ pending') :
    Frontier edge roots done' pending' where
  reached := by
    intro b hb
    rcases hnew b hb with hold | ⟨a, ha, hab⟩
    · exact h.reached hold
    · obtain ⟨root, hroot, hpath⟩ := h.reached ha
      exact ⟨root, hroot, hpath.tail hab⟩
  covers := h.covers.trans hkeep
  closed := by
    intro a ha b hab
    by_cases hdone : a ∈ done
    · exact hkeep (h.closed a hdone b hab)
    · exact hexpand a ha hdone b hab

/-- Once nothing is pending the expanded vertices are exactly the reachable ones. -/
theorem Frontier.complete {roots done : Set α} (h : Frontier edge roots done ∅) :
    done = reachSet edge roots := by
  refine Set.Subset.antisymm (fun a ha => h.reached (Or.inl ha)) ?_
  rintro b ⟨a, ha, hpath⟩
  induction hpath with
  | refl => simpa using h.covers ha
  | tail _ hbc ih => simpa using h.closed _ ih _ hbc

/-- A vertex seen by a search is reached from a root, before the search ends. -/
theorem Frontier.sound {roots done pending : Set α} (h : Frontier edge roots done pending)
    {b : α} (hb : b ∈ done ∪ pending) : ∃ a ∈ roots, ReflTransGen edge a b :=
  h.reached hb

/-- A path that never leaves the vertices satisfying `p` can be cut at its first edge. -/
theorem reflTransGen_iff_eq_or_head {a b : α} :
    ReflTransGen edge a b ↔ a = b ∨ ∃ c, edge a c ∧ ReflTransGen edge c b := by
  constructor
  · intro h
    rcases ReflTransGen.cases_head h with rfl | ⟨c, hac, hcb⟩
    · exact Or.inl rfl
    · exact Or.inr ⟨c, hac, hcb⟩
  · rintro (rfl | ⟨c, hac, hcb⟩)
    · exact .refl
    · exact .head hac hcb

/-- No vertex reaches itself by one or more edges. -/
def Acyclic (edge : α → α → Prop) : Prop := ∀ a, ¬ TransGen edge a a

/-- In an acyclic relation mutual reachability is equality. -/
theorem Acyclic.antisymm (h : Acyclic edge) {a b : α} (hab : ReflTransGen edge a b)
    (hba : ReflTransGen edge b a) : a = b := by
  rcases ReflTransGen.cases_head hab with rfl | ⟨c, hac, hcb⟩
  · rfl
  · exact absurd (TransGen.head' hac (hcb.trans hba)) (h a)

/-- An acyclic relation has no loop edge. -/
theorem Acyclic.irrefl (h : Acyclic edge) {a b : α} (hab : edge a b) : a ≠ b := by
  rintro rfl
  exact h a (.single hab)

/-- A path of the relation enlarged by one edge either avoids that edge or runs through it. -/
theorem reflTransGen_insert_edge {tail head a b : α}
    (h : ReflTransGen (fun x y => edge x y ∨ (x = tail ∧ y = head)) a b) :
    ReflTransGen edge a b ∨ (ReflTransGen edge a tail ∧ ReflTransGen edge head b) := by
  induction h with
  | refl => exact Or.inl .refl
  | tail _ hstep ih =>
    rcases hstep with hedge | ⟨rfl, rfl⟩
    · rcases ih with hpath | ⟨hto, hfrom⟩
      · exact Or.inl (hpath.tail hedge)
      · exact Or.inr ⟨hto, hfrom.tail hedge⟩
    · rcases ih with hpath | ⟨hto, _⟩
      · exact Or.inr ⟨hpath, .refl⟩
      · exact Or.inr ⟨hto, .refl⟩

/-- An edge whose head does not reach its tail closes no cycle. -/
theorem Acyclic.insert_edge (h : Acyclic edge) {tail head : α}
    (hback : ¬ ReflTransGen edge head tail) :
    Acyclic (fun x y => edge x y ∨ (x = tail ∧ y = head)) := by
  intro a hcycle
  obtain ⟨b, hstep, hpath⟩ := TransGen.head'_iff.mp hcycle
  rcases hstep with hedge | ⟨rfl, rfl⟩
  · rcases reflTransGen_insert_edge hpath with hpath | ⟨hto, hfrom⟩
    · exact h a (TransGen.head' hedge hpath)
    · exact hback (hfrom.trans (.head hedge hto))
  · rcases reflTransGen_insert_edge hpath with hpath | ⟨hto, _⟩
    · exact hback hpath
    · exact hback hto

/-- There is no cycle in the order of numbers. -/
theorem acyclic_lt : Acyclic fun a b : ℕ => a < b := by
  intro a hcycle
  rw [transGen_eq_self] at hcycle
  exact lt_irrefl a hcycle

/-- A relation that implies an acyclic one is acyclic. -/
theorem Acyclic.mono {other : α → α → Prop} (h : Acyclic edge)
    (hle : ∀ a b, other a b → edge a b) : Acyclic other :=
  fun a hcycle => h a (TransGen.mono hle a a hcycle)

section Order

/-- Every vertex of a list comes after the vertices from which edges lead to it. -/
def Follows (edge : α → α → Prop) (order : List α) : Prop :=
  ∀ earlier b later, order = earlier ++ b :: later → ∀ a, edge a b → a ∈ earlier

/-- A list without vertices is in order. -/
theorem Follows.nil (edge : α → α → Prop) : Follows edge [] :=
  fun _ _ _ heq => absurd heq (List.append_ne_nil_of_right_ne_nil _ (List.cons_ne_nil _ _)).symm

/-- A vertex may come next when those from which edges lead to it are there. -/
theorem Follows.concat {order : List α} (h : Follows edge order) {b : α} (hb : ∀ a, edge a b → a ∈ order) :
    Follows edge (order ++ [b]) := by
  intro earlier c later heq a hedge
  rcases List.eq_nil_or_concat later with rfl | ⟨later, last, rfl⟩
  · obtain ⟨rfl, hlast⟩ := List.append_inj' heq rfl
    obtain rfl := List.singleton_inj.mp hlast
    exact hb a hedge
  · rw [List.concat_eq_append, ← List.cons_append, ← List.append_assoc] at heq
    exact h earlier c later (List.append_inj' heq rfl).1 a hedge

/-- Edges have no cycle when a list in order has all vertices to which they lead. -/
theorem Follows.acyclic {order : List α} (h : Follows edge order) (hall : ∀ a b, edge a b → b ∈ order) :
    Acyclic edge := by
  classical
  have hlt : ∀ a b, edge a b → order.idxOf a < order.idxOf b := by
    intro a b hedge
    obtain ⟨earlier, later, heq, hnew⟩ := List.eq_append_cons_of_mem (hall a b hedge)
    have ha := h earlier b later heq a hedge
    rw [heq, List.idxOf_append_of_mem ha, List.idxOf_append_of_notMem hnew, List.idxOf_cons_self]
    exact List.idxOf_lt_length_of_mem ha
  intro a hcycle
  exact acyclic_lt (order.idxOf a) (TransGen.lift order.idxOf hlt a a hcycle)

end Order

section Rank

open scoped Classical in
/-- How many vertices of the carrier lie strictly before a vertex. -/
noncomputable def rank (edge : α → α → Prop) (carrier : Finset α) (b : α) : ℕ :=
  (carrier.filter fun a => TransGen edge a b).card

/-- Along an edge out of the carrier the rank grows, provided there is no cycle. -/
theorem Acyclic.rank_lt (h : Acyclic edge) {carrier : Finset α} {a b : α}
    (ha : a ∈ carrier) (hab : edge a b) : rank edge carrier a < rank edge carrier b := by
  classical
  apply Finset.card_lt_card
  rw [Finset.ssubset_iff_of_subset]
  · exact ⟨a, by simpa [ha] using TransGen.single hab, by simpa using fun _ => h a⟩
  · intro c hc
    simp only [Finset.mem_filter] at hc ⊢
    exact ⟨hc.1, hc.2.tail hab⟩

/-- A member of the carrier never precedes itself, so its rank is below the carrier's size. -/
theorem Acyclic.rank_lt_card (h : Acyclic edge) {carrier : Finset α} {a : α}
    (ha : a ∈ carrier) : rank edge carrier a < carrier.card := by
  classical
  apply Finset.card_lt_card
  rw [Finset.ssubset_iff_of_subset (Finset.filter_subset _ _)]
  exact ⟨a, ha, by simpa using fun _ => h a⟩

/-- An acyclic relation whose tails all lie in a finite set is well founded. -/
theorem Acyclic.wellFounded (h : Acyclic edge) (carrier : Finset α)
    (hcarrier : ∀ a b, edge a b → a ∈ carrier) : WellFounded edge :=
  Subrelation.wf (fun {a b} hab => h.rank_lt (hcarrier a b hab) hab)
    (measure (rank edge carrier)).wf

end Rank

end Forge.Common
