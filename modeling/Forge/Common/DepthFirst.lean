import Forge.Common.Reachability

/-!
# Depth-first visits

A depth-first visit turns one visited set into a larger one. Between the visit of a vertex
and the return from its successors the visited set is not closed under the edges, so the
contract only promises that whatever the visit itself added has its successors visited.
Contracts compose along a list of roots, and from an empty start they give reachability.
-/

namespace Forge.Common

open Relation

variable {α : Type*} {edge : α → α → Prop}

/-- What visiting the roots does to the visited set. -/
structure Visit (edge : α → α → Prop) (before after roots : Set α) : Prop where
  keeps : before ⊆ after
  covers : roots ⊆ after
  sound : after ⊆ before ∪ reachSet edge roots
  closed : ∀ a ∈ after, a ∉ before → ∀ b, edge a b → b ∈ after

/-- Visiting nothing changes nothing. -/
theorem Visit.nil (edge : α → α → Prop) (visited : Set α) : Visit edge visited visited ∅ where
  keeps := Set.Subset.refl _
  covers := Set.empty_subset _
  sound := Set.subset_union_left
  closed := fun _ ha hnot => absurd ha hnot

/-- A vertex that was visited before is left alone. -/
theorem Visit.skip {visited : Set α} {a : α} (h : a ∈ visited) : Visit edge visited visited {a} where
  keeps := Set.Subset.refl _
  covers := Set.singleton_subset_iff.mpr h
  sound := Set.subset_union_left
  closed := fun _ ha hnot => absurd ha hnot

/-- More roots reach more vertices. -/
theorem reachSet_mono {roots roots' : Set α} (h : roots ⊆ roots') :
    reachSet edge roots ⊆ reachSet edge roots' := by
  intro b hb
  obtain ⟨a, ha, hpath⟩ := hb
  exact ⟨a, h ha, hpath⟩

/-- Visits compose: first some roots, then some more. -/
theorem Visit.seq {s t u roots roots' : Set α} (h : Visit edge s t roots)
    (h' : Visit edge t u roots') : Visit edge s u (roots ∪ roots') where
  keeps := h.keeps.trans h'.keeps
  covers := Set.union_subset (h.covers.trans h'.keeps) h'.covers
  sound := by
    intro b hb
    have hright : reachSet edge roots' ⊆ reachSet edge (roots ∪ roots') :=
      reachSet_mono Set.subset_union_right
    have hleft : reachSet edge roots ⊆ reachSet edge (roots ∪ roots') :=
      reachSet_mono Set.subset_union_left
    cases h'.sound hb with
    | inr hreach => exact Or.inr (hright hreach)
    | inl hold =>
      cases h.sound hold with
      | inl hs => exact Or.inl hs
      | inr hreach => exact Or.inr (hleft hreach)
  closed := by
    intro a ha hnot b hedge
    by_cases hold : a ∈ t
    · exact h'.keeps (h.closed a hold hnot b hedge)
    · exact h'.closed a ha hold b hedge

/-- Marking a vertex and visiting its successors visits the vertex. -/
theorem Visit.expand {s t : Set α} {a : α} (h : Visit edge (insert a s) t {b | edge a b}) :
    Visit edge s t {a} where
  keeps := (Set.subset_insert a s).trans h.keeps
  covers := Set.singleton_subset_iff.mpr (h.keeps (Set.mem_insert a s))
  sound := by
    intro b hb
    cases h.sound hb with
    | inl hold =>
      cases hold with
      | inl heq => exact Or.inr ⟨a, rfl, heq ▸ .refl⟩
      | inr hs => exact Or.inl hs
    | inr hreach =>
      obtain ⟨c, hac, hpath⟩ := hreach
      exact Or.inr ⟨a, rfl, .head hac hpath⟩
  closed := by
    intro b hb hnot c hedge
    by_cases heq : b = a
    · exact h.covers (heq ▸ hedge)
    · exact h.closed b hb (by simp [heq, hnot]) c hedge

/-- Visits along a list of roots compose, whatever each of them starts from. -/
theorem Visit.foldl {β : Type*} (edge : α → α → Prop) (visit : β → α → β) (carrier : β → Set α) (roots : List α) (b : β)
    (hvisit : ∀ b', carrier b ⊆ carrier b' → ∀ a ∈ roots,
      Visit edge (carrier b') (carrier (visit b' a)) {a}) :
    Visit edge (carrier b) (carrier (roots.foldl visit b)) {a | a ∈ roots} := by
  induction roots generalizing b with
  | nil => simpa using Visit.nil edge (carrier b)
  | cons a roots ih =>
    have hhead := hvisit b (Set.Subset.refl _) a List.mem_cons_self
    have htail := ih (visit b a) fun b' hsub c hc =>
      hvisit b' (hhead.keeps.trans hsub) c (List.mem_cons_of_mem _ hc)
    have hroots : {c | c ∈ a :: roots} = ({a} : Set α) ∪ {c | c ∈ roots} := by
      ext c
      simp
    rw [hroots]
    exact hhead.seq htail

/-- From an empty start the visited vertices are exactly the reachable ones. -/
theorem Visit.complete {t roots : Set α} (h : Visit edge ∅ t roots) : t = reachSet edge roots := by
  refine Set.Subset.antisymm (fun b hb => by simpa using h.sound hb) ?_
  intro b hb
  obtain ⟨a, ha, hpath⟩ := hb
  induction hpath with
  | refl => exact h.covers ha
  | tail _ hedge ih => exact h.closed _ ih (Set.notMem_empty _) _ hedge

end Forge.Common
