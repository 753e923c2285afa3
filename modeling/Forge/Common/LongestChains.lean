import Forge.Common.Reachability
import Mathlib.Algebra.BigOperators.Group.List.Basic
import Mathlib.Data.List.Chain
import Mathlib.Order.Bounds.Basic
import Mathlib.Algebra.GroupWithZero.Nat

/-!
# Heaviest chains of a relation

A chain lists vertices each of which is related to the next, and weighs the sum of the
weights of its vertices. A function that is built up along the relation, at each vertex
from the greatest value among the predecessors, is the greatest weight of a chain that ends
there.
-/

namespace Forge.Common

open Relation

variable {α : Type*} {r : α → α → Prop}

/-- The chains of a relation that end at a vertex. -/
inductive ChainTo (r : α → α → Prop) : α → List α → Prop where
  | single (b : α) : ChainTo r b [b]
  | snoc {a b : α} {l : List α} : ChainTo r a l → r a b → ChainTo r b (l ++ [b])

/-- The weight of a list of vertices. -/
def weightOf (w : α → ℕ) (l : List α) : ℕ := (l.map w).sum

/-- A longer list weighs what it adds more. -/
theorem weightOf_append (w : α → ℕ) (l l' : List α) : weightOf w (l ++ l') = weightOf w l + weightOf w l' := by
  rw [weightOf, List.map_append, List.sum_append]
  rfl

/-- One vertex weighs its weight. -/
theorem weightOf_singleton (w : α → ℕ) (b : α) : weightOf w [b] = w b := by
  rw [weightOf, List.map_singleton, List.sum_singleton]

/-- The chains that end at a vertex, as lists. -/
theorem chainTo_iff {b : α} {l : List α} : ChainTo r b l ↔ l.IsChain r ∧ l.getLast? = some b := by
  constructor
  · intro h
    induction h with
    | single b => exact ⟨List.isChain_singleton b, rfl⟩
    | snoc _ hab ih =>
      obtain ⟨hchain, hlast⟩ := ih
      refine ⟨List.isChain_append.mpr ⟨hchain, List.isChain_singleton _, ?_⟩, List.getLast?_concat⟩
      intro x hx y hy
      rw [hlast, Option.mem_some_iff] at hx
      rw [List.head?_singleton, Option.mem_some_iff] at hy
      exact hx ▸ hy ▸ hab
  · rintro ⟨hchain, hlast⟩
    induction l using List.reverseRecOn generalizing b with
    | nil => exact absurd hlast (by simp)
    | append_singleton l c ih =>
      rw [List.getLast?_concat, Option.some.injEq] at hlast
      subst hlast
      obtain ⟨hinit, -, hjoin⟩ := List.isChain_append.mp hchain
      cases hend : l.getLast? with
      | none =>
        rw [List.getLast?_eq_none_iff.mp hend]
        exact .single c
      | some a => exact .snoc (ih hinit hend) (hjoin a hend c rfl)

/-- A chain that is not empty ends somewhere. -/
theorem exists_chainTo {l : List α} (h : l.IsChain r) (hne : l ≠ []) : ∃ b ∈ l, ChainTo r b l := by
  refine ⟨l.getLast hne, List.getLast_mem hne, chainTo_iff.mpr ⟨h, List.getLast?_eq_getLast_of_ne_nil hne⟩⟩

/-- What ends a chain that continues another one. -/
theorem ChainTo.transGen {a b : α} {l : List α} (h : ChainTo r b l) (ha : a ∈ l) : a = b ∨ TransGen r a b := by
  induction h with
  | single b => exact Or.inl (List.mem_singleton.mp ha)
  | snoc _ hab ih =>
    rcases List.mem_append.mp ha with ha | ha
    · rcases ih ha with rfl | hpath
      · exact Or.inr (.single hab)
      · exact Or.inr (hpath.tail hab)
    · exact Or.inl (List.mem_singleton.mp ha)

/-- A chain of an acyclic relation has no vertex twice. -/
theorem ChainTo.nodup {b : α} {l : List α} (hr : Acyclic r) (h : ChainTo r b l) : l.Nodup := by
  induction h with
  | single b => exact List.nodup_singleton b
  | @snoc a b l hchain hab ih =>
    refine List.nodup_append.mpr ⟨ih, List.nodup_singleton b, fun x hx y hy heq => ?_⟩
    obtain rfl := heq.trans (List.mem_singleton.mp hy)
    rcases hchain.transGen hx with rfl | hpath
    · exact hr _ (.single hab)
    · exact hr _ (hpath.tail hab)

/-- A chain that ends at a vertex is the vertex alone, or continues a chain to a predecessor. -/
theorem ChainTo.cases_last {b : α} {l : List α} (h : ChainTo r b l) :
    l = [b] ∨ ∃ a l', r a b ∧ ChainTo r a l' ∧ l = l' ++ [b] := by
  cases h with
  | single => exact Or.inl rfl
  | snoc hchain hab => exact Or.inr ⟨_, _, hab, hchain, rfl⟩

/-! ## A heaviest chain, vertex by vertex -/

/-- A heaviest chain that ends at a vertex, with its weight. -/
structure Heaviest (r : α → α → Prop) (w : α → ℕ) (b : α) (best : ℕ × List α) : Prop where
  chain : ChainTo r b best.2
  weight : weightOf w best.2 = best.1
  greatest : ∀ l, ChainTo r b l → weightOf w l ≤ best.1

/-- The heaviest chain to one of several vertices, left out when it weighs nothing. -/
structure HeaviestAmong (r : α → α → Prop) (w : α → ℕ) (ends : List α) (best : ℕ × List α) : Prop where
  chain : best = (0, []) ∨ ∃ a ∈ ends, ChainTo r a best.2
  weight : weightOf w best.2 = best.1
  greatest : ∀ a ∈ ends, ∀ l, ChainTo r a l → weightOf w l ≤ best.1

/-- No vertex ends no chain. -/
theorem HeaviestAmong.nil (r : α → α → Prop) (w : α → ℕ) : HeaviestAmong r w [] (0, []) where
  chain := Or.inl rfl
  weight := rfl
  greatest := fun _ ha => absurd ha List.not_mem_nil

/-- One more vertex is taken into account by comparing weights. -/
theorem HeaviestAmong.concat {w : α → ℕ} {a : α} {ends : List α} {best found : ℕ × List α}
    (h : HeaviestAmong r w ends best) (hfound : Heaviest r w a found) :
    HeaviestAmong r w (ends ++ [a]) (if best.1 < found.1 then found else best) where
  chain := by
    split
    · exact Or.inr ⟨a, List.mem_append_right _ (List.mem_singleton_self a), hfound.chain⟩
    · exact h.chain.imp_right fun ⟨b, hb, hchain⟩ => ⟨b, List.mem_append_left _ hb, hchain⟩
  weight := by
    split
    · exact hfound.weight
    · exact h.weight
  greatest := by
    intro b hb l hl
    have hboth : weightOf w l ≤ best.1 ∨ weightOf w l ≤ found.1 := by
      rcases List.mem_append.mp hb with hb | hb
      · exact Or.inl (h.greatest b hb l hl)
      · exact Or.inr (hfound.greatest l (List.mem_singleton.mp hb ▸ hl))
    split <;> omega

/-- A vertex behind the heaviest chain to its predecessors makes a heaviest chain. -/
theorem HeaviestAmong.snoc {w : α → ℕ} {b : α} {ends : List α} {best : ℕ × List α} (h : HeaviestAmong r w ends best)
    (hends : ∀ a, a ∈ ends ↔ r a b) : Heaviest r w b (best.1 + w b, best.2 ++ [b]) where
  chain := by
    rcases h.chain with heq | ⟨a, ha, hchain⟩
    · rw [heq]
      exact .single b
    · exact hchain.snoc ((hends a).mp ha)
  weight := by
    rw [weightOf_append, weightOf_singleton, h.weight]
  greatest := by
    intro l hl
    rcases hl.cases_last with rfl | ⟨a, l', hab, hchain, rfl⟩
    · rw [weightOf_singleton]
      exact Nat.le_add_left _ _
    · rw [weightOf_append, weightOf_singleton]
      exact Nat.add_le_add_right (h.greatest a ((hends a).mpr hab) l' hchain) _

/-! ## The greatest weights of all vertices -/

/-- A function that is built up along a relation, on a set of vertices that holds their predecessors. -/
structure Longest (r : α → α → Prop) (w f : α → ℕ) (s : Set α) : Prop where
  closed : ∀ a b, b ∈ s → r a b → a ∈ s
  single : ∀ b ∈ s, w b ≤ f b
  growing : ∀ a b, b ∈ s → r a b → f a + w b ≤ f b
  attained : ∀ b ∈ s, f b = w b ∨ ∃ a, r a b ∧ f b = f a + w b

/-- The function bounds the weight of every chain. -/
theorem Longest.weightOf_le {w f : α → ℕ} {s : Set α} (h : Longest r w f s) {b : α} {l : List α} (hchain : ChainTo r b l)
    (hb : b ∈ s) : weightOf w l ≤ f b := by
  induction hchain with
  | single b =>
    rw [weightOf_singleton]
    exact h.single b hb
  | @snoc a b l _ hab ih =>
    rw [weightOf_append, weightOf_singleton]
    exact (Nat.add_le_add_right (ih (h.closed a b hb hab)) (w b)).trans (h.growing a b hb hab)

/-- The function is the weight of a chain. -/
theorem Longest.exists_chainTo {w f : α → ℕ} {s : Set α} (h : Longest r w f s) (hr : WellFounded r) {b : α}
    (hb : b ∈ s) : ∃ l, ChainTo r b l ∧ weightOf w l = f b := by
  induction b using hr.induction with
  | _ b ih =>
    rcases h.attained b hb with hself | ⟨a, hab, heq⟩
    · exact ⟨[b], .single b, (weightOf_singleton w b).trans hself.symm⟩
    · obtain ⟨l, hchain, hweight⟩ := ih a hab (h.closed a b hb hab)
      refine ⟨l ++ [b], hchain.snoc hab, ?_⟩
      rw [weightOf_append, weightOf_singleton, hweight, heq]

/-- The function is the greatest weight of a chain that ends at the vertex. -/
theorem Longest.isGreatest {w f : α → ℕ} {s : Set α} (h : Longest r w f s) (hr : WellFounded r) {b : α} (hb : b ∈ s) :
    IsGreatest {n | ∃ l, ChainTo r b l ∧ weightOf w l = n} (f b) := by
  refine ⟨h.exists_chainTo hr hb, ?_⟩
  rintro n ⟨l, hchain, rfl⟩
  exact h.weightOf_le hchain hb

/-! ## Depth-first searches -/

/-- Being busy with one more vertex leaves fewer that a search is not busy with. -/
theorem length_filter_notMem_lt [DecidableEq α] {keys visiting : List α} {a : α} (ha : a ∈ keys) (hnot : a ∉ visiting) :
    (keys.filter (· ∉ a :: visiting)).length < (keys.filter (· ∉ visiting)).length := by
  have hsplit : keys.filter (· ∉ a :: visiting) = (keys.filter (· ∉ visiting)).filter (· ≠ a) := by
    rw [List.filter_filter]
    refine List.filter_congr fun x _ => ?_
    rw [← Bool.decide_and]
    exact decide_eq_decide.mpr (by rw [List.mem_cons, not_or])
  rw [hsplit, List.length_filter_lt_length_iff_exists]
  exact ⟨a, List.mem_filter.mpr ⟨ha, decide_eq_true hnot⟩, by simp⟩

/-- An accessible vertex is not related to itself. -/
theorem not_rel_self_of_acc {a : α} (h : Acc r a) : ¬ r a a := by
  induction h with
  | intro a _ ih => exact fun hself => ih a hself hself

/-- No cycle leads to an accessible vertex. -/
theorem not_transGen_self_of_acc {a c : α} (h : Acc r a) (hpath : ReflTransGen r c a) : ¬ TransGen r c c := by
  intro hcycle
  have hacc : Acc (TransGen r) a := h.transGen
  obtain rfl | hpath := reflTransGen_iff_eq_or_transGen.mp hpath
  · exact not_rel_self_of_acc hacc hcycle
  · exact not_rel_self_of_acc (hacc.inv hpath) hcycle

end Forge.Common
