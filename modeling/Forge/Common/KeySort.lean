import Mathlib.Order.Lattice
import Mathlib.Data.List.Pairwise

/-!
# Stable sorting by a key

A sort by a key keeps the elements and puts them in the order of their keys. Elements with the same key stay
in the order in which they were. For a key of two values that is a partition.
-/

namespace Forge.Common

variable {α κ : Type*} [LinearOrder κ]

/-- Sort by a key. Elements with the same key keep their order. -/
def stableSort (key : α → κ) (l : List α) : List α := l.mergeSort fun a b => decide (key a ≤ key b)

/-- Sorting changes nothing but the order. -/
theorem stableSort_perm (key : α → κ) (l : List α) : (stableSort key l).Perm l := List.mergeSort_perm _ _

/-- Keys compare in a chain. -/
theorem keyLe_trans (key : α → κ) (a b c : α) (hab : decide (key a ≤ key b) = true)
    (hbc : decide (key b ≤ key c) = true) : decide (key a ≤ key c) = true :=
  decide_eq_true (le_trans (of_decide_eq_true hab) (of_decide_eq_true hbc))

/-- Any two keys compare. -/
theorem keyLe_total (key : α → κ) (a b : α) : (decide (key a ≤ key b) || decide (key b ≤ key a)) = true := by
  rw [Bool.or_eq_true, decide_eq_true_iff, decide_eq_true_iff]
  exact le_total (key a) (key b)

/-- What is sorted is in order. -/
theorem stableSort_pairwise (key : α → κ) (l : List α) : (stableSort key l).Pairwise fun a b => key a ≤ key b :=
  (List.pairwise_mergeSort (keyLe_trans key) (keyLe_total key) l).imp fun hle => of_decide_eq_true hle

/-- What is sorted downwards is in order. -/
theorem pairwise_mergeSort_down (key : α → κ) (l : List α) :
    (l.mergeSort fun a b => decide (key b ≤ key a)).Pairwise fun a b => key b ≤ key a :=
  (List.pairwise_mergeSort (fun a b c hab hbc => keyLe_trans key c b a hbc hab) (fun a b => keyLe_total key b a) l).imp
    fun hle => of_decide_eq_true hle

/-- Elements of one key keep their order. -/
theorem stableSort_filter (key : α → κ) (l : List α) (c : κ) :
    (stableSort key l).filter (fun a => key a = c) = l.filter fun a => key a = c := by
  have hsub : (l.filter fun a => key a = c).Sublist (stableSort key l) := by
    refine List.sublist_mergeSort (keyLe_trans key) (keyLe_total key) ?_ List.filter_sublist
    refine List.pairwise_of_forall_mem_list fun a ha b hb => ?_
    rw [of_decide_eq_true (List.mem_filter.mp ha).2, of_decide_eq_true (List.mem_filter.mp hb).2]
    exact decide_eq_true le_rfl
  have hfilter : (l.filter fun a => key a = c).Sublist ((stableSort key l).filter fun a => key a = c) := by
    have h := hsub.filter fun a => decide (key a = c)
    rwa [List.filter_filter, show (fun a => decide (key a = c) && decide (key a = c)) = fun a => decide (key a = c) from
      funext fun a => Bool.and_self _] at h
  exact (hfilter.eq_of_length (((stableSort_perm key l).filter _).length_eq.symm)).symm

/-- A list in the order of a predicate has the elements without it first. -/
theorem eq_partition_of_pairwise (p : α → Bool) {l : List α} (h : l.Pairwise fun a b => p a = true → p b = true) :
    l = l.filter (fun a => !p a) ++ l.filter p := by
  induction l with
  | nil => rfl
  | cons a l ih =>
    obtain ⟨hfirst, hrest⟩ := List.pairwise_cons.mp h
    cases hp : p a with
    | false =>
      rw [List.filter_cons_of_pos (by rw [hp]; rfl), List.filter_cons_of_neg (by rw [hp]; exact Bool.false_ne_true),
        List.cons_append, ← ih hrest]
    | true =>
      have hall : ∀ b ∈ l, p b = true := fun b hb => hfirst b hb hp
      have hnone : l.filter (fun a => !p a) = [] := by
        rw [List.filter_eq_nil_iff]
        intro b hb
        rw [hall b hb]
        exact Bool.false_ne_true
      rw [List.filter_cons_of_neg (by rw [hp]; exact Bool.false_ne_true), hnone, List.nil_append,
        List.filter_cons_of_pos hp, List.filter_eq_self.mpr hall]

end Forge.Common
