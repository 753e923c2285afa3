import Mathlib.Algebra.GroupWithZero.Nat
import Mathlib.Data.List.AList
import Mathlib.Data.Nat.Find

/-!
# Recency lists

A finite map whose entries stand in the order of their last use, the most recent one first. An entry
that is inserted stands at the front, wherever it stood before. To make room, entries are dropped from
the other end until the rest fits, and no more of them than that takes.
-/

namespace Forge.Common

/-- Entries in the order of their last use. -/
abbrev RecencyList (K E : Type*) := AList fun _ : K => E

namespace RecencyList

variable {K E : Type*}

/-- The first entries. -/
def first (n : ℕ) (r : RecencyList K E) : RecencyList K E :=
  ⟨r.entries.take n, r.nodupKeys.sublist (List.take_sublist n r.entries)⟩

/-- What all entries weigh together. -/
def total (weight : E → ℕ) (r : RecencyList K E) : ℕ := (r.entries.map fun entry => weight entry.2).sum

/-- The largest number of entries from the front that fit, or none. -/
def fitting (fits : RecencyList K E → Prop) [DecidablePred fits] (r : RecencyList K E) : ℕ :=
  Nat.findGreatest (fun n => fits (r.first n)) r.entries.length

/-- The entries behind the first ones, the last one first. -/
def droppedAfter (n : ℕ) (r : RecencyList K E) : List (K × E) :=
  ((r.entries.drop n).map fun entry => (entry.1, entry.2)).reverse

/-- The keys stand in the order of an age, the youngest first. -/
def Ordered (age : K → ℕ) (r : RecencyList K E) : Prop := r.keys.Pairwise fun a b => age a < age b

/-- The keys of the first entries. -/
@[simp] theorem keys_first (n : ℕ) (r : RecencyList K E) : (r.first n).keys = r.keys.take n := by
  rw [AList.keys, first, List.keys, List.map_take, AList.keys, List.keys]

/-- All entries. -/
@[simp] theorem first_length (r : RecencyList K E) : r.first r.entries.length = r := AList.ext List.take_length

/-- There are as many keys as entries. -/
theorem length_keys (r : RecencyList K E) : r.keys.length = r.entries.length := List.length_map _

section Entry

variable {n : ℕ} {r : RecencyList K E}

/-- One entry more. -/
theorem entries_first_succ (hn : n < r.entries.length) :
    (r.first (n + 1)).entries = (r.first n).entries ++ [r.entries[n]] := (List.take_append_getElem hn).symm

/-- One key more. -/
theorem keys_first_succ (hn : n < r.entries.length) :
    (r.first (n + 1)).keys = (r.first n).keys ++ [r.entries[n].1] := by
  rw [AList.keys, entries_first_succ hn, List.keys, List.map_append]
  rfl

/-- One entry more weighs more by it. -/
theorem total_first_succ (weight : E → ℕ) (hn : n < r.entries.length) :
    (r.first (n + 1)).total weight = (r.first n).total weight + weight r.entries[n].2 := by
  rw [total, entries_first_succ hn, List.map_append, List.sum_append]
  rfl

/-- The entries behind fewer ones are one more. -/
theorem droppedAfter_first_succ {m : ℕ} (hn : n < r.entries.length) (hm : m ≤ n) :
    (r.first (n + 1)).droppedAfter m = (r.entries[n].1, r.entries[n].2) :: (r.first n).droppedAfter m := by
  have hlength : m ≤ (r.first n).entries.length := by
    rw [first, List.length_take]
    omega
  rw [droppedAfter, entries_first_succ hn, List.drop_append_of_le_length hlength, List.map_append, List.reverse_append]
  rfl

end Entry

/-- The order is kept when the keys get older together. -/
theorem Ordered.sublist {age age' : K → ℕ} {r r' : RecencyList K E} (h : r.Ordered age) (hsub : r'.keys.Sublist r.keys)
    (holder : ∀ key ∈ r'.keys, age' key = age key + 1) : r'.Ordered age' := by
  refine (List.Pairwise.sublist hsub h).imp_of_mem fun {a b} ha hb hlt => ?_
  rw [holder a ha, holder b hb]
  exact Nat.succ_lt_succ hlt

variable [DecidableEq K]

/-- Without its last entry, a list of one entry more is that of the others. -/
theorem erase_last {n : ℕ} {r : RecencyList K E} (hn : n < r.entries.length) :
    (r.first (n + 1)).erase r.entries[n].1 = r.first n := by
  apply AList.ext
  have hnodup : (r.first (n + 1)).keys.Nodup := AList.keys_nodup _
  rw [keys_first_succ hn, List.nodup_append] at hnodup
  have habsent : r.entries[n].1 ∉ (r.first n).entries.keys := fun hmem =>
    hnodup.2.2 _ hmem _ (List.mem_singleton_self _) rfl
  calc (r.first (n + 1)).entries.kerase r.entries[n].1
      = ((r.first n).entries ++ [r.entries[n]]).kerase r.entries[n].1 := by rw [entries_first_succ hn]
    _ = (r.first n).entries := by
        rw [List.kerase_append_right habsent, List.kerase_cons_eq rfl, List.append_nil]

/-- The last of the first entries is looked up there. -/
theorem lookup_first_succ {r : RecencyList K E} {n : ℕ} (hn : n < r.entries.length) :
    (r.first (n + 1)).lookup r.entries[n].1 = some r.entries[n].2 := by
  refine AList.mem_lookup_iff.mpr ?_
  rw [entries_first_succ hn]
  exact List.mem_append_right _ (List.mem_singleton_self _)

/-- An entry that is looked up has its weight in the total. -/
theorem total_erase (weight : E → ℕ) {r : RecencyList K E} {key : K} {entry : E}
    (hentry : r.lookup key = some entry) : total weight (r.erase key) + weight entry = r.total weight := by
  have hperm : ((⟨key, entry⟩ : Sigma fun _ : K => E) :: r.entries.kerase key).Perm r.entries := by
    refine List.lookup_ext ((r.insert key entry).nodupKeys) r.nodupKeys fun other value => ?_
    by_cases hother : other = key
    · subst hother
      rw [List.dlookup_cons_eq, show List.dlookup other r.entries = some entry from hentry]
    · rw [List.dlookup_cons_ne _ _ hother, List.dlookup_kerase_ne hother]
  rw [total, total, ← (hperm.map _).sum_nat, List.map_cons, List.sum_cons, Nat.add_comm]
  rfl

/-- An inserted entry replaces the one of its key. -/
theorem total_insert (weight : E → ℕ) (r : RecencyList K E) (key : K) (entry : E) :
    total weight (r.insert key entry) = weight entry + total weight (r.erase key) := by
  rw [total, AList.entries_insert, List.map_cons, List.sum_cons]
  rfl

/-- A key that is not there has nothing to erase. -/
theorem erase_of_lookup_none {r : RecencyList K E} {key : K} (hnone : r.lookup key = none) : r.erase key = r :=
  AList.ext (List.kerase_of_notMem_keys (AList.lookup_eq_none.mp hnone))

/-- Without an entry the others weigh no more. -/
theorem total_erase_le (weight : E → ℕ) (r : RecencyList K E) (key : K) :
    total weight (r.erase key) ≤ r.total weight := by
  cases hlookup : r.lookup key with
  | none => rw [erase_of_lookup_none hlookup]
  | some entry =>
    rw [← total_erase weight hlookup]
    exact Nat.le_add_right _ _

/-- A replaced entry leaves as many entries. -/
theorem length_insert {r : RecencyList K E} {key : K} {old : E} (hlookup : r.lookup key = some old) (entry : E) :
    (AList.keys (r.insert key entry)).length = r.keys.length := by
  have hmem : key ∈ r.keys := by
    rw [← AList.mem_keys, ← AList.lookup_isSome, hlookup]
    rfl
  have hpos := List.length_pos_of_mem hmem
  rw [AList.keys_insert, List.length_cons, List.length_erase_of_mem hmem]
  omega

/-- What is not there is not among the first entries. -/
theorem lookup_first_none {r : RecencyList K E} {key : K} (n : ℕ) (hnone : r.lookup key = none) :
    (r.first n).lookup key = none := by
  rw [AList.lookup_eq_none, AList.mem_keys, keys_first]
  exact fun hmem => AList.lookup_eq_none.mp hnone (AList.mem_keys.mpr (List.mem_of_mem_take hmem))

/-- The order is kept when one key gets the youngest and the others get older. -/
theorem Ordered.insert {age age' : K → ℕ} {r : RecencyList K E} {key : K} (entry : E) (h : r.Ordered age) (hyoung : age' key = 0)
    (holder : ∀ other, other ≠ key → age' other = age other + 1) : Ordered age' (r.insert key entry) := by
  have hother : ∀ other ∈ (r.erase key).keys, other ≠ key := by
    intro other hmem heq
    rw [← AList.mem_keys, AList.mem_erase] at hmem
    exact hmem.1 heq
  rw [Ordered, AList.keys_insert, ← AList.keys_erase, List.pairwise_cons]
  refine ⟨fun other hmem => ?_, h.sublist ?_ fun other hmem => holder other (hother other hmem)⟩
  · rw [hyoung, holder other (hother other hmem)]
    exact Nat.succ_pos _
  · rw [AList.keys_erase]
    exact List.erase_sublist

end RecencyList

end Forge.Common
