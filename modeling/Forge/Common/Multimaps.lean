import Mathlib.Algebra.BigOperators.Group.Finset.Basic
import Mathlib.Data.List.AList

/-!
# Maps to lists

A map to lists is the pairs of its keys and the members of their lists, up to their order. To
extend the list of a key adds pairs, and what the map has for a key are the members of its pairs.
-/

namespace Forge.Common

variable {K V : Type*} [DecidableEq K]

/-- A map to lists. -/
abbrev Multimap (K V : Type*) := AList fun _ : K => List V

namespace Multimap

/-- Append to the list of a key. -/
def extend (m : Multimap K V) (k : K) (values : List V) : Multimap K V :=
  m.insert k ((m.lookup k).getD [] ++ values)

/-- The pairs of some keys and the members of their lists. -/
def pairsOf (entries : List (Σ _ : K, List V)) : List (K × V) :=
  entries.flatMap fun entry => entry.2.map fun value => (entry.1, value)

/-- The pairs of the keys of a map and the members of their lists. -/
def pairs (m : Multimap K V) : List (K × V) := pairsOf m.entries

omit [DecidableEq K] in
/-- The pairs of an entry come before those of the others. -/
theorem pairsOf_cons (k : K) (values : List V) (entries : List (Σ _ : K, List V)) :
    pairsOf (⟨k, values⟩ :: entries) = values.map (fun value => (k, value)) ++ pairsOf entries := rfl

omit [DecidableEq K] in
/-- Entries in another order have the same pairs. -/
theorem pairsOf_perm {entries entries' : List (Σ _ : K, List V)} (h : entries.Perm entries') :
    (pairsOf entries).Perm (pairsOf entries') := h.flatMap_right _

/-- A key of a map has its entry, and the other entries are those left without it. -/
theorem entries_perm_of_lookup {m : Multimap K V} {k : K} {values : List V} (h : m.lookup k = some values) :
    m.entries.Perm (⟨k, values⟩ :: m.entries.kerase k) := by
  have hmem : (⟨k, values⟩ : Σ _ : K, List V) ∈ m.entries := (List.mem_dlookup_iff m.nodupKeys).mp h
  obtain ⟨values', before, after, -, hentries, hrest⟩ := List.exists_of_kerase (List.mem_keys_of_mem hmem)
  have hfound : values' ∈ m.lookup k :=
    (List.mem_dlookup_iff m.nodupKeys).mpr (hentries ▸ List.mem_append_right _ List.mem_cons_self)
  obtain rfl : values = values' := Option.some.inj (h.symm.trans hfound)
  rw [hrest]
  exact hentries ▸ List.perm_middle

/-- A key that is not in a map leaves all entries. -/
theorem kerase_of_lookup_none {m : Multimap K V} {k : K} (h : m.lookup k = none) : m.entries.kerase k = m.entries :=
  List.kerase_of_notMem_keys (AList.lookup_eq_none.mp h)

/-- To extend the list of a key adds pairs. -/
theorem pairs_extend (m : Multimap K V) (k : K) (values : List V) :
    (m.extend k values).pairs.Perm (m.pairs ++ values.map fun value => (k, value)) := by
  rw [pairs, extend, AList.entries_insert, pairsOf_cons, List.map_append]
  cases hlookup : m.lookup k with
  | none =>
    rw [kerase_of_lookup_none hlookup]
    exact List.perm_append_comm
  | some old =>
    have hpairs := pairsOf_perm (entries_perm_of_lookup hlookup)
    rw [pairsOf_cons] at hpairs
    refine List.Perm.trans ?_ (hpairs.symm.append_right _)
    rw [Option.getD_some, List.append_assoc, List.append_assoc]
    exact List.perm_append_comm.append_left _

/-- A key without an entry has no pair. -/
theorem filter_pairsOf_of_notMem {entries : List (Σ _ : K, List V)} {k : K} (h : k ∉ entries.keys) :
    ((pairsOf entries).filter fun pair => pair.1 = k) = [] := by
  rw [List.filter_eq_nil_iff]
  intro pair hpair hkey
  obtain ⟨entry, hentry, hvalue⟩ := List.mem_flatMap.mp hpair
  obtain ⟨value, -, rfl⟩ := List.mem_map.mp hvalue
  exact h (of_decide_eq_true hkey ▸ List.mem_keys_of_mem hentry)

/-- The members of the pairs of a key are its list. -/
theorem map_snd_filter_pairsOf {entries : List (Σ _ : K, List V)} (h : entries.NodupKeys) (k : K) :
    ((pairsOf entries).filter fun pair => pair.1 = k).map Prod.snd = (entries.dlookup k).getD [] := by
  induction entries with
  | nil => rfl
  | cons entry entries ih =>
    obtain ⟨k', values⟩ := entry
    obtain ⟨hnew, hrest⟩ := List.nodupKeys_cons.mp h
    rw [pairsOf_cons, List.filter_append, List.map_append]
    by_cases hk : k = k'
    · subst hk
      have hown : (values.map fun value => (k, value)).filter (fun pair => decide (pair.1 = k)) =
          values.map fun value => (k, value) := by
        rw [List.filter_eq_self]
        intro pair hpair
        obtain ⟨value, -, rfl⟩ := List.mem_map.mp hpair
        exact decide_eq_true rfl
      rw [hown, filter_pairsOf_of_notMem hnew, List.dlookup_cons_eq, List.map_map, List.map_nil, List.append_nil]
      exact List.map_id _
    · have hother : (values.map fun value => (k', value)).filter (fun pair => decide (pair.1 = k)) = [] := by
        rw [List.filter_eq_nil_iff]
        intro pair hpair hkey
        obtain ⟨value, -, rfl⟩ := List.mem_map.mp hpair
        exact hk (of_decide_eq_true hkey).symm
      rw [hother, ih hrest, List.dlookup_cons_ne _ _ hk]
      rfl

/-- What a map has for a key are the members of its pairs. -/
theorem lookup_perm (m : Multimap K V) (k : K) :
    ((m.lookup k).getD []).Perm ((m.pairs.filter fun pair => pair.1 = k).map Prod.snd) :=
  .of_eq (map_snd_filter_pairsOf m.nodupKeys k).symm

/-- A value that a map has for a key after an extension was there before, or is one of those put to the key. -/
theorem mem_lookup_extend (m : Multimap K V) (k k' : K) (values : List V) (value : V) :
    value ∈ ((m.extend k values).lookup k').getD [] ↔
      value ∈ (m.lookup k').getD [] ∨ (k = k' ∧ value ∈ values) := by
  by_cases hk : k' = k
  · subst hk
    rw [extend, AList.lookup_insert, Option.getD_some, List.mem_append]
    tauto
  · rw [extend, AList.lookup_insert_ne hk]
    have hne : k ≠ k' := fun heq => hk heq.symm
    tauto

/-- The lists of all keys have as many members as there are pairs. -/
theorem sum_length_lookup (m : Multimap K V) :
    ∑ k ∈ m.keys.toFinset, ((m.lookup k).getD []).length = m.pairs.length := by
  rw [List.sum_toFinset _ m.keys_nodup, pairs, pairsOf, List.length_flatMap, AList.keys, List.keys, List.map_map]
  congr 1
  apply List.map_congr_left
  intro entry hentry
  have hlookup : m.lookup entry.1 = some entry.2 := (List.mem_dlookup_iff m.nodupKeys).mpr hentry
  rw [Function.comp_apply, hlookup, Option.getD_some, List.length_map]

end Multimap

/-! ## The last entry with a key -/

section LastOf

variable {T K : Type*} {keyFn : T → K}

/-- A key stands for the last entry that has it. -/
def LastOf (keyFn : T → K) (entries : List T) (key : K) (idx : ℕ) : Prop :=
  (∃ entry, entries[idx]? = some entry ∧ keyFn entry = key) ∧
    ∀ later entry, idx < later → entries[later]? = some entry → keyFn entry ≠ key

/-- A position in a list with one more entry. -/
theorem getElem?_concat_iff {entries : List T} {entry other : T} {idx : ℕ} :
    (entries ++ [entry])[idx]? = some other ↔ entries[idx]? = some other ∨ (idx = entries.length ∧ other = entry) := by
  rw [List.getElem?_append]
  by_cases hidx : idx < entries.length
  · rw [if_pos hidx, or_iff_left fun h => hidx.ne h.1]
  · rw [if_neg hidx, List.getElem?_singleton, List.getElem?_eq_none (Nat.le_of_not_lt hidx), or_iff_right nofun]
    by_cases heq : idx = entries.length
    · rw [if_pos (by omega), Option.some.injEq, and_iff_right heq, eq_comm]
    · rw [if_neg (by omega)]
      exact iff_of_false nofun fun h => heq h.1

/-- A further entry takes its key from the others, and leaves the other keys. -/
theorem lastOf_concat_iff [DecidableEq K] {entries : List T} {entry : T} {key : K} {idx : ℕ} :
    LastOf keyFn (entries ++ [entry]) key idx ↔
      if key = keyFn entry then idx = entries.length else LastOf keyFn entries key idx := by
  have hlast : (entries ++ [entry])[entries.length]? = some entry := getElem?_concat_iff.mpr (Or.inr ⟨rfl, rfl⟩)
  have hle : ∀ {k : ℕ} {other : T}, (entries ++ [entry])[k]? = some other → k ≤ entries.length := by
    intro k other hother
    have hlt := (List.getElem?_eq_some_iff.mp hother).1
    rw [List.length_append, List.length_singleton] at hlt
    omega
  split
  · rename_i hkey
    constructor
    · rintro ⟨⟨other, hother, -⟩, hlater⟩
      by_contra hne
      exact hlater entries.length entry (Nat.lt_of_le_of_ne (hle hother) hne) hlast hkey.symm
    · rintro rfl
      exact ⟨⟨entry, hlast, hkey.symm⟩, fun later other hlater hother => absurd hlater (Nat.not_lt_of_le (hle hother))⟩
  · rename_i hkey
    constructor
    · rintro ⟨⟨other, hother, hhas⟩, hlater⟩
      rcases getElem?_concat_iff.mp hother with hother | ⟨-, rfl⟩
      · exact ⟨⟨other, hother, hhas⟩, fun later last hlt hmem =>
          hlater later last hlt (getElem?_concat_iff.mpr (Or.inl hmem))⟩
      · exact absurd hhas.symm hkey
    · rintro ⟨⟨other, hother, hhas⟩, hlater⟩
      refine ⟨⟨other, getElem?_concat_iff.mpr (Or.inl hother), hhas⟩, fun later last hlt hmem => ?_⟩
      rcases getElem?_concat_iff.mp hmem with hmem | ⟨-, rfl⟩
      · exact hlater later last hlt hmem
      · exact Ne.symm hkey

/-- A key stands for an entry when one has it. -/
theorem exists_lastOf_iff [DecidableEq K] {entries : List T} {key : K} :
    (∃ idx, LastOf keyFn entries key idx) ↔ ∃ entry ∈ entries, keyFn entry = key := by
  constructor
  · rintro ⟨idx, ⟨entry, hentry, hkey⟩, -⟩
    exact ⟨entry, List.mem_of_getElem? hentry, hkey⟩
  · rintro ⟨entry, hentry, hkey⟩
    induction entries using List.reverseRecOn with
    | nil => exact absurd hentry List.not_mem_nil
    | append_singleton entries last ih =>
      simp only [lastOf_concat_iff]
      by_cases hlast : key = keyFn last
      · exact ⟨entries.length, by rw [if_pos hlast]⟩
      · rcases List.mem_append.mp hentry with hold | hnew
        · obtain ⟨idx, hidx⟩ := ih hold
          exact ⟨idx, by rw [if_neg hlast]; exact hidx⟩
        · rw [List.mem_singleton.mp hnew] at hkey
          exact absurd hkey.symm hlast

/-- The entry for which a key stands has it. -/
theorem LastOf.key_eq {entries : List T} {key key' : K} {idx : ℕ} (h : LastOf keyFn entries key idx)
    (h' : LastOf keyFn entries key' idx) : key = key' := by
  obtain ⟨⟨entry, hentry, rfl⟩, -⟩ := h
  obtain ⟨⟨entry', hentry', rfl⟩, -⟩ := h'
  rw [Option.some.inj (hentry.symm.trans hentry')]

/-- A key stands for an entry of the list. -/
theorem LastOf.lt {entries : List T} {key : K} {idx : ℕ} (h : LastOf keyFn entries key idx) : idx < entries.length := by
  obtain ⟨⟨entry, hentry, -⟩, -⟩ := h
  exact (List.getElem?_eq_some_iff.mp hentry).1

end LastOf

end Forge.Common
