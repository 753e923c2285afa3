import Mathlib.Data.List.AList
import Mathlib.Data.List.Induction

/-!
# Content-addressed stores

A store files values under keys. It is filed when every value is under its own key. Filing a
list of pairs leaves the last value of each key, and the store stays filed exactly when these
are under their own keys.
-/

namespace Forge.Common

variable {K V : Type*} [DecidableEq K]

/-- Every value of a store is under its own key. -/
def Filed (key : V → K) (store : AList fun _ : K => V) : Prop :=
  ∀ k v, store.lookup k = some v → k = key v

/-- File pairs of a key and a value. -/
def insertAll (pairs : List (K × V)) (store : AList fun _ : K => V) : AList fun _ : K => V :=
  pairs.foldl (fun store pair => store.insert pair.1 pair.2) store

/-- The last value of a key in a list of pairs. -/
def lastValue (pairs : List (K × V)) (k : K) : Option V :=
  (pairs.reverse.find? fun pair => pair.1 == k).map Prod.snd

/-- The last value of a key is in the list with it. -/
theorem mem_of_lastValue {pairs : List (K × V)} {k : K} {v : V} (h : lastValue pairs k = some v) : (k, v) ∈ pairs := by
  obtain ⟨pair, hfound, rfl⟩ := Option.map_eq_some_iff.mp h
  have hkey : (pair.1 == k) = true := @List.find?_some _ (fun pair : K × V => pair.1 == k) _ _ hfound
  rw [← beq_iff_eq.mp hkey]
  exact List.mem_reverse.mp (List.mem_of_find?_eq_some hfound)

/-- A key of a list of pairs has a last value. -/
theorem exists_lastValue {pairs : List (K × V)} {k : K} {v : V} (hmem : (k, v) ∈ pairs) :
    ∃ v', lastValue pairs k = some v' := by
  have hfound : (pairs.reverse.find? fun pair => pair.1 == k).isSome = true := by
    rw [List.find?_isSome]
    exact ⟨(k, v), List.mem_reverse.mpr hmem, beq_self_eq_true k⟩
  obtain ⟨pair, hpair⟩ := Option.isSome_iff_exists.mp hfound
  exact ⟨pair.2, by rw [lastValue, hpair, Option.map_some]⟩

/-- After filing pairs, a key has its last value, or the one it had. -/
theorem lookup_insertAll (pairs : List (K × V)) (store : AList fun _ : K => V) (k : K) :
    (insertAll pairs store).lookup k = (lastValue pairs k).or (store.lookup k) := by
  induction pairs using List.reverseRecOn with
  | nil => rfl
  | append_singleton pairs pair ih =>
    rw [insertAll, List.foldl_append, List.foldl_cons, List.foldl_nil, ← insertAll, lastValue, List.reverse_append,
      List.reverse_singleton, List.singleton_append, List.find?_cons]
    by_cases hkey : k = pair.1
    · rw [hkey, AList.lookup_insert, beq_self_eq_true, Option.map_some, Option.some_or]
    · rw [AList.lookup_insert_ne hkey, ih, beq_eq_false_iff_ne.mpr (Ne.symm hkey), lastValue]

/-- An empty store is filed. -/
theorem filed_empty (key : V → K) : Filed key ∅ :=
  fun _ _ h => absurd h (by rw [AList.lookup_empty]; exact nofun)

/-- A store stays filed exactly when the last values are under their own keys. -/
theorem Filed.insertAll_iff {key : V → K} {store : AList fun _ : K => V} (h : Filed key store) (pairs : List (K × V)) :
    Filed key (insertAll pairs store) ↔ ∀ k v, lastValue pairs k = some v → k = key v := by
  constructor
  · intro hfiled k v hlast
    refine hfiled k v ?_
    rw [lookup_insertAll, hlast, Option.some_or]
  · intro hpairs k v hlookup
    rw [lookup_insertAll, Option.or_eq_some_iff] at hlookup
    rcases hlookup with hlast | ⟨-, hkept⟩
    · exact hpairs k v hlast
    · exact h k v hkept

/-- Values that are filed under their own keys are last under their own keys. -/
theorem lastValue_map_self {key : V → K} {values : List V} {k : K} {v : V}
    (h : lastValue (values.map fun v => (key v, v)) k = some v) : k = key v := by
  obtain ⟨v', -, hsame⟩ := List.mem_map.mp (mem_of_lastValue h)
  obtain ⟨rfl, rfl⟩ := Prod.mk.inj hsame
  rfl

/-- Values that are filed under their own keys can be looked up. -/
theorem lookup_insertAll_self {key : V → K} (hkey : Function.Injective key) {values : List V} {v : V} (hmem : v ∈ values)
    (store : AList fun _ : K => V) : (insertAll (values.map fun v => (key v, v)) store).lookup (key v) = some v := by
  have hpair : (key v, v) ∈ values.map fun v => (key v, v) := List.mem_map.mpr ⟨v, hmem, rfl⟩
  obtain ⟨v', hlast⟩ := exists_lastValue hpair
  rw [lookup_insertAll, hlast, Option.some_or, hkey (lastValue_map_self hlast)]

end Forge.Common
