import Forge.Cache.TieredCache

/-!
# What moves between the tiers

What a tier pushes out is to go to the tier below it, so that only the last tier loses entries. An
insertion moves entries down twice, and so does a promotion from the third tier. A promotion from the second
tier moves down what the first tier pushes out, but what the second tier pushes out for it goes nowhere.
-/

namespace Forge.Cache

open Forge.Common

variable {K V S : Type*} [DecidableEq K]

/-- The entries that the tiers push out during a call, and those that are moved down to a tier. -/
structure Traffic (K V S : Type*) where
  fromL1 : List (K × V × S)
  toL2 : List (K × V × S)
  fromL2 : List (K × V × S)
  toL3 : List (K × V × S)
  fromL3 : List (K × V × S)
  deriving DecidableEq

/-- No traffic. -/
def Traffic.none : Traffic K V S := ⟨[], [], [], [], []⟩

/-- Whether a call inserts a key. -/
def TieredCall.puts (key : K) : TieredCall K V S → Bool
  | .put other _ _ => key = other
  | _ => false

namespace TieredCache

section Operations

variable [Add S] [Sub S] [LT S] [DecidableLT S]

/-- A lookup, with what it moves. -/
def getLogged (c : TieredCache K V S) (key : K) : Traffic K V S × (Option V × TieredCache K V S) :=
  match c.l1.get key with
  | (some value, l1) => (.none, some value, { c with l1 := l1 })
  | (none, l1) =>
    match c.l2.getWithSize key with
    | (some (value, size), l2) =>
      let ((_, evicted), l1) := l1.putWithEvictions key value size
      let (dropped, l2) := demote l2 evicted
      (⟨evicted, evicted, dropped, [], []⟩, some value, { c with l1 := l1, l2 := l2 })
    | (none, l2) =>
      match c.l3.getWithSize key with
      | (some (value, size), l3) =>
        let ((_, evicted), l2) := l2.putWithEvictions key value size
        let (dropped, l3) := demote l3 evicted
        (⟨[], [], evicted, evicted, dropped⟩, some value, ⟨l1, l2, l3⟩)
      | (none, l3) => (.none, none, ⟨l1, l2, l3⟩)

/-- An insertion, with what it moves. -/
def putLogged (c : TieredCache K V S) (key : K) (value : V) (size : S) : Traffic K V S × TieredCache K V S :=
  let ((_, evicted), l1) := c.l1.putWithEvictions key value size
  let (l3Evictions, l2) := demote c.l2 evicted
  let (dropped, l3) := demote c.l3 l3Evictions
  (⟨evicted, evicted, l3Evictions, l3Evictions, dropped⟩, ⟨l1, l2, l3⟩)

/-- What a call moves. -/
def traffic (c : TieredCache K V S) : TieredCall K V S → Traffic K V S
  | .put key value size => (c.putLogged key value size).1
  | .get key => (c.getLogged key).1
  | .invalidate _ => .none
  | .clear => .none

/-- Collecting what is pushed out does not change what is inserted. -/
theorem putAll_eq (c : LruCache K V S) (entries : List (K × V × S)) : putAll c entries = (demote c entries).2 := by
  induction entries generalizing c with
  | nil => rfl
  | cons entry entries ih =>
    obtain ⟨key, value, size⟩ := entry
    rw [putAll, ih, demote, LruCache.put]

/-- The lookup with a log is the lookup. -/
theorem getLogged_snd (c : TieredCache K V S) (key : K) : (c.getLogged key).2 = c.get key := by
  rw [getLogged, get]
  cases c.l1.get key with
  | mk answer l1 =>
    cases answer with
    | some value => rfl
    | none =>
      cases c.l2.getWithSize key with
      | mk answer l2 =>
        cases answer with
        | some found => simp only [putAll_eq]
        | none =>
          cases c.l3.getWithSize key with
          | mk answer l3 =>
            cases answer with
            | some found => simp only [putAll_eq]
            | none => rfl

/-- The insertion with a log is the insertion. -/
theorem putLogged_snd (c : TieredCache K V S) (key : K) (value : V) (size : S) :
    (c.putLogged key value size).2 = c.put key value size := by
  simp only [putLogged, put, putAll_eq]

/-! ## Room in the second tier -/

/-- A cache takes entries, one after the other, without pushing any out: each has its key in the cache or
finds room. -/
def Absorbs : LruCache K V S → List (K × V × S) → Prop
  | _, [] => True
  | c, (key, value, size) :: rest =>
    (c.entries.lookup key ≠ none ∨ ¬ c.Full size) ∧ Absorbs (c.put key value size).2 rest

/-- A call does not promote an entry from the second tier, or the second tier takes what the first tier
pushes out for it. -/
def Absorbing (c : TieredCache K V S) : TieredCall K V S → Prop
  | .get key => ∀ value size, (c.l1.get key).1 = none → (c.l2.getWithSize key).1 = some (value, size) →
      Absorbs (c.l2.getWithSize key).2 ((c.l1.get key).2.putWithEvictions key value size).1.2
  | _ => True

/-- Nothing is pushed out when the key is there or there is room. -/
theorem evictions_eq_nil {c : LruCache K V S} {key : K} (value : V) {size : S}
    (hroom : c.entries.lookup key ≠ none ∨ ¬ c.Full size) : (c.putWithEvictions key value size).1.2 = [] := by
  rw [LruCache.putWithEvictions]
  cases hentry : c.entries.lookup key with
  | some entry => rfl
  | none =>
    have hfull := hroom.resolve_left (not_not.mpr hentry)
    simp only
    cases c.accessOrder.length with
    | zero => rfl
    | succ fuel => rw [LruCache.evict, if_neg hfull]

/-- What takes entries pushes none out. -/
theorem Absorbs.demote_eq_nil {entries : List (K × V × S)} {c : LruCache K V S} (h : Absorbs c entries) :
    (demote c entries).1 = [] := by
  induction entries generalizing c with
  | nil => rfl
  | cons entry entries ih =>
    obtain ⟨key, value, size⟩ := entry
    rw [demote]
    simp only
    rw [evictions_eq_nil value h.1, List.nil_append]
    exact ih h.2

end Operations

end TieredCache

namespace LruCache

/-- The entries are listed in the access order. -/
def Listed (c : LruCache K V S) : Prop := c.entries.keys = c.accessOrder

/-- A key that is used comes first in both. -/
theorem Listed.touch {c : LruCache K V S} (h : c.Listed) {key : K} {old : CacheEntry V S}
    (hentry : c.entries.lookup key = some old) (entry : CacheEntry V S) :
    (c.entries.insert key entry).keys = touch c.accessOrder key := by
  have hmem : key ∈ c.accessOrder := by
    rw [← h, ← AList.mem_keys, ← AList.lookup_isSome, hentry]
    rfl
  rw [LruCache.touch, if_pos hmem, AList.keys_insert, h]

/-- A lookup keeps the list. -/
theorem Listed.getWithSize {c : LruCache K V S} (h : c.Listed) (key : K) : (c.getWithSize key).2.Listed := by
  rw [LruCache.getWithSize]
  cases hentry : c.entries.lookup key with
  | none => exact h
  | some entry => exact h.touch hentry _

/-- A removal keeps the list. -/
theorem Listed.remove [Sub S] {c : LruCache K V S} (h : c.Listed) (key : K) : (c.remove key).2.Listed := by
  rw [LruCache.remove]
  cases c.entries.lookup key with
  | none => exact h
  | some entry =>
    have hkeys : (c.entries.erase key).keys = c.accessOrder.filter (· ≠ key) := by
      rw [AList.keys_erase, c.entries.keys_nodup.erase_eq_filter, show c.entries.keys = c.accessOrder from h]
      exact List.filter_congr fun other _ => by rw [Bool.eq_iff_iff, decide_eq_true_iff, bne_iff_ne]
    exact hkeys

section Sizes

variable [Add S] [Sub S] [LT S] [DecidableLT S]

/-- A full cache pushes out the last entry of its list first. -/
theorem Listed.evict_succ {c : LruCache K V S} (h : c.Listed) {size : S} (hfull : c.Full size) {oldest : K}
    (holdest : c.accessOrder.getLast? = some oldest) (fuel : ℕ) :
    ∃ entry rest, rest.Listed ∧
      evict size (fuel + 1) c = (entry :: (evict size fuel rest).1, (evict size fuel rest).2) := by
  obtain ⟨init, hinit⟩ := List.getLast?_eq_some_iff.mp holdest
  have hkeys : c.entries.keys = init ++ [oldest] := Eq.trans h hinit
  obtain ⟨entry, hentry⟩ : ∃ entry, c.entries.lookup oldest = some entry := by
    rw [← Option.isSome_iff_exists, AList.lookup_isSome, AList.mem_keys, hkeys]
    exact List.mem_append_right _ (List.mem_singleton_self _)
  refine ⟨(oldest, entry.value, entry.size), { c with
      entries := c.entries.erase oldest
      accessOrder := c.accessOrder.dropLast
      currentSize := c.currentSize - entry.size }, ?_, ?_⟩
  · have hnodup := c.entries.keys_nodup
    rw [hkeys, List.nodup_append] at hnodup
    have habsent : oldest ∉ init := fun hmem => hnodup.2.2 _ hmem _ (List.mem_singleton_self _) rfl
    have herased : (c.entries.erase oldest).keys = c.accessOrder.dropLast := by
      rw [AList.keys_erase, hkeys, hinit, List.dropLast_concat, List.erase_append_right _ habsent,
        List.erase_cons_head, List.append_nil]
    exact herased
  · rw [evict, if_pos hfull, holdest]
    simp only
    rw [hentry]

/-- Pushing out keeps the list. -/
theorem Listed.evict {c : LruCache K V S} (h : c.Listed) (size : S) (fuel : ℕ) : (evict size fuel c).2.Listed := by
  induction fuel generalizing c with
  | zero => exact h
  | succ fuel ih =>
    by_cases hfull : c.Full size
    · cases holdest : c.accessOrder.getLast? with
      | none =>
        rw [LruCache.evict, if_pos hfull, holdest]
        exact h
      | some oldest =>
        obtain ⟨entry, rest, hrest, heq⟩ := h.evict_succ hfull holdest fuel
        rw [heq]
        exact ih hrest
    · rw [LruCache.evict, if_neg hfull]
      exact h

/-- An insertion keeps the list, and puts its key into it. -/
theorem Listed.putWithEvictions {c : LruCache K V S} (h : c.Listed) (key : K) (value : V) (size : S) :
    (c.putWithEvictions key value size).2.Listed ∧ (c.putWithEvictions key value size).2.accessOrder ≠ [] := by
  have hmem : key ∈ (c.putWithEvictions key value size).2.entries.keys := by
    have hpeek := (c.putWithEvictions_self key value size).1
    rw [← AList.mem_keys, ← AList.lookup_isSome, ← Option.isSome_map, ← peek, hpeek]
    rfl
  have hlisted : (c.putWithEvictions key value size).2.Listed := by
    rw [LruCache.putWithEvictions]
    cases hentry : c.entries.lookup key with
    | some entry => exact h.touch hentry _
    | none =>
      obtain ⟨rest, hrest⟩ : ∃ rest, rest = (LruCache.evict size c.accessOrder.length c).2 := ⟨_, rfl⟩
      have hlast := h.evict size c.accessOrder.length
      have habsent : key ∉ rest.entries := by
        rw [← AList.lookup_eq_none, ← Option.map_eq_none_iff, ← peek]
        obtain ⟨hpeek, _⟩ | ⟨hpeek, _⟩ := (evict_spec size c.accessOrder.length c).1 key
        · rw [hrest, hpeek, peek_eq_none hentry]
        · rw [hrest, hpeek]
      rw [← hrest] at hlast
      simp only
      rw [← hrest]
      have hkeys : (rest.entries.insert key ⟨value, 0, size⟩).keys = key :: rest.accessOrder := by
        rw [AList.keys_insert, List.erase_of_not_mem (mt AList.mem_keys.mpr habsent),
          show rest.entries.keys = rest.accessOrder from hlast]
      exact hkeys
  exact ⟨hlisted, List.ne_nil_of_mem (hlisted ▸ hmem)⟩

/-- A listed cache that has entries pushes nothing out exactly when the key is there or there is room. -/
theorem Listed.evictions_eq_nil_iff {c : LruCache K V S} (h : c.Listed) (hsome : c.accessOrder ≠ []) (key : K)
    (value : V) (size : S) :
    (c.putWithEvictions key value size).1.2 = [] ↔ c.entries.lookup key ≠ none ∨ ¬ c.Full size := by
  refine ⟨fun hnil => ?_, TieredCache.evictions_eq_nil value⟩
  by_contra hneither
  rw [not_or, not_not, not_not] at hneither
  obtain ⟨hentry, hfull⟩ := hneither
  obtain ⟨fuel, hfuel⟩ := Nat.exists_eq_succ_of_ne_zero (mt List.eq_nil_of_length_eq_zero hsome)
  obtain ⟨oldest, holdest⟩ := Option.isSome_iff_exists.mp (List.getLast?_isSome.mpr hsome)
  obtain ⟨entry, rest, _, heq⟩ := h.evict_succ hfull holdest fuel
  rw [LruCache.putWithEvictions, hentry] at hnil
  simp only at hnil
  rw [hfuel, heq] at hnil
  cases hnil

end Sizes

end LruCache

namespace TieredCache

section Operations

variable [Add S] [Sub S] [LT S] [DecidableLT S]

/-- A listed cache that has entries takes others without pushing any out exactly when it absorbs them. -/
theorem demote_eq_nil_iff {c : LruCache K V S} (h : c.Listed) (hsome : c.accessOrder ≠ [])
    (entries : List (K × V × S)) : (demote c entries).1 = [] ↔ Absorbs c entries := by
  induction entries generalizing c with
  | nil => exact iff_of_true rfl trivial
  | cons entry entries ih =>
    obtain ⟨key, value, size⟩ := entry
    obtain ⟨hlisted, hsome'⟩ := h.putWithEvictions key value size
    rw [demote, Absorbs]
    simp only
    rw [List.append_eq_nil_iff, h.evictions_eq_nil_iff hsome, ih hlisted hsome']
    rfl

/-- Demotion keeps the list. -/
theorem demote_listed {c : LruCache K V S} (h : c.Listed) (entries : List (K × V × S)) :
    (demote c entries).2.Listed := by
  induction entries generalizing c with
  | nil => exact h
  | cons entry entries ih => exact ih (h.putWithEvictions _ _ _).1

/-- The tiers are listed. -/
structure TiersListed (c : TieredCache K V S) : Prop where
  l1 : c.l1.Listed
  l2 : c.l2.Listed
  l3 : c.l3.Listed

/-- What a lookup does and moves: nothing, or it promotes from the second tier, or from the third. -/
theorem getLogged_cases (c : TieredCache K V S) (key : K) :
    ((c.getLogged key).1 = .none ∧ (c.get key).2.visible = c.visible ∧
      (∀ value size, (c.l1.get key).1 = none → (c.l2.getWithSize key).1 ≠ some (value, size)) ∧
      (c.TiersListed → (c.get key).2.TiersListed)) ∨
    (∃ value size, (c.l1.get key).1 = none ∧ (c.l2.getWithSize key).1 = some (value, size) ∧
      c.getLogged key =
        (⟨((c.l1.get key).2.putWithEvictions key value size).1.2,
            ((c.l1.get key).2.putWithEvictions key value size).1.2,
            (demote (c.l2.getWithSize key).2 ((c.l1.get key).2.putWithEvictions key value size).1.2).1, [], []⟩,
          some value,
          ⟨((c.l1.get key).2.putWithEvictions key value size).2,
            (demote (c.l2.getWithSize key).2 ((c.l1.get key).2.putWithEvictions key value size).1.2).2, c.l3⟩)) ∨
    (∃ value size, (c.l1.get key).1 = none ∧ (c.l2.getWithSize key).1 = none ∧
      (c.l3.getWithSize key).1 = some (value, size) ∧
      c.getLogged key =
        (⟨[], [], ((c.l2.getWithSize key).2.putWithEvictions key value size).1.2,
            ((c.l2.getWithSize key).2.putWithEvictions key value size).1.2,
            (demote (c.l3.getWithSize key).2 ((c.l2.getWithSize key).2.putWithEvictions key value size).1.2).1⟩,
          some value,
          ⟨(c.l1.get key).2, ((c.l2.getWithSize key).2.putWithEvictions key value size).2,
            (demote (c.l3.getWithSize key).2
              ((c.l2.getWithSize key).2.putWithEvictions key value size).1.2).2⟩)) := by
  have h1 : (c.l1.get key).2.peek = c.l1.peek := c.l1.getWithSize_peek key
  have h2 := c.l2.getWithSize_peek key
  have h3 := c.l3.getWithSize_peek key
  have hlisted1 : c.l1.Listed → (c.l1.get key).2.Listed := fun h => h.getWithSize key
  have hlisted2 : c.l2.Listed → (c.l2.getWithSize key).2.Listed := fun h => h.getWithSize key
  have hlisted3 : c.l3.Listed → (c.l3.getWithSize key).2.Listed := fun h => h.getWithSize key
  revert h1 h2 h3 hlisted1 hlisted2 hlisted3
  rw [get, getLogged]
  cases c.l1.get key with
  | mk answer l1 =>
    cases answer with
    | some value =>
      intro h1 h2 h3 hlisted1 hlisted2 hlisted3
      refine Or.inl ⟨rfl, ?_, ?_, ?_⟩
      · funext other
        simp only [visible, upper, h1]
      · intro _ _ hmiss
        cases hmiss
      · exact fun h => ⟨hlisted1 h.l1, h.l2, h.l3⟩
    | none =>
      cases c.l2.getWithSize key with
      | mk answer l2 =>
        cases answer with
        | some found =>
          intro _ _ _ _ _ _
          exact Or.inr (Or.inl ⟨found.1, found.2, rfl, rfl, rfl⟩)
        | none =>
          cases c.l3.getWithSize key with
          | mk answer l3 =>
            cases answer with
            | some found =>
              intro _ _ _ _ _ _
              exact Or.inr (Or.inr ⟨found.1, found.2, rfl, rfl, rfl, rfl⟩)
            | none =>
              intro h1 h2 h3 hlisted1 hlisted2 hlisted3
              refine Or.inl ⟨rfl, ?_, ?_, ?_⟩
              · funext other
                simp only [visible, upper, h1, h2, h3]
              · intro _ _ _ hhit
                cases hhit
              · exact fun h => ⟨hlisted1 h.l1, hlisted2 h.l2, hlisted3 h.l3⟩

/-- A promotion keeps what the two caches have for every key, if what the lower one pushes out counts. -/
theorem promotion_conserves (upper lower : LruCache K V S) {key : K} {value : V} (size : S)
    (hupper : upper.peek key = none) (hlower : lower.peek key = some value) (other : K) :
    ((upper.putWithEvictions key value size).2.peek other).or
        (((demote lower (upper.putWithEvictions key value size).1.2).2.peek other).or
          (LruCache.latest (demote lower (upper.putWithEvictions key value size).1.2).1 other)) =
      (upper.peek other).or (lower.peek other) := by
  by_cases hother : other = key
  · subst hother
    rw [(upper.putWithEvictions_self other value size).1, hupper, hlower]
    rfl
  · rw [demote_or_latest, ← Option.or_assoc, or_latest_putWithEvictions upper hother]

/-- An insertion keeps what is visible for the other keys, if what the third tier pushes out counts. -/
theorem put_conserves (c : TieredCache K V S) (key : K) (value : V) (size : S) {other : K} (hother : other ≠ key) :
    ((c.put key value size).visible other).or (LruCache.latest (c.putLogged key value size).1.fromL3 other) =
      c.visible other := by
  rw [← putLogged_snd, putLogged]
  simp only [visible, upper]
  rw [← or_latest_putWithEvictions c.l1 hother value size]
  generalize (c.l1.putWithEvictions key value size).1.2 = evicted
  have hdemote := demote_or_latest evicted c.l2 other
  have hlast := demote_or_latest (demote c.l2 evicted).1 c.l3 other
  simp only [Option.or_assoc]
  rw [hlast]
  refine congrArg _ ?_
  rw [← Option.or_assoc, hdemote, Option.or_assoc]

/-- A lookup keeps what is visible, if what the third tier pushes out counts, unless the second tier pushes
out something for an entry that it promotes. -/
theorem get_conserves (c : TieredCache K V S) (key : K) (habsorbing : c.Absorbing (.get key)) (other : K) :
    ((c.get key).2.visible other).or (LruCache.latest (c.traffic (.get key)).fromL3 other) = c.visible other := by
  have hpeek1 : (c.l1.get key).2.peek = c.l1.peek := c.l1.getWithSize_peek key
  have hpeek2 := c.l2.getWithSize_peek key
  have hpeek3 := c.l3.getWithSize_peek key
  rw [traffic]
  obtain ⟨hnone, hsame, _, _⟩ | ⟨value, size, hmiss, hhit, hlogged⟩ | ⟨value, size, _, hmiss, hhit, hlogged⟩ :=
    c.getLogged_cases key
  · rw [hnone, hsame]
    exact Option.or_none
  · have hpromotion := promotion_conserves (c.l1.get key).2 (c.l2.getWithSize key).2 size
      (by rw [hpeek1]; exact (c.l1.getWithSize_fst key).symm.trans hmiss)
      (by rw [hpeek2]; exact LruCache.peek_of_getWithSize hhit) other
    have habsorbs := (habsorbing value size hmiss hhit).demote_eq_nil
    rw [← getLogged_snd, hlogged]
    simp only [visible, upper]
    rw [habsorbs, LruCache.latest, Option.or_none, hpeek1, hpeek2] at hpromotion
    rw [hpromotion, LruCache.latest, Option.or_none]
  · have hpromotion := promotion_conserves (c.l2.getWithSize key).2 (c.l3.getWithSize key).2 size
      (by rw [hpeek2]; exact LruCache.peek_of_getWithSize_none hmiss)
      (by rw [hpeek3]; exact LruCache.peek_of_getWithSize hhit) other
    rw [← getLogged_snd, hlogged]
    simp only [visible, upper, Option.or_assoc]
    rw [hpromotion, hpeek1, hpeek2, hpeek3]

/-- Lookups and insertions hand down what the first two tiers push out exactly when the second tier pushes
nothing out for an entry that it promotes. -/
theorem handsDown_iff {c : TieredCache K V S} (hlisted : c.TiersListed) (call : TieredCall K V S) :
    ((c.traffic call).fromL1 ⊆ (c.traffic call).toL2 ∧ (c.traffic call).fromL2 ⊆ (c.traffic call).toL3) ↔
      c.Absorbing call := by
  cases call with
  | put key value size => exact iff_of_true ⟨List.Subset.refl _, List.Subset.refl _⟩ trivial
  | invalidate key => exact iff_of_true ⟨List.Subset.refl _, List.Subset.refl _⟩ trivial
  | clear => exact iff_of_true ⟨List.Subset.refl _, List.Subset.refl _⟩ trivial
  | get key =>
    rw [traffic, Absorbing]
    obtain ⟨hnone, _, hmiss, _⟩ | ⟨value, size, hmiss, hhit, hlogged⟩ | ⟨value, size, _, hmiss, hhit, hlogged⟩ :=
      c.getLogged_cases key
    · rw [hnone]
      exact iff_of_true ⟨List.Subset.refl _, List.Subset.refl _⟩
        fun value size hl1 hl2 => absurd hl2 (hmiss value size hl1)
    · have hsome : (c.l2.getWithSize key).2.accessOrder ≠ [] := by
        have hpeek := c.l2.getWithSize_peek key
        have hkey : (c.l2.getWithSize key).2.peek key ≠ none := by
          rw [hpeek, LruCache.peek_of_getWithSize hhit]
          exact Option.some_ne_none value
        have hmem : key ∈ (c.l2.getWithSize key).2.entries.keys := by
          rw [← AList.mem_keys, ← AList.lookup_isSome, ← Option.isSome_map, ← LruCache.peek]
          exact Option.isSome_iff_ne_none.mpr hkey
        exact List.ne_nil_of_mem ((hlisted.l2.getWithSize key) ▸ hmem)
      have hiff := demote_eq_nil_iff (hlisted.l2.getWithSize key) hsome
        ((c.l1.get key).2.putWithEvictions key value size).1.2
      rw [hlogged]
      constructor
      · rintro ⟨-, hempty⟩ value' size' _ hhit'
        rw [hhit] at hhit'
        cases hhit'
        exact hiff.mp (List.subset_nil.mp hempty)
      · intro habsorbs
        rw [hiff.mpr (habsorbs value size hmiss hhit)]
        exact ⟨List.Subset.refl _, List.Subset.refl _⟩
    · rw [hlogged]
      refine iff_of_true ⟨List.Subset.refl _, List.Subset.refl _⟩ fun value' size' _ hhit' => ?_
      rw [hmiss] at hhit'
      cases hhit'

/-- A lookup keeps the tiers listed. -/
theorem TiersListed.get {c : TieredCache K V S} (h : c.TiersListed) (key : K) : (c.get key).2.TiersListed := by
  have h1 : (c.l1.get key).2.Listed := h.l1.getWithSize key
  have h2 := h.l2.getWithSize key
  have h3 := h.l3.getWithSize key
  obtain ⟨_, _, _, hget⟩ | ⟨value, size, _, _, hlogged⟩ | ⟨value, size, _, _, _, hlogged⟩ := c.getLogged_cases key
  · exact hget h
  · rw [← getLogged_snd, hlogged]
    exact ⟨(h1.putWithEvictions key value size).1, demote_listed h2 _, h.l3⟩
  · rw [← getLogged_snd, hlogged]
    exact ⟨h1, (h2.putWithEvictions key value size).1, demote_listed h3 _⟩

/-- An insertion keeps the tiers listed. -/
theorem TiersListed.put {c : TieredCache K V S} (h : c.TiersListed) (key : K) (value : V) (size : S) :
    (c.put key value size).TiersListed := by
  rw [← putLogged_snd, putLogged]
  exact ⟨(h.l1.putWithEvictions key value size).1, demote_listed h.l2 _, demote_listed h.l3 _⟩

end Operations

/-! ## Runs -/

/-- The third tier pushed a key out during one of the calls, and it was not inserted in this call or since. -/
def LostToL3 (history : List (TieredCall K V UInt64)) (key : K) : Prop :=
  ∃ before call rest, history = before ++ call :: rest ∧
    key ∈ ((after before).traffic call).fromL3.map Prod.fst ∧ ∀ later ∈ call :: rest, later.puts key = false

/-- Entries only get lost off the third tier: what was inserted last is found, or the third tier pushed it
out, and the other tiers hand down everything they push out. -/
structure Conserved (history : List (TieredCall K V UInt64)) : Prop where
  found : ∀ key value, lastPut history key = some value →
    ((after history).get key).1 = some value ∨ LostToL3 history key
  handsDown : ∀ before call, before ++ [call] <+: history →
    ((after before).traffic call).fromL1 ⊆ ((after before).traffic call).toL2 ∧
      ((after before).traffic call).fromL2 ⊆ ((after before).traffic call).toL3

/-- The tiers are listed after every run. -/
theorem after_listed (history : List (TieredCall K V UInt64)) : (after history).TiersListed := by
  induction history using List.reverseRecOn with
  | nil => exact ⟨rfl, rfl, rfl⟩
  | append_singleton history call ih =>
    rw [after_snoc]
    cases call with
    | put key value size => exact ih.put key value size
    | get key => exact ih.get key
    | invalidate key => exact ⟨ih.l1.remove key, ih.l2.remove key, ih.l3.remove key⟩
    | clear => exact ⟨rfl, rfl, rfl⟩

/-- A key that was lost stays lost until it is inserted. -/
theorem LostToL3.snoc {history : List (TieredCall K V UInt64)} {key : K} (h : LostToL3 history key)
    {call : TieredCall K V UInt64} (hputs : call.puts key = false) : LostToL3 (history ++ [call]) key := by
  obtain ⟨before, lost, rest, rfl, hmem, hlater⟩ := h
  refine ⟨before, lost, rest ++ [call], by rw [List.append_assoc, List.cons_append], hmem, fun later hmem => ?_⟩
  rw [← List.cons_append, List.mem_append, List.mem_singleton] at hmem
  rcases hmem with hmem | rfl
  · exact hlater later hmem
  · exact hputs

/-- What was visible is visible after a call that leaves its key, or the third tier pushed it out. -/
theorem found_snoc {history : List (TieredCall K V UInt64)} {call : TieredCall K V UInt64} {key : K} {value : V}
    (hputs : call.puts key = false)
    (hconserves : (((after history).call call).visible key).or
      (LruCache.latest ((after history).traffic call).fromL3 key) = (after history).visible key)
    (hfound : ((after history).get key).1 = some value ∨ LostToL3 history key) :
    ((after (history ++ [call])).get key).1 = some value ∨ LostToL3 (history ++ [call]) key := by
  rcases hfound with hfound | hlost
  · rw [get_fst] at hfound ⊢
    rw [after_snoc]
    rw [hfound] at hconserves
    rcases Option.or_eq_some_iff.mp hconserves with hstill | ⟨_, hdropped⟩
    · exact Or.inl hstill
    · refine Or.inr ⟨history, call, [], rfl, ?_, fun later hmem => ?_⟩
      · by_contra habsent
        rw [LruCache.latest_eq_none habsent] at hdropped
        cases hdropped
      · rw [List.mem_singleton.mp hmem]
        exact hputs
  · exact Or.inr (hlost.snoc hputs)

/-- A call that pushes nothing out of the second tier for an entry that it promotes conserves the entries. -/
theorem Conserved.snoc {history : List (TieredCall K V UInt64)} (h : Conserved history)
    {call : TieredCall K V UInt64} (habsorbing : (after history).Absorbing call) : Conserved (history ++ [call]) where
  found key value hlast := by
    rw [lastPut, List.foldl_append, ← lastPut] at hlast
    cases call with
    | put other inserted size =>
      simp only [List.foldl_cons, List.foldl_nil] at hlast
      by_cases hkey : key = other
      · rw [if_pos hkey] at hlast
        have hput := (after history).put_visible other inserted size key
        rw [if_pos hkey, hlast] at hput
        rw [get_fst, after_snoc]
        exact Or.inl hput
      · rw [if_neg hkey] at hlast
        exact found_snoc (decide_eq_false hkey) ((after history).put_conserves other inserted size hkey)
          (h.found key value hlast)
    | get other => exact found_snoc rfl ((after history).get_conserves other habsorbing key) (h.found key value hlast)
    | invalidate other =>
      simp only [List.foldl_cons, List.foldl_nil] at hlast
      by_cases hkey : key = other
      · rw [if_pos hkey] at hlast
        cases hlast
      · rw [if_neg hkey] at hlast
        refine found_snoc rfl ?_ (h.found key value hlast)
        rw [call, invalidate_visible, if_neg hkey]
        exact Option.or_none
    | clear => cases hlast
  handsDown before last hinitial := by
    rcases List.prefix_concat_iff.mp hinitial with heq | hinitial
    · obtain ⟨rfl, rfl⟩ := List.append_singleton_inj.mp heq
      exact (handsDown_iff (after_listed before) last).mpr habsorbing
    · exact h.handsDown before last hinitial

/-- The tiered cache loses entries only off its third tier along a run exactly when no lookup of the run promotes
an entry from the second tier while that has no room for what the first tier pushes out. -/
theorem conserved_iff_absorbing (calls : List (TieredCall K V UInt64)) :
    (∀ history, history <+: calls → Conserved history) ↔
      ∀ history call, history ++ [call] <+: calls → (after history).Absorbing call := by
  refine forall_prefix_iff_steps Conserved Conserved _ ?_ (fun history call h habsorbing => h.snoc habsorbing)
    (fun _ h => h) (fun history call _ h => ?_) calls
  · refine ⟨fun key value hlast => (by cases hlast), fun before call hinitial => ?_⟩
    exact absurd (List.prefix_nil.mp hinitial) (List.concat_ne_nil _ _)
  · exact (handsDown_iff (after_listed history) call).mp (h.handsDown history call (List.prefix_refl _))

/-- A hundred and two entries of 1 MB fill the first two tiers. The promotion of one of them pushes the oldest
entry of the second tier out, which is found nowhere then. -/
theorem not_conserved_after_promotion :
    ¬ Conserved (((List.range 102).map fun i => TieredCall.put i i (1024 * 1024)) ++ [.get 50]) ∧
      ((after (((List.range 102).map fun i => TieredCall.put i i (1024 * 1024)) ++ [.get 50])).get 1).1 = none := by
  have hrun : ¬ ((after ((List.range 102).map fun i => TieredCall.put i i (1024 * 1024))).traffic (.get 50)).fromL2 ⊆
        ((after ((List.range 102).map fun i => TieredCall.put i i (1024 * 1024))).traffic (.get 50)).toL3 ∧
      ((after (((List.range 102).map fun i => TieredCall.put i i (1024 * 1024)) ++ [.get 50])).get 1).1 = none := by
    decide +kernel
  exact ⟨fun h => hrun.1 (h.handsDown _ _ (List.prefix_refl _)).2, hrun.2⟩

end TieredCache

end Forge.Cache
