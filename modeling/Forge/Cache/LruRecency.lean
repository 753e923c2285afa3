import Forge.Cache.LruCache
import Forge.Common.Histories
import Forge.Common.RecencyList
import Mathlib.Data.List.Induction

/-!
# The least recently used caches are recency lists

A cache keeps a map, an order of its keys and a sum of sizes, and every operation updates all three. What
they are to be together is a recency list: the keys in the order, each with what the map has for it, and
the sum of their sizes. Both caches answer as that list does, and stay such a list.
-/

namespace Forge.Cache

open Forge.Common

variable {K V : Type*} [DecidableEq K]

/-- The calls that both caches have. -/
inductive CacheCall (K V : Type*) where
  | get (key : K)
  | put (key : K) (value : V) (size : ℕ)

/-- The calls of the cache with counters. -/
inductive LruCall (K V : Type*) where
  | get (key : K)
  | put (key : K) (value : V) (size : ℕ)
  | remove (key : K)
  | clear

/-- A call that both caches have, to the cache with counters. -/
def CacheCall.toLru : CacheCall K V → LruCall K V
  | .get key => .get key
  | .put key value size => .put key value size

/-- What a call answers: a value, and the entries that were pushed out. -/
abbrev LruAnswer (K V : Type*) := Option V × List (K × V × ℕ)

/-- One call of the cache with counters. -/
def LruCache.call (c : LruCache K V ℕ) : LruCall K V → LruAnswer K V × LruCache K V ℕ
  | .get key => (((c.get key).1, []), (c.get key).2)
  | .put key value size => c.putWithEvictions key value size
  | .remove key => (((c.remove key).1, []), (c.remove key).2)
  | .clear => ((none, []), c.clear)

/-- One call of the cache under spin locks. -/
def SpinLockLruCache.call (c : SpinLockLruCache K V ℕ) : CacheCall K V → Option V × SpinLockLruCache K V ℕ
  | .get key => c.get key
  | .put key value size => c.put key value size

/-- A new cache with counters after calls. -/
def LruCache.after (capacity maxSize : ℕ) (history : List (LruCall K V)) : LruCache K V ℕ :=
  history.foldl (fun c call => (c.call call).2) (.new capacity maxSize)

/-- A new cache under spin locks after calls. -/
def SpinLockLruCache.after (capacity maxSize : ℕ) (history : List (CacheCall K V)) : SpinLockLruCache K V ℕ :=
  history.foldl (fun c call => (c.call call).2) (.new capacity maxSize)

/-! ## What the caches are to be -/

/-- Whether there is room for one more entry of a size. -/
def HasRoom (capacity maxSize size : ℕ) (r : RecencyList K (V × ℕ)) : Prop :=
  r.keys.length < capacity ∧ r.total Prod.snd + size ≤ maxSize

instance (capacity maxSize size : ℕ) : DecidablePred (HasRoom (K := K) (V := V) capacity maxSize size) :=
  fun _ => instDecidableAnd

/-- One call of a recency list with a limited number of entries and a limited size. A new entry is put in
front of as many others as leave room for it. -/
def recencyCall (capacity maxSize : ℕ) (r : RecencyList K (V × ℕ)) :
    LruCall K V → LruAnswer K V × RecencyList K (V × ℕ)
  | .get key =>
    match r.lookup key with
    | some entry => ((some entry.1, []), r.insert key entry)
    | none => ((none, []), r)
  | .put key value size =>
    match r.lookup key with
    | some entry => ((some entry.1, []), r.insert key (value, size))
    | none =>
      let kept := r.fitting (HasRoom capacity maxSize size)
      ((none, r.droppedAfter kept), (r.first kept).insert key (value, size))
  | .remove key => (((r.lookup key).map Prod.fst, []), r.erase key)
  | .clear => ((none, []), ∅)

/-- An empty recency list after calls. -/
def recencyAfter (capacity maxSize : ℕ) (history : List (LruCall K V)) : RecencyList K (V × ℕ) :=
  history.foldl (fun r call => (recencyCall capacity maxSize r call).2) ∅

/-- A cache is a recency list: it has the keys in this order, with these values and sizes. -/
structure Represents (capacity maxSize : ℕ) (c : SpinLockLruCache K V ℕ) (r : RecencyList K (V × ℕ)) : Prop where
  capacity : c.capacity = capacity
  maxSize : c.maxSize = maxSize
  order : c.accessOrder = r.keys
  stored : ∀ key, (c.entries.lookup key).map (fun entry => (entry.value, entry.size)) = r.lookup key
  size : c.currentSize = r.total Prod.snd

namespace Represents

variable {capacity maxSize : ℕ} {c : SpinLockLruCache K V ℕ} {r : RecencyList K (V × ℕ)}

/-- A new cache is empty. -/
theorem new (capacity maxSize : ℕ) :
    Represents capacity maxSize (SpinLockLruCache.new capacity maxSize) (∅ : RecencyList K (V × ℕ)) :=
  ⟨rfl, rfl, rfl, fun _ => rfl, rfl⟩

/-- What is stored under a key. -/
theorem lookup_some (h : Represents capacity maxSize c r) {key : K} {entry : CacheEntry V ℕ}
    (hentry : c.entries.lookup key = some entry) : r.lookup key = some (entry.value, entry.size) := by
  rw [← h.stored, hentry, Option.map_some]

/-- A key without an entry. -/
theorem lookup_none (h : Represents capacity maxSize c r) {key : K} :
    c.entries.lookup key = none ↔ r.lookup key = none := by
  rw [← h.stored, Option.map_eq_none_iff]

/-- The order has the keys of the entries. -/
theorem mem_order (h : Represents capacity maxSize c r) (key : K) : key ∈ c.accessOrder ↔ key ∈ c.entries := by
  rw [h.order, ← AList.mem_keys, ← not_iff_not, ← AList.lookup_eq_none, ← AList.lookup_eq_none, h.lookup_none]

/-- The keys stand in the order once each. -/
theorem order_perm (h : Represents capacity maxSize c r) : c.accessOrder.Perm c.entries.keys := by
  refine (List.perm_ext_iff_of_nodup ?_ c.entries.keys_nodup).mpr fun key => ?_
  · rw [h.order]
    exact r.keys_nodup
  · rw [h.mem_order, AList.mem_keys]

/-- A key that is used becomes the first one. -/
theorem touch_order (h : Represents capacity maxSize c r) {key : K} (hkey : r.lookup key ≠ none) (entry : V × ℕ) :
    LruCache.touch c.accessOrder key = (r.insert key entry).keys := by
  have hmem : key ∈ r.keys := by
    by_contra habsent
    exact hkey (AList.lookup_eq_none.mpr fun hmem => habsent (AList.mem_keys.mp hmem))
  rw [LruCache.touch, h.order, if_pos hmem, AList.keys_insert]

/-- What is stored after an entry is inserted. -/
theorem stored_insert (h : Represents capacity maxSize c r) (key : K) (entry : CacheEntry V ℕ) (other : K) :
    ((c.entries.insert key entry).lookup other).map (fun entry => (entry.value, entry.size)) =
      AList.lookup other (r.insert key (entry.value, entry.size)) := by
  by_cases hother : other = key
  · subst hother
    rw [AList.lookup_insert, AList.lookup_insert, Option.map_some]
  · rw [AList.lookup_insert_ne hother, AList.lookup_insert_ne hother, h.stored]

/-- What is stored after an entry is erased. -/
theorem stored_erase (h : Represents capacity maxSize c r) (key other : K) :
    ((c.entries.erase key).lookup other).map (fun entry => (entry.value, entry.size)) =
      AList.lookup other (r.erase key) := by
  by_cases hother : other = key
  · subst hother
    rw [AList.lookup_erase, AList.lookup_erase, Option.map_none]
  · rw [AList.lookup_erase_ne hother, AList.lookup_erase_ne hother, h.stored]

/-- The size after an entry is replaced. -/
theorem size_insert (h : Represents capacity maxSize c r) {key : K} {entry : CacheEntry V ℕ}
    (hentry : c.entries.lookup key = some entry) (value : V) (size : ℕ) :
    c.currentSize - entry.size + size = RecencyList.total Prod.snd (r.insert key (value, size)) := by
  have htotal := RecencyList.total_erase Prod.snd (h.lookup_some hentry)
  have hsize := h.size
  rw [RecencyList.total_insert]
  simp only at htotal ⊢
  omega

/-- Whether the cache is full for an entry. -/
theorem full_iff (h : Represents capacity maxSize c r) (size : ℕ) :
    c.Full size ↔ ¬ HasRoom capacity maxSize size r := by
  have hlength : c.entries.keys.length = r.keys.length := by rw [← h.order_perm.length_eq, h.order]
  rw [SpinLockLruCache.Full, HasRoom, hlength, h.capacity, h.maxSize, h.size]
  omega

end Represents

namespace LruCache

variable {capacity maxSize : ℕ}

/-- Pushing out the last key leaves the entries before it. -/
theorem dropLast_represents {r : RecencyList K (V × ℕ)} {n : ℕ} (hn : n < r.entries.length) {c : LruCache K V ℕ}
    (h : Represents capacity maxSize c.core (r.first (n + 1))) {entry : CacheEntry V ℕ}
    (hvalue : (entry.value, entry.size) = r.entries[n].2) :
    Represents capacity maxSize (core { c with
        entries := c.entries.erase r.entries[n].1
        accessOrder := c.accessOrder.dropLast
        currentSize := c.currentSize - entry.size }) (r.first n) := by
  refine ⟨h.capacity, h.maxSize, ?_, fun key => ?_, ?_⟩
  · change c.accessOrder.dropLast = (r.first n).keys
    rw [show c.accessOrder = (r.first (n + 1)).keys from h.order, RecencyList.keys_first_succ hn, List.dropLast_concat]
  · rw [← RecencyList.erase_last hn]
    exact h.stored_erase _ key
  · have hsize := h.size
    rw [RecencyList.total_first_succ _ hn, ← hvalue] at hsize
    exact Nat.sub_eq_of_eq_add hsize

/-- Pushing out keeps as many entries from the front as leave room, and gives the others. -/
theorem evict_represents (size : ℕ) {r : RecencyList K (V × ℕ)} {n : ℕ} (hn : n ≤ r.entries.length)
    {c : LruCache K V ℕ} (h : Represents capacity maxSize c.core (r.first n)) :
    let kept := Nat.findGreatest (fun n => HasRoom capacity maxSize size (r.first n)) n
    (evict size n c).1 = (r.first n).droppedAfter kept ∧
      Represents capacity maxSize (evict size n c).2.core (r.first kept) := by
  induction n generalizing c with
  | zero => exact ⟨rfl, h⟩
  | succ n ih =>
    rw [evict]
    by_cases hfull : c.Full size
    · have hroom := (h.full_iff size).mp hfull
      have hlast : c.accessOrder.getLast? = some r.entries[n].1 := by
        rw [show c.accessOrder = (r.first (n + 1)).keys from h.order, RecencyList.keys_first_succ hn,
          List.getLast?_concat]
      obtain ⟨entry, hentry, hvalue⟩ :=
        Option.map_eq_some_iff.mp ((h.stored _).trans (RecencyList.lookup_first_succ hn))
      obtain ⟨hevicted, hrepresents⟩ := ih (Nat.le_of_succ_le hn) (dropLast_represents hn h hvalue)
      rw [if_pos hfull, hlast]
      simp only
      rw [show c.entries.lookup r.entries[n].1 = some entry from hentry]
      simp only
      rw [Nat.findGreatest_succ, if_neg hroom]
      refine ⟨?_, hrepresents⟩
      rw [hevicted, RecencyList.droppedAfter_first_succ hn (Nat.findGreatest_le n), ← hvalue]
    · have hroom := not_not.mp (mt (h.full_iff size).mpr hfull)
      rw [if_neg hfull, Nat.findGreatest_succ, if_pos hroom]
      refine ⟨?_, h⟩
      rw [RecencyList.droppedAfter, RecencyList.first, List.drop_eq_nil_of_le (List.length_take_le _ _)]
      rfl

/-- A lookup answers as the recency list does. -/
theorem get_represents {c : LruCache K V ℕ} {r : RecencyList K (V × ℕ)} (h : Represents capacity maxSize c.core r)
    (key : K) :
    (c.call (.get key)).1 = (recencyCall capacity maxSize r (.get key)).1 ∧
      Represents capacity maxSize (c.call (.get key)).2.core (recencyCall capacity maxSize r (.get key)).2 := by
  rw [call, recencyCall, get, getWithSize]
  cases hentry : c.entries.lookup key with
  | none =>
    rw [h.lookup_none.mp hentry]
    exact ⟨rfl, h⟩
  | some entry =>
    have hlookup := h.lookup_some hentry
    rw [hlookup]
    refine ⟨rfl, h.capacity, h.maxSize, ?_, ?_, ?_⟩
    · exact h.touch_order (by rw [hlookup]; exact Option.some_ne_none _) _
    · exact h.stored_insert key { entry with accessCount := entry.accessCount + 1 }
    · change c.currentSize = _
      rw [RecencyList.total_insert, Nat.add_comm, RecencyList.total_erase Prod.snd hlookup]
      exact h.size

/-- An insertion answers as the recency list does. -/
theorem put_represents {c : LruCache K V ℕ} {r : RecencyList K (V × ℕ)} (h : Represents capacity maxSize c.core r)
    (key : K) (value : V) (size : ℕ) :
    (c.call (.put key value size)).1 = (recencyCall capacity maxSize r (.put key value size)).1 ∧
      Represents capacity maxSize (c.call (.put key value size)).2.core
        (recencyCall capacity maxSize r (.put key value size)).2 := by
  rw [call, recencyCall, putWithEvictions]
  cases hentry : c.entries.lookup key with
  | none =>
    have hnone := h.lookup_none.mp hentry
    rw [hnone]
    simp only
    have hlength : c.accessOrder.length = r.entries.length := by
      rw [show c.accessOrder = r.keys from h.order, RecencyList.length_keys]
    obtain ⟨hevicted, hrest⟩ := evict_represents size le_rfl
      (show Represents capacity maxSize c.core (r.first r.entries.length) by rwa [RecencyList.first_length])
    rw [RecencyList.first_length] at hevicted
    rw [hlength]
    obtain ⟨kept, hkept⟩ : ∃ kept, kept = r.fitting (HasRoom capacity maxSize size) := ⟨_, rfl⟩
    rw [← RecencyList.fitting, ← hkept] at hevicted hrest
    rw [← hkept, hevicted]
    have habsent := RecencyList.lookup_first_none kept hnone
    refine ⟨rfl, hrest.capacity, hrest.maxSize, ?_, ?_, ?_⟩
    · change key :: (evict size r.entries.length c).2.accessOrder = _
      rw [AList.keys_insert, ← AList.keys_erase, RecencyList.erase_of_lookup_none habsent]
      exact congrArg (key :: ·) hrest.order
    · exact hrest.stored_insert key ⟨value, 0, size⟩
    · change (evict size r.entries.length c).2.currentSize + size = _
      rw [RecencyList.total_insert, RecencyList.erase_of_lookup_none habsent, Nat.add_comm]
      exact congrArg (size + ·) hrest.size
  | some entry =>
    have hlookup := h.lookup_some hentry
    rw [hlookup]
    refine ⟨rfl, h.capacity, h.maxSize, ?_, ?_, ?_⟩
    · exact h.touch_order (by rw [hlookup]; exact Option.some_ne_none _) _
    · exact h.stored_insert key { entry with value := value, size := size }
    · exact h.size_insert hentry value size

/-- A removal answers as the recency list does. -/
theorem remove_represents {c : LruCache K V ℕ} {r : RecencyList K (V × ℕ)}
    (h : Represents capacity maxSize c.core r) (key : K) :
    (c.call (.remove key)).1 = (recencyCall capacity maxSize r (.remove key)).1 ∧
      Represents capacity maxSize (c.call (.remove key)).2.core
        (recencyCall capacity maxSize r (.remove key)).2 := by
  rw [call, recencyCall, remove]
  cases hentry : c.entries.lookup key with
  | none =>
    have hnone := h.lookup_none.mp hentry
    rw [hnone, RecencyList.erase_of_lookup_none hnone]
    exact ⟨rfl, h⟩
  | some entry =>
    have hlookup := h.lookup_some hentry
    rw [hlookup]
    refine ⟨rfl, h.capacity, h.maxSize, ?_, h.stored_erase key, ?_⟩
    · change c.accessOrder.filter (· ≠ key) = _
      rw [AList.keys_erase, r.keys_nodup.erase_eq_filter, show c.accessOrder = r.keys from h.order]
      exact List.filter_congr fun other _ => by rw [Bool.eq_iff_iff, decide_eq_true_iff, bne_iff_ne]
    · have htotal := RecencyList.total_erase Prod.snd hlookup
      have hsize := h.size
      exact Nat.sub_eq_of_eq_add (hsize.trans htotal.symm)

/-- Every call answers as the recency list does. -/
theorem call_represents {c : LruCache K V ℕ} {r : RecencyList K (V × ℕ)}
    (h : Represents capacity maxSize c.core r) (call : LruCall K V) :
    (c.call call).1 = (recencyCall capacity maxSize r call).1 ∧
      Represents capacity maxSize (c.call call).2.core (recencyCall capacity maxSize r call).2 := by
  cases call with
  | get key => exact get_represents h key
  | put key value size => exact put_represents h key value size
  | remove key => exact remove_represents h key
  | clear => exact ⟨rfl, h.capacity, h.maxSize, rfl, fun _ => rfl, rfl⟩

/-- The cache is a recency list after every run. -/
theorem after_represents (capacity maxSize : ℕ) (history : List (LruCall K V)) :
    Represents capacity maxSize (after capacity maxSize history).core (recencyAfter capacity maxSize history) := by
  induction history using List.reverseRecOn with
  | nil => exact Represents.new capacity maxSize
  | append_singleton history call ih =>
    rw [after, recencyAfter, List.foldl_append, List.foldl_append]
    exact (call_represents ih call).2

end LruCache

/-! ## What that means for a run -/

/-- Whether a call uses a key. -/
def LruCall.uses (key : K) : LruCall K V → Bool
  | .get other => other = key
  | .put other _ _ => other = key
  | .remove _ => false
  | .clear => false

/-- How many calls there were since the last use of a key. -/
def sinceUse (history : List (LruCall K V)) (key : K) : ℕ := history.reverse.findIdx (LruCall.uses key)

/-- The size of what is stored under a key. -/
def SpinLockLruCache.sizeOf (c : SpinLockLruCache K V ℕ) (key : K) : ℕ :=
  ((c.entries.lookup key).map CacheEntry.size).getD 0

/-- The access order has every stored key once, the most recently used one first, and the size is the
sum of what is stored. -/
structure WellKept (history : List (LruCall K V)) (c : SpinLockLruCache K V ℕ) : Prop where
  nodup : c.accessOrder.Nodup
  stored : ∀ key, key ∈ c.accessOrder ↔ key ∈ c.entries
  recent : c.accessOrder.Pairwise fun a b => sinceUse history a < sinceUse history b
  size : c.currentSize = (c.entries.entries.map fun entry => entry.2.size).sum

/-- Whether there is room for one more entry of a size next to the entries of some keys. -/
def RoomBeside (c : SpinLockLruCache K V ℕ) (size : ℕ) (keys : List K) : Prop :=
  keys.length < c.capacity ∧ (keys.map c.sizeOf).sum + size ≤ c.maxSize

/-- A cache stores a new key in front of the most recently used keys. The others are pushed out, the least
recently used one first, and no more of them than leaves room, or all. -/
def PushesOutOldest (c c' : SpinLockLruCache K V ℕ) (key : K) (size : ℕ) (pushedOut : List K) : Prop :=
  ∃ kept, c.accessOrder = kept ++ pushedOut.reverse ∧ c'.accessOrder = key :: kept ∧
    (kept = [] ∨ RoomBeside c size kept) ∧
    ∀ longer, kept <+: longer → longer <+: c.accessOrder → longer ≠ kept → ¬ RoomBeside c size longer

/-- A cache with counters is a recency list after a run. -/
structure LruImplements (capacity maxSize : ℕ) (history : List (LruCall K V)) : Prop where
  wellKept : WellKept history (LruCache.after capacity maxSize history).core
  answers : ∀ call, ((LruCache.after capacity maxSize history).call call).1 =
    (recencyCall capacity maxSize (recencyAfter capacity maxSize history) call).1
  evicts : ∀ key value size, (LruCache.after capacity maxSize history).entries.lookup key = none →
    PushesOutOldest (LruCache.after capacity maxSize history).core
      ((LruCache.after capacity maxSize history).putWithEvictions key value size).2.core key size
      (((LruCache.after capacity maxSize history).putWithEvictions key value size).1.2.map Prod.fst)

/-- A cache under spin locks is a recency list after a run, and answers as the cache with counters does. -/
structure SpinImplements (capacity maxSize : ℕ) (history : List (CacheCall K V)) : Prop where
  wellKept : WellKept (history.map CacheCall.toLru) (SpinLockLruCache.after capacity maxSize history)
  answers : ∀ call, ((SpinLockLruCache.after capacity maxSize history).call call).1 =
    (recencyCall capacity maxSize (recencyAfter capacity maxSize (history.map CacheCall.toLru)) call.toLru).1.1
  evicts : ∀ key value size, (SpinLockLruCache.after capacity maxSize history).entries.lookup key = none →
    ∃ pushedOut, PushesOutOldest (SpinLockLruCache.after capacity maxSize history)
      ((SpinLockLruCache.after capacity maxSize history).put key value size).2 key size pushedOut
  same : ∀ call, ((SpinLockLruCache.after capacity maxSize history).call call).1 =
    ((LruCache.after capacity maxSize (history.map CacheCall.toLru)).call call.toLru).1.1

/-- One call more makes every key older that it does not use. -/
theorem sinceUse_concat (history : List (LruCall K V)) (call : LruCall K V) (key : K) :
    sinceUse (history ++ [call]) key = if call.uses key then 0 else sinceUse history key + 1 := by
  rw [sinceUse, List.reverse_append, List.reverse_singleton, List.singleton_append, List.findIdx_cons, sinceUse]
  cases call.uses key <;> rfl

/-- A call that uses a key makes it the youngest and every other key older. -/
theorem ordered_insert {history : List (LruCall K V)} {r : RecencyList K (V × ℕ)}
    (h : r.Ordered (sinceUse history)) {key : K} {call : LruCall K V}
    (huses : ∀ other, call.uses other = decide (key = other)) (entry : V × ℕ) :
    RecencyList.Ordered (sinceUse (history ++ [call])) (r.insert key entry) := by
  refine h.insert entry ?_ fun other hother => ?_
  · rw [sinceUse_concat, huses, if_pos (decide_eq_true rfl)]
  · rw [sinceUse_concat, huses, decide_eq_false (Ne.symm hother), if_neg Bool.false_ne_true]

/-- The recency list stands in the order of the last uses. -/
theorem recencyAfter_ordered (capacity maxSize : ℕ) (history : List (LruCall K V)) :
    (recencyAfter capacity maxSize history).Ordered (sinceUse history) := by
  induction history using List.reverseRecOn with
  | nil => exact List.Pairwise.nil
  | append_singleton history call ih =>
    rw [recencyAfter, List.foldl_append, ← recencyAfter]
    obtain ⟨r, hr⟩ : ∃ r, r = recencyAfter capacity maxSize history := ⟨_, rfl⟩
    rw [← hr] at ih ⊢
    change RecencyList.Ordered _ (recencyCall capacity maxSize r call).2
    cases call with
    | get key =>
      rw [recencyCall]
      cases hlookup : r.lookup key with
      | some entry => exact ordered_insert ih (fun other => rfl) entry
      | none =>
        refine ih.sublist (List.Sublist.refl _) fun other hmem => ?_
        have hother : key ≠ other := by
          rintro rfl
          exact AList.lookup_eq_none.mp hlookup (AList.mem_keys.mpr hmem)
        rw [sinceUse_concat, LruCall.uses, decide_eq_false hother, if_neg Bool.false_ne_true]
    | put key value size =>
      rw [recencyCall]
      cases r.lookup key with
      | some entry => exact ordered_insert ih (fun other => rfl) (value, size)
      | none =>
        refine ordered_insert (List.Pairwise.sublist ?_ ih) (fun other => rfl) (value, size)
        rw [RecencyList.keys_first]
        exact List.take_sublist _ _
    | remove key =>
      refine ih.sublist ?_ fun other _ => ?_
      · exact AList.keys_erase key r ▸ List.erase_sublist
      · rw [sinceUse_concat, LruCall.uses, if_neg Bool.false_ne_true]
    | clear => exact List.Pairwise.nil

namespace Represents

variable {capacity maxSize : ℕ} {c : SpinLockLruCache K V ℕ} {r : RecencyList K (V × ℕ)}

/-- The first keys have the sizes of the first entries. -/
theorem sum_sizeOf (h : Represents capacity maxSize c r) (n : ℕ) :
    ((r.keys.take n).map c.sizeOf).sum = (r.first n).total Prod.snd := by
  have hsize : ∀ entry ∈ r.entries, c.sizeOf entry.1 = entry.2.2 := by
    intro entry hentry
    have hlookup : (c.entries.lookup entry.1).map (fun entry => (entry.value, entry.size)) = some entry.2 :=
      (h.stored entry.1).trans (AList.mem_lookup_iff.mpr hentry)
    obtain ⟨stored, hstored, heq⟩ := Option.map_eq_some_iff.mp hlookup
    rw [SpinLockLruCache.sizeOf, hstored, ← heq]
    rfl
  rw [AList.keys, List.keys, ← List.map_take, List.map_map, RecencyList.total, RecencyList.first]
  exact congrArg List.sum (List.map_congr_left fun entry hentry => hsize entry (List.mem_of_mem_take hentry))

/-- There is room beside the first keys when there is room behind the first entries. -/
theorem roomBeside_iff (h : Represents capacity maxSize c r) (size n : ℕ) :
    RoomBeside c size (r.keys.take n) ↔ HasRoom capacity maxSize size (r.first n) := by
  rw [RoomBeside, HasRoom, h.sum_sizeOf, RecencyList.keys_first, h.capacity, h.maxSize]

/-- The size is the sum of what is stored. -/
theorem currentSize_eq (h : Represents capacity maxSize c r) :
    c.currentSize = (c.entries.entries.map fun entry => entry.2.size).sum := by
  have hsum := h.sum_sizeOf r.entries.length
  rw [RecencyList.first_length, ← h.size, ← RecencyList.length_keys, List.take_length, ← h.order] at hsum
  rw [← hsum, (h.order_perm.map c.sizeOf).sum_nat, AList.keys, List.keys, List.map_map]
  refine congrArg List.sum (List.map_congr_left fun entry hentry => ?_)
  have hlookup : c.entries.lookup entry.1 = some entry.2 := AList.mem_lookup_iff.mpr hentry
  rw [Function.comp_apply, SpinLockLruCache.sizeOf, hlookup]
  rfl

/-- A cache that is a recency list in the order of the last uses is well kept. -/
theorem wellKept (h : Represents capacity maxSize c r) {history : List (LruCall K V)}
    (hordered : r.Ordered (sinceUse history)) : WellKept history c where
  nodup := h.order ▸ r.keys_nodup
  stored := h.mem_order
  recent := h.order ▸ hordered
  size := h.currentSize_eq

/-- Two caches that are a recency list before and after a new key is stored push out the oldest keys. -/
theorem pushesOutOldest (h : Represents capacity maxSize c r) {c' : SpinLockLruCache K V ℕ} {key : K} (value : V)
    {size : ℕ} (hnone : r.lookup key = none)
    (h' : Represents capacity maxSize c' (recencyCall capacity maxSize r (.put key value size)).2) :
    PushesOutOldest c c' key size
      ((recencyCall capacity maxSize r (.put key value size)).1.2.map Prod.fst) := by
  obtain ⟨n, hn⟩ : ∃ n, n = r.fitting (HasRoom capacity maxSize size) := ⟨_, rfl⟩
  have hcall : recencyCall capacity maxSize r (.put key value size) =
      ((none, r.droppedAfter n), (r.first n).insert key (value, size)) := by
    rw [recencyCall, hnone, hn]
  rw [hcall] at h' ⊢
  have hdropped : ((r.droppedAfter n).map Prod.fst).reverse = r.keys.drop n := by
    rw [RecencyList.droppedAfter, List.map_reverse, List.reverse_reverse, List.map_map, AList.keys, List.keys,
      List.map_drop]
    rfl
  refine ⟨r.keys.take n, ?_, ?_, ?_, fun longer hlonger hinitial hne hroom => ?_⟩
  · rw [hdropped, List.take_append_drop, h.order]
  · rw [h'.order, AList.keys_insert, ← AList.keys_erase,
      RecencyList.erase_of_lookup_none (RecencyList.lookup_first_none n hnone), RecencyList.keys_first]
  · by_cases hzero : n = 0
    · exact Or.inl (by rw [hzero, List.take_zero])
    · rw [h.roomBeside_iff]
      exact Or.inr (Nat.findGreatest_of_ne_zero hn.symm hzero)
  · -- A longer part of the order with room would have been kept.
    rw [h.order] at hinitial
    have htake := List.prefix_iff_eq_take.mp hinitial
    have hlength : n < longer.length := by
      refine lt_of_not_ge fun hle => hne (hlonger.eq_of_length_le ?_).symm
      rw [List.length_take]
      exact le_min hle hinitial.length_le
    rw [htake, h.roomBeside_iff] at hroom
    refine Nat.findGreatest_is_greatest (hn ▸ hlength) ?_ hroom
    rw [← RecencyList.length_keys]
    exact hinitial.length_le

end Represents

/-- The cache under spin locks goes the same way as the cache with counters. -/
theorem SpinLockLruCache.after_eq (capacity maxSize : ℕ) (history : List (CacheCall K V)) :
    after capacity maxSize history = (LruCache.after capacity maxSize (history.map CacheCall.toLru)).core := by
  induction history using List.reverseRecOn with
  | nil => rfl
  | append_singleton history call ih =>
    have hlru : LruCache.after capacity maxSize ((history ++ [call]).map CacheCall.toLru) =
        ((LruCache.after capacity maxSize (history.map CacheCall.toLru)).call call.toLru).2 := by
      rw [List.map_append, LruCache.after, List.foldl_append]
      rfl
    rw [hlru, after, List.foldl_append, ← after, ih]
    cases call with
    | get key => exact congrArg Prod.snd (LruCache.core_get _ key)
    | put key value size => exact congrArg Prod.snd (LruCache.core_put _ key value size)

/-- Both caches answer a call alike. -/
theorem SpinLockLruCache.call_core (c : LruCache K V ℕ) (call : CacheCall K V) :
    (c.core.call call).1 = (c.call call.toLru).1.1 := by
  cases call with
  | get key => exact congrArg Prod.fst (LruCache.core_get c key)
  | put key value size => exact congrArg Prod.fst (LruCache.core_put c key value size)

/-- Both caches are recency lists after every run, and they answer alike. -/
theorem caches_implement_recency (capacity maxSize : ℕ) :
    (∀ history : List (LruCall K V), LruImplements capacity maxSize history) ∧
      ∀ history : List (CacheCall K V), SpinImplements capacity maxSize history := by
  refine ⟨fun history => ?_, fun history => ?_⟩
  · have h := LruCache.after_represents capacity maxSize history
    refine ⟨h.wellKept (recencyAfter_ordered capacity maxSize history),
      fun call => (LruCache.call_represents h call).1, fun key value size hnone => ?_⟩
    obtain ⟨hanswer, h'⟩ := LruCache.put_represents h key value size
    rw [LruCache.call] at hanswer h'
    rw [hanswer]
    exact h.pushesOutOldest value (h.lookup_none.mp hnone) h'
  · have hcore := SpinLockLruCache.after_eq capacity maxSize history
    have h := LruCache.after_represents capacity maxSize (history.map CacheCall.toLru)
    refine ⟨?_, fun call => ?_, fun key value size hnone => ?_, fun call => ?_⟩
    · rw [hcore]
      exact h.wellKept (recencyAfter_ordered capacity maxSize _)
    · rw [hcore, SpinLockLruCache.call_core, (LruCache.call_represents h _).1]
    · rw [hcore] at hnone ⊢
      refine ⟨_, h.pushesOutOldest value (h.lookup_none.mp hnone) ?_⟩
      rw [LruCache.core_put]
      exact (LruCache.put_represents h key value size).2
    · rw [hcore, SpinLockLruCache.call_core]

/-!
## When the least recently used caches keep their limits

Room is only made for a new key. It is made until the rest leaves room or nothing is left, so that a new
entry exceeds a limit exactly when it does so alone. An entry that replaces another pushes nothing out,
however much larger it is.
-/

/-- A cache has no more entries and no larger size than it may have. -/
def WithinBudget (c : SpinLockLruCache K V ℕ) : Prop := c.len ≤ c.capacity ∧ c.size ≤ c.maxSize

instance (c : SpinLockLruCache K V ℕ) : Decidable (WithinBudget c) := instDecidableAnd

/-- An insertion fits: a new entry alone, or a replaced one beside the others. -/
def PutFits (c : SpinLockLruCache K V ℕ) (key : K) (size : ℕ) : Prop :=
  match c.entries.lookup key with
  | some entry => c.size - entry.size + size ≤ c.maxSize
  | none => 0 < c.capacity ∧ size ≤ c.maxSize

/-- A call inserts nothing, or what it inserts fits. -/
def CallFits (c : SpinLockLruCache K V ℕ) : LruCall K V → Prop
  | .put key _ size => PutFits c key size
  | _ => True

namespace Represents

variable {capacity maxSize : ℕ} {c : SpinLockLruCache K V ℕ} {r : RecencyList K (V × ℕ)}

/-- The limits are those of the recency list. -/
theorem withinBudget_iff (h : Represents capacity maxSize c r) :
    WithinBudget c ↔ r.keys.length ≤ capacity ∧ r.total Prod.snd ≤ maxSize := by
  rw [WithinBudget, SpinLockLruCache.len, ← h.order_perm.length_eq, h.order, SpinLockLruCache.size, h.size,
    h.capacity, h.maxSize]

/-- A new entry fits behind those that are kept exactly when it fits alone. -/
theorem put_new_within_iff {key : K} (hnone : r.lookup key = none) (value : V) {size kept : ℕ}
    (hkept : kept = r.fitting (HasRoom capacity maxSize size)) :
    ((AList.keys ((r.first kept).insert key (value, size))).length ≤ capacity ∧
        RecencyList.total Prod.snd ((r.first kept).insert key (value, size)) ≤ maxSize) ↔
      0 < capacity ∧ size ≤ maxSize := by
  rw [RecencyList.total_insert, AList.keys_insert, ← AList.keys_erase,
    RecencyList.erase_of_lookup_none (RecencyList.lookup_first_none kept hnone), List.length_cons]
  by_cases hzero : kept = 0
  · have hempty : (r.first 0).total Prod.snd = 0 := rfl
    rw [hzero, hempty, RecencyList.keys_first, List.take_zero, List.length_nil, Nat.add_zero]
    exact Iff.rfl
  · have hroom : HasRoom capacity maxSize size (r.first kept) := Nat.findGreatest_of_ne_zero hkept.symm hzero
    obtain ⟨hlength, hsize⟩ := hroom
    exact iff_of_true ⟨hlength, by simp only; omega⟩ ⟨by omega, by omega⟩

end Represents

/-- A cache within its limits is within them after a call exactly when what the call inserts fits. -/
theorem call_within_iff {capacity maxSize : ℕ} {c : LruCache K V ℕ} {r : RecencyList K (V × ℕ)}
    (h : Represents capacity maxSize c.core r) (hwithin : WithinBudget c.core) (call : LruCall K V) :
    WithinBudget (c.call call).2.core ↔ CallFits c.core call := by
  rw [(LruCache.call_represents h call).2.withinBudget_iff]
  rw [h.withinBudget_iff] at hwithin
  cases call with
  | get key =>
    refine iff_of_true ?_ trivial
    rw [recencyCall]
    cases hlookup : r.lookup key with
    | none => exact hwithin
    | some entry =>
      simp only
      rwa [RecencyList.length_insert hlookup, RecencyList.total_insert, Nat.add_comm,
        RecencyList.total_erase Prod.snd hlookup]
  | put key value size =>
    rw [CallFits, PutFits, recencyCall]
    cases hentry : c.core.entries.lookup key with
    | none =>
      rw [h.lookup_none.mp hentry]
      simp only
      rw [Represents.put_new_within_iff (h.lookup_none.mp hentry) value rfl, h.capacity, h.maxSize]
    | some entry =>
      rw [h.lookup_some hentry]
      simp only
      rw [RecencyList.length_insert (h.lookup_some hentry), ← h.size_insert hentry, h.maxSize]
      exact and_iff_right hwithin.1
  | remove key =>
    refine iff_of_true ?_ trivial
    refine ⟨?_, (RecencyList.total_erase_le Prod.snd r key).trans hwithin.2⟩
    exact (AList.keys_erase key r ▸ List.length_erase_le).trans hwithin.1
  | clear => exact iff_of_true ⟨Nat.zero_le _, Nat.zero_le _⟩ trivial

end Forge.Cache
