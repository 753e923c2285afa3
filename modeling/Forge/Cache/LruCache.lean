import Mathlib.Data.List.AList

/-!
# The least recently used cache

Entries with a size, bounded by a number of entries and by a total size. The access order
lists the keys from the most to the least recently used one. A new entry pushes out entries
from the far end of that list while the cache is full, and the caller is told which. The
sizes are taken from any type with the operations the code uses: the code counts in 64 bits.
-/

namespace Forge.Cache

variable {K V S : Type*} [DecidableEq K]

/-- A stored value. The key of an entry is the one it is stored under. -/
structure CacheEntry (V S : Type*) where
  value : V
  accessCount : UInt64
  size : S
  deriving DecidableEq, Repr

/-- The cache. The front of the access order is the most recently used key. -/
structure LruCache (K V S : Type*) where
  capacity : ℕ
  currentSize : S
  maxSize : S
  hits : UInt64
  misses : UInt64
  entries : AList fun _ : K => CacheEntry V S
  accessOrder : List K

namespace LruCache

/-- An empty cache. -/
def new [Zero S] (capacity : ℕ) (maxSize : S) : LruCache K V S := ⟨capacity, 0, maxSize, 0, 0, ∅, []⟩

/-- Make a key the most recently used one, if the access order has it. -/
def touch (order : List K) (key : K) : List K := if key ∈ order then key :: order.erase key else order

/-- Look an entry up, with its size, and count the access. -/
def getWithSize (c : LruCache K V S) (key : K) : Option (V × S) × LruCache K V S :=
  match c.entries.lookup key with
  | some entry =>
    (some (entry.value, entry.size), { c with
      entries := c.entries.insert key { entry with accessCount := entry.accessCount + 1 }
      hits := c.hits + 1
      accessOrder := touch c.accessOrder key })
  | none => (none, { c with misses := c.misses + 1 })

/-- Look a value up. -/
def get (c : LruCache K V S) (key : K) : Option V × LruCache K V S :=
  ((c.getWithSize key).1.map Prod.fst, (c.getWithSize key).2)

section Sizes

variable [Add S] [Sub S] [LT S] [DecidableLT S]

/-- Whether an entry of a size has to push others out. -/
def Full (c : LruCache K V S) (size : S) : Prop :=
  c.capacity ≤ c.entries.keys.length ∨ c.maxSize < c.currentSize + size

instance (c : LruCache K V S) (size : S) : Decidable (c.Full size) := instDecidableOr

/-- Push out least recently used entries while the cache is full. Every round takes one key
off the access order, whose length is the fuel. -/
def evict (size : S) : ℕ → LruCache K V S → List (K × V × S) × LruCache K V S
  | 0, c => ([], c)
  | fuel + 1, c =>
    if c.Full size then
      match c.accessOrder.getLast? with
      | none => ([], c)
      | some oldest =>
        match c.entries.lookup oldest with
        | none => evict size fuel { c with accessOrder := c.accessOrder.dropLast }
        | some entry =>
          let (evicted, rest) := evict size fuel { c with
            entries := c.entries.erase oldest
            accessOrder := c.accessOrder.dropLast
            currentSize := c.currentSize - entry.size }
          ((oldest, entry.value, entry.size) :: evicted, rest)
    else ([], c)

/-- Insert an entry. The answer is the value it replaces and the entries it pushes out. -/
def putWithEvictions (c : LruCache K V S) (key : K) (value : V) (size : S) :
    (Option V × List (K × V × S)) × LruCache K V S :=
  match c.entries.lookup key with
  | some entry =>
    ((some entry.value, []), { c with
      currentSize := c.currentSize - entry.size + size
      entries := c.entries.insert key { entry with value := value, size := size }
      accessOrder := touch c.accessOrder key })
  | none =>
    let (evicted, c) := evict size c.accessOrder.length c
    ((none, evicted), { c with
      currentSize := c.currentSize + size
      entries := c.entries.insert key ⟨value, 0, size⟩
      accessOrder := key :: c.accessOrder })

/-- Insert an entry and drop what it pushes out. -/
def put (c : LruCache K V S) (key : K) (value : V) (size : S) : Option V × LruCache K V S :=
  ((c.putWithEvictions key value size).1.1, (c.putWithEvictions key value size).2)

end Sizes

/-- Take an entry out. -/
def remove [Sub S] (c : LruCache K V S) (key : K) : Option V × LruCache K V S :=
  match c.entries.lookup key with
  | some entry =>
    (some entry.value, { c with
      entries := c.entries.erase key
      currentSize := c.currentSize - entry.size
      accessOrder := c.accessOrder.filter (· ≠ key) })
  | none => (none, c)

/-- Take all entries out. -/
def clear [Zero S] (c : LruCache K V S) : LruCache K V S :=
  { c with entries := ∅, accessOrder := [], currentSize := 0 }

/-! ## What is stored -/

/-- The value stored under a key, without counting an access. -/
def peek (c : LruCache K V S) (key : K) : Option V := (c.entries.lookup key).map CacheEntry.value

/-- A key with an entry has its value stored. -/
theorem peek_eq_some {c : LruCache K V S} {key : K} {entry : CacheEntry V S}
    (hentry : c.entries.lookup key = some entry) : c.peek key = some entry.value := by
  rw [peek, hentry, Option.map_some]

/-- A key without entry has nothing stored. -/
theorem peek_eq_none {c : LruCache K V S} {key : K} (hentry : c.entries.lookup key = none) :
    c.peek key = none := by
  rw [peek, hentry, Option.map_none]

/-- Inserting an entry stores its value. -/
theorem peek_insert {c c' : LruCache K V S} {key : K} {entry : CacheEntry V S}
    (hentries : c'.entries = c.entries.insert key entry) (other : K) :
    c'.peek other = if other = key then some entry.value else c.peek other := by
  rw [peek, hentries]
  by_cases hother : other = key
  · subst hother
    rw [if_pos rfl, AList.lookup_insert, Option.map_some]
  · rw [if_neg hother, AList.lookup_insert_ne hother, peek]

/-- Erasing a key takes its value away. -/
theorem peek_erase {c c' : LruCache K V S} {key : K}
    (hentries : c'.entries = c.entries.erase key) (other : K) :
    c'.peek other = if other = key then none else c.peek other := by
  rw [peek, hentries]
  by_cases hother : other = key
  · subst hother
    rw [if_pos rfl, AList.lookup_erase, Option.map_none]
  · rw [if_neg hother, AList.lookup_erase_ne hother, peek]

/-- A lookup finds what is stored. -/
theorem getWithSize_fst (c : LruCache K V S) (key : K) :
    (c.getWithSize key).1.map Prod.fst = c.peek key := by
  rw [getWithSize]
  cases hentry : c.entries.lookup key with
  | none => exact (peek_eq_none hentry).symm
  | some entry => exact (peek_eq_some hentry).symm

/-- A lookup leaves what is stored. -/
@[simp] theorem getWithSize_peek (c : LruCache K V S) (key : K) :
    (c.getWithSize key).2.peek = c.peek := by
  funext other
  rw [getWithSize]
  cases hentry : c.entries.lookup key with
  | none => rfl
  | some entry =>
    rw [peek_insert (c := c) rfl other]
    by_cases hother : other = key
    · subst hother
      rw [if_pos rfl, peek_eq_some hentry]
    · rw [if_neg hother]

/-- A lookup that hits finds what is stored. -/
theorem peek_of_getWithSize {c : LruCache K V S} {key : K} {value : V} {size : S}
    (hhit : (c.getWithSize key).1 = some (value, size)) : c.peek key = some value := by
  rw [← getWithSize_fst, hhit, Option.map_some]

/-- A lookup that misses has nothing stored. -/
theorem peek_of_getWithSize_none {c : LruCache K V S} {key : K}
    (hmiss : (c.getWithSize key).1 = none) : c.peek key = none := by
  rw [← getWithSize_fst, hmiss, Option.map_none]

/-- The last value listed for a key. -/
def latest : List (K × V × S) → K → Option V
  | [], _ => none
  | (key, value, _) :: rest, other =>
    (latest rest other).or (if other = key then some value else none)

/-- The last value of a key in two lists after each other. -/
theorem latest_append (first second : List (K × V × S)) (key : K) :
    latest (first ++ second) key = (latest second key).or (latest first key) := by
  induction first with
  | nil => simp [latest]
  | cons entry first ih => rw [List.cons_append, latest, ih, latest, Option.or_assoc]

/-- A key that is not listed has no last value. -/
theorem latest_eq_none {entries : List (K × V × S)} {key : K}
    (hkey : key ∉ entries.map Prod.fst) : latest entries key = none := by
  induction entries with
  | nil => rfl
  | cons entry entries ih =>
    rw [List.map_cons, List.mem_cons, not_or] at hkey
    rw [latest, ih hkey.2, if_neg hkey.1, Option.or_none]

/-- Entries move from a cache into a list: every key keeps its place, or moves into the
list with its value. -/
def Moves (c rest : LruCache K V S) (moved : List (K × V × S)) : Prop :=
  ∀ key, (rest.peek key = c.peek key ∧ latest moved key = none) ∨
    (rest.peek key = none ∧ latest moved key = c.peek key)

section Sizes

variable [Add S] [Sub S] [LT S] [DecidableLT S]

/-- Pushing out moves entries into the list of those pushed out, each at most once. -/
theorem evict_spec (size : S) (fuel : ℕ) (c : LruCache K V S) :
    Moves c (evict size fuel c).2 (evict size fuel c).1 ∧
      ((evict size fuel c).1.map Prod.fst).Nodup ∧
      ∀ key ∈ (evict size fuel c).1.map Prod.fst, c.peek key ≠ none := by
  induction fuel generalizing c with
  | zero => exact ⟨fun key => Or.inl ⟨rfl, rfl⟩, List.nodup_nil, fun key hkey => by cases hkey⟩
  | succ fuel ih =>
    rw [evict]
    by_cases hfull : c.Full size
    · rw [if_pos hfull]
      cases holdest : c.accessOrder.getLast? with
      | none => exact ⟨fun key => Or.inl ⟨rfl, rfl⟩, List.nodup_nil, fun key hkey => by cases hkey⟩
      | some oldest =>
        simp only
        cases hentry : c.entries.lookup oldest with
        | none => exact ih { c with accessOrder := c.accessOrder.dropLast }
        | some entry =>
          simp only
          obtain ⟨c', hc'⟩ : ∃ c' : LruCache K V S, c' = { c with
              entries := c.entries.erase oldest
              accessOrder := c.accessOrder.dropLast
              currentSize := c.currentSize - entry.size } := ⟨_, rfl⟩
          rw [← hc']
          obtain ⟨hmoves, hnodup, hkeys⟩ := ih c'
          have herased : ∀ key, c'.peek key = if key = oldest then none else c.peek key :=
            peek_erase (by rw [hc'])
          have hgone : c'.peek oldest = none := by
            rw [herased, if_pos rfl]
          have hothers : ∀ key, key ≠ oldest → c'.peek key = c.peek key := by
            intro key hkey
            rw [herased, if_neg hkey]
          refine ⟨fun key => ?_, ?_, fun key hkey => ?_⟩
          · by_cases hkey : key = oldest
            · subst hkey
              rw [latest, if_pos rfl, peek_eq_some hentry]
              rcases hmoves key with ⟨hrest, hlatest⟩ | ⟨hrest, hlatest⟩
              · exact Or.inr ⟨hrest.trans hgone, by rw [hlatest, Option.none_or]⟩
              · exact Or.inr ⟨hrest, by rw [hlatest, hgone, Option.none_or]⟩
            · rw [latest, if_neg hkey, Option.or_none, ← hothers key hkey]
              exact hmoves key
          · rw [List.map_cons, List.nodup_cons]
            exact ⟨fun hmem => hkeys oldest hmem hgone, hnodup⟩
          · rw [List.map_cons, List.mem_cons] at hkey
            by_cases hkey' : key = oldest
            · subst hkey'
              rw [peek_eq_some hentry]
              exact Option.some_ne_none entry.value
            · rw [← hothers key hkey']
              exact hkeys key (hkey.resolve_left hkey')
    · rw [if_neg hfull]
      exact ⟨fun key => Or.inl ⟨rfl, rfl⟩, List.nodup_nil, fun key hkey => by cases hkey⟩

/-- An inserted value is stored and not among the entries it pushes out. -/
theorem putWithEvictions_self (c : LruCache K V S) (key : K) (value : V) (size : S) :
    (c.putWithEvictions key value size).2.peek key = some value ∧
      latest (c.putWithEvictions key value size).1.2 key = none := by
  rw [putWithEvictions]
  cases hentry : c.entries.lookup key with
  | some entry => exact ⟨by rw [peek_insert (c := c) rfl, if_pos rfl], rfl⟩
  | none =>
    obtain ⟨_, _, hkeys⟩ := evict_spec size c.accessOrder.length c
    have habsent : key ∉ (evict size c.accessOrder.length c).1.map Prod.fst :=
      fun hmem => hkeys key hmem (peek_eq_none hentry)
    exact ⟨by rw [peek_insert (c := (evict size c.accessOrder.length c).2) rfl, if_pos rfl],
      latest_eq_none habsent⟩

/-- Every other key keeps its place or moves into the list of those pushed out. -/
theorem putWithEvictions_other (c : LruCache K V S) {key other : K} (hother : other ≠ key)
    (value : V) (size : S) :
    ((c.putWithEvictions key value size).2.peek other = c.peek other ∧
        latest (c.putWithEvictions key value size).1.2 other = none) ∨
      ((c.putWithEvictions key value size).2.peek other = none ∧
        latest (c.putWithEvictions key value size).1.2 other = c.peek other) := by
  rw [putWithEvictions]
  cases hentry : c.entries.lookup key with
  | some entry => exact Or.inl ⟨by rw [peek_insert (c := c) rfl, if_neg hother], rfl⟩
  | none =>
    have hmoves := (evict_spec size c.accessOrder.length c).1 other
    simp only
    rw [peek_insert (c := (evict size c.accessOrder.length c).2) rfl, if_neg hother]
    exact hmoves

end Sizes

/-- A removed key has nothing stored, and the other keys are as before. -/
theorem remove_peek [Sub S] (c : LruCache K V S) (key other : K) :
    (c.remove key).2.peek other = if other = key then none else c.peek other := by
  rw [remove]
  cases hentry : c.entries.lookup key with
  | none =>
    by_cases hother : other = key
    · subst hother
      rw [if_pos rfl, peek_eq_none hentry]
    · rw [if_neg hother]
  | some entry => rw [peek_erase (c := c) rfl]

end LruCache

/-!
## The least recently used cache under spin locks

The same cache for short critical sections. Every operation takes all three locks before it looks at
anything, so that a run is a sequence of operations. It counts no hits and misses, and it does not tell
what it pushes out; otherwise it goes the same way step by step.
-/

variable {K V S : Type*} [DecidableEq K]

/-- The cache. The front of the access order is the most recently used key. -/
structure SpinLockLruCache (K V S : Type*) where
  capacity : ℕ
  currentSize : S
  maxSize : S
  entries : AList fun _ : K => CacheEntry V S
  accessOrder : List K

namespace SpinLockLruCache

/-- An empty cache. -/
def new [Zero S] (capacity : ℕ) (maxSize : S) : SpinLockLruCache K V S := ⟨capacity, 0, maxSize, ∅, []⟩

/-- Look a value up, and count the access. -/
def get (c : SpinLockLruCache K V S) (key : K) : Option V × SpinLockLruCache K V S :=
  match c.entries.lookup key with
  | some entry =>
    (some entry.value, { c with
      entries := c.entries.insert key { entry with accessCount := entry.accessCount + 1 }
      accessOrder := LruCache.touch c.accessOrder key })
  | none => (none, c)

/-- The size of what is stored. -/
def size (c : SpinLockLruCache K V S) : S := c.currentSize

/-- The number of entries. -/
def len (c : SpinLockLruCache K V S) : ℕ := c.entries.keys.length

section Sizes

variable [Add S] [Sub S] [LT S] [DecidableLT S]

/-- Whether an entry of a size has to push others out. -/
def Full (c : SpinLockLruCache K V S) (size : S) : Prop :=
  c.capacity ≤ c.entries.keys.length ∨ c.maxSize < c.currentSize + size

instance (c : SpinLockLruCache K V S) (size : S) : Decidable (c.Full size) := instDecidableOr

/-- Push out least recently used entries while the cache is full. Every round takes one key
off the access order, whose length is the fuel. -/
def evict (size : S) : ℕ → SpinLockLruCache K V S → SpinLockLruCache K V S
  | 0, c => c
  | fuel + 1, c =>
    if c.Full size then
      match c.accessOrder.getLast? with
      | none => c
      | some oldest =>
        match c.entries.lookup oldest with
        | none => evict size fuel { c with accessOrder := c.accessOrder.dropLast }
        | some entry =>
          evict size fuel { c with
            entries := c.entries.erase oldest
            accessOrder := c.accessOrder.dropLast
            currentSize := c.currentSize - entry.size }
    else c

/-- Insert an entry. The answer is the value it replaces. -/
def put (c : SpinLockLruCache K V S) (key : K) (value : V) (size : S) : Option V × SpinLockLruCache K V S :=
  match c.entries.lookup key with
  | some entry =>
    (some entry.value, { c with
      currentSize := c.currentSize - entry.size + size
      entries := c.entries.insert key { entry with value := value, size := size }
      accessOrder := LruCache.touch c.accessOrder key })
  | none =>
    let c := evict size c.accessOrder.length c
    (none, { c with
      currentSize := c.currentSize + size
      entries := c.entries.insert key ⟨value, 0, size⟩
      accessOrder := key :: c.accessOrder })

end Sizes

end SpinLockLruCache

/-! ## The cache with counters -/

namespace LruCache

/-- What the two caches have in common: all but the counters. -/
def core (c : LruCache K V S) : SpinLockLruCache K V S :=
  ⟨c.capacity, c.currentSize, c.maxSize, c.entries, c.accessOrder⟩

/-- Both caches look up alike. -/
theorem core_get (c : LruCache K V S) (key : K) :
    c.core.get key = ((c.get key).1, (c.get key).2.core) := by
  rw [SpinLockLruCache.get, get, getWithSize, core]
  cases c.entries.lookup key with
  | none => rfl
  | some entry => rfl

section Sizes

variable [Add S] [Sub S] [LT S] [DecidableLT S]

/-- Both caches push out alike. -/
theorem core_evict (size : S) (fuel : ℕ) (c : LruCache K V S) :
    SpinLockLruCache.evict size fuel c.core = (evict size fuel c).2.core := by
  induction fuel generalizing c with
  | zero => rfl
  | succ fuel ih =>
    rw [SpinLockLruCache.evict, evict]
    by_cases hfull : c.Full size
    · rw [if_pos (show c.core.Full size from hfull), if_pos hfull]
      change (match c.accessOrder.getLast? with | none => _ | some oldest => _) = _
      cases c.accessOrder.getLast? with
      | none => rfl
      | some oldest =>
        change (match c.entries.lookup oldest with | none => _ | some entry => _) = _
        simp only
        cases c.entries.lookup oldest with
        | none => exact ih { c with accessOrder := c.accessOrder.dropLast }
        | some entry =>
          exact ih { c with
            entries := c.entries.erase oldest
            accessOrder := c.accessOrder.dropLast
            currentSize := c.currentSize - entry.size }
    · rw [if_neg (show ¬ c.core.Full size from hfull), if_neg hfull]

/-- Both caches insert alike. -/
theorem core_put (c : LruCache K V S) (key : K) (value : V) (size : S) :
    c.core.put key value size = ((c.put key value size).1, (c.put key value size).2.core) := by
  rw [SpinLockLruCache.put, put, putWithEvictions]
  change (match c.entries.lookup key with | some entry => _ | none => _) = _
  cases c.entries.lookup key with
  | some entry => rfl
  | none =>
    simp only
    rw [show c.core.accessOrder = c.accessOrder from rfl, core_evict]
    rfl

end Sizes

end LruCache

end Forge.Cache
