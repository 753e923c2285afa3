import Forge.Cache.LruCache
import Forge.Common.Histories
import Mathlib.Data.UInt

/-!
# The tiered cache

Three caches below each other. A lookup answers from the first tier that has the key and
copies the entry one tier up; an insertion goes to the first tier. What a tier pushes out
moves down. A copy left behind in a lower tier is harmless while a tier above it has the key
and while everything that leaves a tier overwrites the copies below. One path misses this: a
promotion from the second tier moves down what the first tier pushes out, and drops what the
second tier pushes out in turn, so that a copy in the third tier comes to light.
-/

namespace Forge.Cache

open Forge.Common

variable {K V S : Type*} [DecidableEq K]

/-- The three tiers. -/
structure TieredCache (K V S : Type*) where
  l1 : LruCache K V S
  l2 : LruCache K V S
  l3 : LruCache K V S

namespace TieredCache

/-- The cache of the code: 100 entries in 1 MB, 1000 in 100 MB and 10000 in 10 GB. -/
def new : TieredCache K V UInt64 :=
  ⟨.new 100 (1024 * 1024), .new 1000 (100 * 1024 * 1024), .new 10000 (10 * 1024 * 1024 * 1024)⟩

section Operations

variable [Add S] [Sub S] [LT S] [DecidableLT S]

/-- Insert entries one after the other and drop what they push out. -/
def putAll : LruCache K V S → List (K × V × S) → LruCache K V S
  | c, [] => c
  | c, (key, value, size) :: rest => putAll (c.put key value size).2 rest

/-- Insert entries one after the other and collect what they push out. -/
def demote : LruCache K V S → List (K × V × S) → List (K × V × S) × LruCache K V S
  | c, [] => ([], c)
  | c, (key, value, size) :: rest =>
    let ((_, evicted), c) := c.putWithEvictions key value size
    let (later, c) := demote c rest
    (evicted ++ later, c)

/-- Look a key up from the top, and promote what a lower tier has. -/
def get (c : TieredCache K V S) (key : K) : Option V × TieredCache K V S :=
  match c.l1.get key with
  | (some value, l1) => (some value, { c with l1 := l1 })
  | (none, l1) =>
    match c.l2.getWithSize key with
    | (some (value, size), l2) =>
      let ((_, evicted), l1) := l1.putWithEvictions key value size
      (some value, { c with l1 := l1, l2 := putAll l2 evicted })
    | (none, l2) =>
      match c.l3.getWithSize key with
      | (some (value, size), l3) =>
        let ((_, evicted), l2) := l2.putWithEvictions key value size
        (some value, ⟨l1, l2, putAll l3 evicted⟩)
      | (none, l3) => (none, ⟨l1, l2, l3⟩)

/-- Insert into the first tier, and move down what the tiers push out. -/
def put (c : TieredCache K V S) (key : K) (value : V) (size : S) : TieredCache K V S :=
  let ((_, evicted), l1) := c.l1.putWithEvictions key value size
  let (l3Evictions, l2) := demote c.l2 evicted
  ⟨l1, l2, putAll c.l3 l3Evictions⟩

end Operations

/-- Take a key out of every tier. -/
def invalidate [Sub S] (c : TieredCache K V S) (key : K) : TieredCache K V S :=
  ⟨(c.l1.remove key).2, (c.l2.remove key).2, (c.l3.remove key).2⟩

/-- Empty every tier. -/
def clear [Zero S] (c : TieredCache K V S) : TieredCache K V S :=
  ⟨c.l1.clear, c.l2.clear, c.l3.clear⟩

end TieredCache

/-- The calls of a client. -/
inductive TieredCall (K V S : Type*) where
  | put (key : K) (value : V) (size : S)
  | get (key : K)
  | invalidate (key : K)
  | clear

namespace TieredCache

/-- The cache after one call. -/
def call [Add S] [Sub S] [LT S] [DecidableLT S] [Zero S] (c : TieredCache K V S) :
    TieredCall K V S → TieredCache K V S
  | .put key value size => c.put key value size
  | .get key => (c.get key).2
  | .invalidate key => c.invalidate key
  | .clear => c.clear

/-- The cache of the code after a sequence of calls. -/
def after (calls : List (TieredCall K V UInt64)) : TieredCache K V UInt64 := calls.foldl call new

/-! ## What a client sees -/

/-- An answer that may be missing but is never another one. -/
def Below (x y : Option V) : Prop := ∀ value, x = some value → y = some value

/-- The value the upper two tiers have for a key. -/
def upper (c : TieredCache K V S) (key : K) : Option V := (c.l1.peek key).or (c.l2.peek key)

/-- The value a lookup of a key would find. -/
def visible (c : TieredCache K V S) (key : K) : Option V := (c.upper key).or (c.l3.peek key)

/-- No answer is below every answer. -/
theorem below_none (y : Option V) : Below none y := fun value hvalue => by cases hvalue

/-- Every answer is below itself. -/
theorem below_refl (x : Option V) : Below x x := fun _ hvalue => hvalue

/-- A fallback that may be missing gives an answer that may be missing. -/
theorem Below.or {x y : Option V} (hbelow : Below x y) (first : Option V) :
    Below (first.or x) (first.or y) := by
  cases first with
  | none => simpa only [Option.none_or] using hbelow
  | some value => exact below_refl _

/-- Leaving out a fallback gives an answer that may be missing. -/
theorem below_or (x y : Option V) : Below x (x.or y) := by
  cases x with
  | none => exact below_none _
  | some value => exact below_refl _

/-- What the code answers is below what it should be exactly when the answer is missing or
right. -/
theorem below_iff (x y : Option V) : Below x y ↔ x = none ∨ x = y := by
  cases x with
  | none => exact iff_of_true (below_none y) (Or.inl rfl)
  | some value =>
    rw [or_iff_right (Option.some_ne_none value)]
    exact ⟨fun hbelow => (hbelow value rfl).symm, fun heq other hother => heq ▸ hother⟩

/-- A removed key shows nothing, and every other key what it showed. -/
theorem invalidate_visible [Sub S] (c : TieredCache K V S) (key other : K) :
    (c.invalidate key).visible other = if other = key then none else c.visible other := by
  rw [invalidate, visible, upper, LruCache.remove_peek, LruCache.remove_peek, LruCache.remove_peek]
  by_cases hother : other = key
  · simp only [if_pos hother, Option.or_none]
  · simp only [if_neg hother, visible, upper]

/-- A cleared cache shows nothing. -/
theorem clear_visible [Zero S] (c : TieredCache K V S) (other : K) : c.clear.visible other = none := rfl

section Operations

variable [Add S] [Sub S] [LT S] [DecidableLT S]

/-- An insertion moves the other keys into the list of those it pushes out, if at all. -/
theorem or_latest_putWithEvictions (c : LruCache K V S) {key other : K} (hother : other ≠ key)
    (value : V) (size : S) :
    ((c.putWithEvictions key value size).2.peek other).or
      (LruCache.latest (c.putWithEvictions key value size).1.2 other) = c.peek other := by
  obtain ⟨hpeek, hlatest⟩ | ⟨hpeek, hlatest⟩ := c.putWithEvictions_other hother value size
  · rw [hpeek, hlatest, Option.or_none]
  · rw [hpeek, hlatest, Option.none_or]

/-- After insertions a key has its last inserted value or the one it had, unless it was
pushed out. -/
theorem putAll_below (entries : List (K × V × S)) (c : LruCache K V S) (other : K) :
    Below ((putAll c entries).peek other)
      ((LruCache.latest entries other).or (c.peek other)) := by
  induction entries generalizing c with
  | nil => exact below_refl _
  | cons entry entries ih =>
    obtain ⟨key, value, size⟩ := entry
    have hrest := ih (c.put key value size).2
    rw [putAll, LruCache.latest, Option.or_assoc]
    by_cases hother : other = key
    · subst hother
      rw [if_pos rfl, Option.some_or]
      rwa [LruCache.put, (c.putWithEvictions_self other value size).1] at hrest
    · rw [if_neg hother, Option.none_or]
      have hkept : Below ((c.put key value size).2.peek other) (c.peek other) := by
        rw [← or_latest_putWithEvictions c hother value size]
        exact below_or _ _
      exact fun found hfound => hkept.or _ found (hrest found hfound)

/-- Demotion loses nothing: a key has its last inserted value or the one it had, in the
cache or else in the list of those pushed out. -/
theorem demote_or_latest (entries : List (K × V × S)) (c : LruCache K V S) (other : K) :
    ((demote c entries).2.peek other).or (LruCache.latest (demote c entries).1 other) =
      (LruCache.latest entries other).or (c.peek other) := by
  induction entries generalizing c with
  | nil =>
    rw [demote, LruCache.latest, Option.or_none, Option.none_or]
  | cons entry entries ih =>
    obtain ⟨key, value, size⟩ := entry
    have hrest := ih (c.putWithEvictions key value size).2
    rw [demote, LruCache.latest]
    simp only
    rw [LruCache.latest_append, ← Option.or_assoc, hrest, Option.or_assoc, Option.or_assoc]
    by_cases hother : other = key
    · subst hother
      obtain ⟨hpeek, hlatest⟩ := c.putWithEvictions_self other value size
      rw [hpeek, if_pos rfl, Option.some_or, Option.some_or]
    · rw [or_latest_putWithEvictions c hother, if_neg hother, Option.none_or]

/-- A lookup answers what is visible. -/
theorem get_fst (c : TieredCache K V S) (key : K) : (c.get key).1 = c.visible key := by
  have h1 : (c.l1.get key).1 = c.l1.peek key := c.l1.getWithSize_fst key
  have h2 := c.l2.getWithSize_fst key
  have h3 := c.l3.getWithSize_fst key
  rw [get, visible, upper, ← h1, ← h2, ← h3]
  cases c.l1.get key with
  | mk answer l1 =>
    cases answer with
    | some value => rfl
    | none =>
      cases c.l2.getWithSize key with
      | mk answer l2 =>
        cases answer with
        | some found => rfl
        | none =>
          cases c.l3.getWithSize key with
          | mk answer l3 =>
            cases answer with
            | some found => rfl
            | none => rfl

/-- After an insertion its key shows its value, and every other key what it showed, unless
it fell off the last tier. -/
theorem put_visible (c : TieredCache K V S) (key : K) (value : V) (size : S) (other : K) :
    if other = key then (c.put key value size).visible other = some value
    else Below ((c.put key value size).visible other) (c.visible other) := by
  rw [put]
  simp only [visible, upper]
  by_cases hother : other = key
  · subst hother
    rw [if_pos rfl, (c.l1.putWithEvictions_self other value size).1, Option.some_or, Option.some_or]
  · rw [if_neg hother, ← or_latest_putWithEvictions c.l1 hother value size]
    generalize (c.l1.putWithEvictions key value size).1.2 = evicted
    have hdemote := demote_or_latest evicted c.l2 other
    have hlast := putAll_below (demote c.l2 evicted).1 c.l3 other
    simp only [Option.or_assoc]
    have hsource : (LruCache.latest evicted other).or ((c.l2.peek other).or (c.l3.peek other)) =
        ((demote c.l2 evicted).2.peek other).or
          ((LruCache.latest (demote c.l2 evicted).1 other).or (c.l3.peek other)) := by
      rw [← Option.or_assoc, ← hdemote, Option.or_assoc]
    rw [hsource]
    exact (hlast.or _).or _

/-- A promotion to an upper cache, with what it pushes out moved to the lower one, keeps what
the two have for every key, unless the lower cache drops it. -/
theorem promotion_below (upper lower : LruCache K V S) {key : K} {value : V} (size : S)
    (hupper : upper.peek key = none) (hlower : lower.peek key = some value) (other : K) :
    Below
      (((upper.putWithEvictions key value size).2.peek other).or
        ((putAll lower (upper.putWithEvictions key value size).1.2).peek other))
      ((upper.peek other).or (lower.peek other)) := by
  by_cases hother : other = key
  · subst hother
    rw [(upper.putWithEvictions_self other value size).1, hupper, hlower]
    exact below_refl _
  · rw [← or_latest_putWithEvictions upper hother value size, Option.or_assoc]
    exact (putAll_below _ lower other).or _

/-! ## Lookups -/

/-- A lookup of `key` pushes `other` out of the upper tiers: it promotes an entry from the
second tier, and afterwards neither the first tier nor the second, into which the entries
pushed out of the first are moved, has `other`. -/
def PushesOut (c : TieredCache K V S) (key other : K) : Prop :=
  ∃ value size, (c.l1.get key).1 = none ∧ (c.l2.getWithSize key).1 = some (value, size) ∧
    ((c.l1.get key).2.putWithEvictions key value size).2.peek other = none ∧
    (putAll (c.l2.getWithSize key).2
      ((c.l1.get key).2.putWithEvictions key value size).1.2).peek other = none

/-- What a lookup does: it leaves what is stored, or promotes from the second tier, or
promotes from the third. -/
theorem get_cases (c : TieredCache K V S) (key : K) :
    ((c.get key).2.visible = c.visible) ∨
    (∃ value size, (c.l1.get key).1 = none ∧ (c.l2.getWithSize key).1 = some (value, size) ∧
      (c.get key).2 =
        ⟨((c.l1.get key).2.putWithEvictions key value size).2,
          putAll (c.l2.getWithSize key).2 ((c.l1.get key).2.putWithEvictions key value size).1.2,
          c.l3⟩) ∨
    (∃ value size, (c.l1.get key).1 = none ∧ (c.l2.getWithSize key).1 = none ∧
      (c.l3.getWithSize key).1 = some (value, size) ∧
      (c.get key).2 =
        ⟨(c.l1.get key).2, ((c.l2.getWithSize key).2.putWithEvictions key value size).2,
          putAll (c.l3.getWithSize key).2
            ((c.l2.getWithSize key).2.putWithEvictions key value size).1.2⟩) := by
  have h1 : (c.l1.get key).2.peek = c.l1.peek := c.l1.getWithSize_peek key
  have h2 := c.l2.getWithSize_peek key
  have h3 := c.l3.getWithSize_peek key
  revert h1 h2 h3
  rw [get]
  cases c.l1.get key with
  | mk answer l1 =>
    intro h1 h2 h3
    cases answer with
    | some value =>
      refine Or.inl (funext fun other => ?_)
      simp only [visible, upper, h1]
    | none =>
      revert h2
      cases c.l2.getWithSize key with
      | mk answer l2 =>
        intro h2
        cases answer with
        | some found => exact Or.inr (Or.inl ⟨found.1, found.2, rfl, rfl, rfl⟩)
        | none =>
          revert h3
          cases c.l3.getWithSize key with
          | mk answer l3 =>
            intro h3
            cases answer with
            | some found => exact Or.inr (Or.inr ⟨found.1, found.2, rfl, rfl, rfl, rfl⟩)
            | none =>
              refine Or.inl (funext fun other => ?_)
              simp only [visible, upper, h1, h2, h3]

/-- A lookup brings the copy of the third tier to light exactly for the keys it pushes out
of the upper tiers. -/
theorem get_visible_of_pushesOut (c : TieredCache K V S) {key other : K}
    (hpushes : c.PushesOut key other) : (c.get key).2.visible other = c.l3.peek other := by
  obtain ⟨value, size, hmiss, hhit, h1, h2⟩ := hpushes
  have hget : (c.get key).2 =
      ⟨((c.l1.get key).2.putWithEvictions key value size).2,
        putAll (c.l2.getWithSize key).2 ((c.l1.get key).2.putWithEvictions key value size).1.2,
        c.l3⟩ := by
    rw [get]
    revert hmiss hhit
    cases c.l1.get key with
    | mk answer l1 =>
      intro hmiss
      cases hmiss
      cases c.l2.getWithSize key with
      | mk answer l2 =>
        intro hhit
        cases hhit
        rfl
  rw [hget, visible, upper, h1, h2, Option.none_or, Option.none_or]

/-- All other keys show what they showed, unless they fell off the last tier. -/
theorem get_visible (c : TieredCache K V S) (key other : K) (hkept : ¬ c.PushesOut key other) :
    Below ((c.get key).2.visible other) (c.visible other) := by
  have hpeek1 : (c.l1.get key).2.peek = c.l1.peek := c.l1.getWithSize_peek key
  have hpeek2 := c.l2.getWithSize_peek key
  have hpeek3 := c.l3.getWithSize_peek key
  obtain hsame | ⟨value, size, hmiss, hhit, hget⟩ | ⟨value, size, hmiss1, hmiss2, hhit, hget⟩ :=
    c.get_cases key
  · rw [hsame]
    exact below_refl _
  · have hnone : c.l1.peek key = none := LruCache.getWithSize_fst c.l1 key ▸ hmiss
    have hsome : c.l2.peek key = some value := LruCache.peek_of_getWithSize hhit
    have hupper := promotion_below (c.l1.get key).2 (c.l2.getWithSize key).2 size
      (by rw [hpeek1, hnone]) (by rw [hpeek2, hsome]) other
    rw [hpeek1, hpeek2, ← upper] at hupper
    rw [hget, visible]
    cases hfound : (TieredCache.upper ⟨((c.l1.get key).2.putWithEvictions key value size).2,
        putAll (c.l2.getWithSize key).2 ((c.l1.get key).2.putWithEvictions key value size).1.2,
        c.l3⟩ other) with
    | some found =>
      rw [visible, hupper found hfound]
      exact below_refl _
    | none =>
      rw [upper, Option.or_eq_none_iff] at hfound
      exact absurd ⟨value, size, hmiss, hhit, hfound⟩ hkept
  · have hnone : c.l2.peek key = none := LruCache.peek_of_getWithSize_none hmiss2
    have hsome : c.l3.peek key = some value := LruCache.peek_of_getWithSize hhit
    have hlower := promotion_below (c.l2.getWithSize key).2 (c.l3.getWithSize key).2 size
      (by rw [hpeek2, hnone]) (by rw [hpeek3, hsome]) other
    rw [hpeek2, hpeek3] at hlower
    rw [hget]
    simp only [visible, upper, hpeek1, Option.or_assoc]
    exact hlower.or _

end Operations

/-! ## Histories -/

/-- What the last insertion of a key since its last removal was. -/
def lastPut (history : List (TieredCall K V S)) (key : K) : Option V :=
  history.foldl (fun last call => match call with
    | .put other value _ => if key = other then some value else last
    | .get _ => last
    | .invalidate other => if key = other then none else last
    | .clear => none) none

/-- After the calls so far, every lookup finds nothing or what was inserted last. -/
def Coherent (history : List (TieredCall K V UInt64)) : Prop :=
  ∀ key, ((after history).get key).1 = none ∨ ((after history).get key).1 = lastPut history key

/-- A call does not bring an old copy to light: no lookup pushes a key out of the upper
tiers while the third tier has another value for it than they. -/
def KeepsFresh [Add S] [Sub S] [LT S] [DecidableLT S] (c : TieredCache K V S) :
    TieredCall K V S → Prop
  | .get key => ∀ other value old, c.PushesOut key other → c.upper other = some value →
      c.l3.peek other = some old → old = value
  | _ => True

/-- The cache after one more call. -/
theorem after_snoc (history : List (TieredCall K V UInt64)) (call : TieredCall K V UInt64) :
    after (history ++ [call]) = (after history).call call := by
  rw [after, List.foldl_append]
  rfl

/-- Coherence is about what is visible. -/
theorem coherent_iff (history : List (TieredCall K V UInt64)) :
    Coherent history ↔
      ∀ key, Below ((after history).visible key) (lastPut history key) := by
  rw [Coherent]
  exact forall_congr' fun key => by rw [get_fst, below_iff]

/-- A call that brings no old copy to light keeps the cache coherent. -/
theorem Coherent.call {history : List (TieredCall K V UInt64)} (hcoherent : Coherent history)
    {call : TieredCall K V UInt64} (hfresh : (after history).KeepsFresh call) :
    Coherent (history ++ [call]) := by
  rw [coherent_iff] at hcoherent ⊢
  intro other
  have hother := hcoherent other
  rw [after_snoc, lastPut, List.foldl_append, ← lastPut]
  cases call with
  | put key value size =>
    have hput := (after history).put_visible key value size other
    simp only [List.foldl_cons, List.foldl_nil, TieredCache.call]
    by_cases heq : other = key
    · rw [if_pos heq] at hput ⊢
      rw [hput]
      exact below_refl _
    · rw [if_neg heq] at hput ⊢
      exact fun found hfound => hother found (hput found hfound)
  | get key =>
    simp only [List.foldl_cons, List.foldl_nil, TieredCache.call]
    by_cases hpushes : (after history).PushesOut key other
    · rw [get_visible_of_pushesOut _ hpushes]
      intro old hold
      apply hother
      rw [visible]
      cases hupper : (after history).upper other with
      | none => rw [Option.none_or, hold]
      | some value => rw [Option.some_or, hfresh other value old hpushes hupper hold]
    · exact fun found hfound => hother found (get_visible _ key other hpushes found hfound)
  | invalidate key =>
    simp only [List.foldl_cons, List.foldl_nil, TieredCache.call]
    rw [invalidate_visible]
    by_cases heq : other = key
    · rw [if_pos heq]
      exact below_none _
    · rw [if_neg heq, if_neg heq]
      exact hother
  | clear =>
    simp only [List.foldl_cons, List.foldl_nil, TieredCache.call]
    rw [clear_visible]
    exact below_none _

/-- A call after which the cache is still coherent brought no old copy to light. -/
theorem Coherent.keepsFresh {history : List (TieredCall K V UInt64)} (hcoherent : Coherent history)
    {call : TieredCall K V UInt64} (hafter : Coherent (history ++ [call])) :
    (after history).KeepsFresh call := by
  cases call with
  | get key =>
    intro other value old hpushes hupper hold
    rw [coherent_iff] at hcoherent hafter
    have hlast : lastPut history other = some value := by
      apply hcoherent other
      rw [visible, hupper, Option.some_or]
    have hshown := hafter other
    rw [after_snoc, TieredCache.call, get_visible_of_pushesOut _ hpushes, lastPut,
      List.foldl_append, ← lastPut] at hshown
    have hnow : lastPut history other = some old := hshown old hold
    rw [hlast] at hnow
    exact (Option.some.inj hnow).symm
  | put key value size => trivial
  | invalidate key => trivial
  | clear => trivial

/-- The tiered cache is coherent along a run exactly when no lookup of the run pushes a key
out of the upper two tiers while the third still has another value for it. -/
theorem coherent_iff_keepsFresh (calls : List (TieredCall K V UInt64)) :
    (∀ history, history <+: calls → Coherent history) ↔
      ∀ history call, history ++ [call] <+: calls → (after history).KeepsFresh call := by
  apply forall_prefix_iff_steps Coherent Coherent
  · intro key
    exact Or.inl (get_fst new key)
  · exact fun history call hcoherent hfresh => hcoherent.call hfresh
  · exact fun history hcoherent => hcoherent
  · exact fun history call hcoherent hafter => hcoherent.keepsFresh hafter

/-- A key whose first value went down to the third tier and whose second value is dropped
by a promotion answers with its first value again. -/
theorem not_coherent_after_promotion :
    ¬ Coherent (K := ℕ) (V := ℕ) [.put 0 1 (1024 * 1024), .put 1 0 (100 * 1024 * 1024), .put 2 0 1,
      .put 0 2 (1024 * 1024), .put 3 0 (100 * 1024 * 1024), .get 2] := by
  intro h
  exact absurd (h 0) (by decide)

end TieredCache

end Forge.Cache
