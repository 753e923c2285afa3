import Forge.Cache.PruneReads
import Forge.Schedule.BinPacking

/-!
# The background collector

A scan removes the files whose time to live is over. If the others together exceed the high mark, it
goes on to remove files from the front of an order until they are at the low mark: the oldest first, or
the smallest first. The third policy is there to remove nothing but what is over. It has no order, but
nothing keeps it from the second part of the scan, which then takes the files as the directory lists them.
-/

namespace Forge.Cache

open Forge.Schedule (Duration)

/-- What a collection that is triggered by the size removes first. -/
inductive EvictionPolicy where
  | lru
  | smallestFirst
  | ttlOnly
  deriving DecidableEq, Repr

/-- What the collector goes by. The code computes both marks from the largest size, as parts of it, in
floating point. -/
structure GcConfig where
  threshold : ℕ
  targetSize : ℕ
  ttl : Duration
  policy : EvictionPolicy
  deriving DecidableEq

/-- What is known about an entry of a directory. Times are nanoseconds after the epoch. -/
structure EntryMetadata where
  isFile : Bool
  len : ℕ
  modified : Option ℤ
  deriving DecidableEq, Repr

/-- An entry of a directory. -/
structure DirEntry where
  path : String
  metadata : Option EntryMetadata
  deriving DecidableEq, Repr

/-- A file that the scan found. -/
structure FileEntry where
  path : String
  size : ℕ
  mtime : ℤ
  deriving DecidableEq, Repr

/-- How far a scan is: the files it removed, and what it counted. -/
structure Sweep where
  removed : List String
  removedCount : ℕ
  freedBytes : ℕ
  deriving DecidableEq, Repr

/-- The file an entry is, if it is one. A file without a time counts as new. -/
def DirEntry.file (now : ℤ) (entry : DirEntry) : Option FileEntry :=
  match entry.metadata with
  | some metadata => if metadata.isFile then some ⟨entry.path, metadata.len, metadata.modified.getD now⟩ else none
  | none => none

/-- The age of a file. A file from the future is new. -/
def FileEntry.age (now : ℤ) (file : FileEntry) : ℕ := (now - file.mtime).toNat

/-- Whether the time to live of a file is over. -/
def FileEntry.Expired (config : GcConfig) (now : ℤ) (file : FileEntry) : Prop := config.ttl.nanos ≤ file.age now

instance (config : GcConfig) (now : ℤ) (file : FileEntry) : Decidable (file.Expired config now) := Nat.decLe _ _

/-- Count a file that was removed. -/
def Sweep.count (sweep : Sweep) (file : FileEntry) : Sweep :=
  ⟨sweep.removed ++ [file.path], sweep.removedCount + 1, sweep.freedBytes + file.size⟩

section Scan

variable (config : GcConfig) (now : ℤ) (removable : String → Bool)

/-- Go through the directory: remove what is over, and collect the other files. -/
def scanEntries : List DirEntry → Sweep → Sweep × List FileEntry
  | [], sweep => (sweep, [])
  | entry :: entries, sweep =>
    match entry.file now with
    | none => scanEntries entries sweep
    | some file =>
      if file.Expired config now then
        scanEntries entries (if removable file.path then sweep.count file else sweep)
      else
        let (sweep, files) := scanEntries entries sweep
        (sweep, file :: files)

/-- Remove files from the front until the rest is small enough. -/
def evictFiles : List FileEntry → ℕ → Sweep → Sweep
  | [], _, sweep => sweep
  | file :: files, currentSize, sweep =>
    if currentSize ≤ config.targetSize then sweep
    else if removable file.path then evictFiles files (currentSize - file.size) (sweep.count file)
    else evictFiles files currentSize sweep

/-- The size of files together. -/
def sizeSum (files : List FileEntry) : ℕ := (files.map FileEntry.size).sum

/-- The files in the order of the policy. -/
def EvictionPolicy.order (policy : EvictionPolicy) (files : List FileEntry) : List FileEntry :=
  match policy with
  | .lru => sortByKey FileEntry.mtime files
  | .smallestFirst => sortByKey (fun file => (file.size : ℤ)) files
  | .ttlOnly => files

/-- One scan of the directory, if it can be listed. -/
def scanAndEvict (directory : Option (List DirEntry)) : Sweep :=
  match directory with
  | none => ⟨[], 0, 0⟩
  | some entries =>
    let (sweep, files) := scanEntries config now removable entries ⟨[], 0, 0⟩
    if config.threshold < sizeSum files then
      evictFiles config removable (config.policy.order files) (sizeSum files) sweep
    else sweep

end Scan

/-! ## What a scan removes -/

/-- Count files that were removed one after the other. -/
def Sweep.countAll (sweep : Sweep) (files : List FileEntry) : Sweep :=
  ⟨sweep.removed ++ files.map FileEntry.path, sweep.removedCount + files.length, sweep.freedBytes + sizeSum files⟩

/-- The files of a directory whose time is over. -/
def expired (config : GcConfig) (now : ℤ) (entries : List DirEntry) : List FileEntry :=
  (entries.filterMap (DirEntry.file now)).filter fun file => decide (file.Expired config now)

/-- The other files of a directory. -/
def unexpired (config : GcConfig) (now : ℤ) (entries : List DirEntry) : List FileEntry :=
  (entries.filterMap (DirEntry.file now)).filter fun file => !decide (file.Expired config now)

/-- Files of a smallest possible number from the front of an order by a key, without which the rest is
at most of a size. -/
structure ShortestPrefix (key : FileEntry → ℤ) (target : ℕ) (files chosen : List FileEntry) : Prop where
  front : ∃ rest, (chosen ++ rest).Perm files ∧ ((chosen ++ rest).Pairwise fun a b => key a ≤ key b) ∧
    sizeSum rest ≤ target
  least : ∀ shorter, shorter <+: chosen → shorter ≠ chosen → target < sizeSum files - sizeSum shorter

/-- What a policy allows to remove from the files whose time is not over. -/
def EvictionPolicy.Allows (policy : EvictionPolicy) (threshold target : ℕ) (files chosen : List FileEntry) : Prop :=
  match policy with
  | .ttlOnly => chosen = []
  | .lru => if threshold < sizeSum files then ShortestPrefix FileEntry.mtime target files chosen else chosen = []
  | .smallestFirst =>
    if threshold < sizeSum files then ShortestPrefix (fun file => (file.size : ℤ)) target files chosen
    else chosen = []

/-- A scan removes the files whose time is over and, of the others, what the policy allows, and it
reports what it removed. -/
def EvictsAsAllowed (config : GcConfig) (now : ℤ) (entries : List DirEntry) : Prop :=
  ∃ chosen, config.policy.Allows config.threshold config.targetSize (unexpired config now entries) chosen ∧
    scanAndEvict config now (fun _ => true) (some entries) =
      (⟨[], 0, 0⟩ : Sweep).countAll (expired config now entries ++ chosen)

/-- Files have the sizes of their parts. -/
theorem sizeSum_append (files more : List FileEntry) :
    sizeSum (files ++ more) = sizeSum files + sizeSum more := by
  rw [sizeSum, List.map_append, List.sum_append, sizeSum, sizeSum]

/-- A file and others have their sizes together. -/
@[simp] theorem sizeSum_cons (file : FileEntry) (files : List FileEntry) :
    sizeSum (file :: files) = file.size + sizeSum files := by
  rw [sizeSum, List.map_cons, List.sum_cons, sizeSum]

/-- The order does not change the size. -/
theorem sizeSum_perm {files files' : List FileEntry} (hperm : files.Perm files') :
    sizeSum files = sizeSum files' := (hperm.map _).sum_eq

/-- Counting goes on. -/
theorem Sweep.countAll_countAll (sweep : Sweep) (files more : List FileEntry) :
    (sweep.countAll files).countAll more = sweep.countAll (files ++ more) := by
  simp only [countAll, List.map_append, List.append_assoc, List.length_append, sizeSum_append, Nat.add_assoc]

/-- Counting one file is counting a list of one. -/
theorem Sweep.count_eq (sweep : Sweep) (file : FileEntry) : sweep.count file = sweep.countAll [file] := by
  rw [count, countAll, sizeSum_cons]
  rfl

/-- Counting no files changes nothing. -/
@[simp] theorem Sweep.countAll_nil (sweep : Sweep) : sweep.countAll [] = sweep := by
  rw [countAll, List.map_nil, List.append_nil]
  rfl

section Scan

variable (config : GcConfig) (now : ℤ) (removable : String → Bool)

/-- Going through the directory removes what is over and can be removed, and finds the others. -/
theorem scanEntries_eq (entries : List DirEntry) (sweep : Sweep) :
    scanEntries config now removable entries sweep =
      (sweep.countAll ((expired config now entries).filter fun file => removable file.path),
        unexpired config now entries) := by
  induction entries generalizing sweep with
  | nil =>
    rw [scanEntries, expired, unexpired, List.filterMap_nil, List.filter_nil, List.filter_nil, List.filter_nil,
      Sweep.countAll_nil]
  | cons entry entries ih =>
    rw [scanEntries, expired, unexpired, List.filterMap_cons]
    cases entry.file now with
    | none => exact ih sweep
    | some file =>
      by_cases hexpired : file.Expired config now
      · simp only [List.filter_cons, hexpired, decide_true, if_true, Bool.not_true,
          Bool.false_eq_true, if_false, ih]
        cases removable file.path with
        | false => rfl
        | true =>
          simp only [if_true, Sweep.count_eq, Sweep.countAll_countAll]
          rfl
      · simp only [List.filter_cons, hexpired, decide_false, Bool.false_eq_true, if_false,
          Bool.not_false, if_true, ih]
        rfl

/-- Removing from the front takes the first files, those of them that can be removed, as long as the
rest is too large. -/
theorem evictFiles_spec (files : List FileEntry) (currentSize : ℕ) (sweep : Sweep) :
    ∃ n, evictFiles config removable files currentSize sweep =
        sweep.countAll ((files.take n).filter fun file => removable file.path) ∧
      n ≤ files.length ∧
      (n = files.length ∨
        currentSize - sizeSum ((files.take n).filter fun file => removable file.path) ≤ config.targetSize) ∧
      ∀ m < n, config.targetSize <
        currentSize - sizeSum ((files.take m).filter fun file => removable file.path) := by
  induction files generalizing currentSize sweep with
  | nil => exact ⟨0, sweep.countAll_nil.symm, le_rfl, Or.inl rfl, fun m hm => absurd hm (Nat.not_lt_zero m)⟩
  | cons file files ih =>
    rw [evictFiles]
    by_cases hsmall : currentSize ≤ config.targetSize
    · rw [if_pos hsmall]
      exact ⟨0, sweep.countAll_nil.symm, Nat.zero_le _, Or.inr hsmall, fun m hm => absurd hm (Nat.not_lt_zero m)⟩
    · rw [if_neg hsmall]
      -- The file itself is removed or skipped, and the rest is the same either way.
      obtain ⟨own, hown, hstep⟩ : ∃ own, (∀ m, ((file :: files).take (m + 1)).filter (fun file => removable file.path) =
            own ++ (files.take m).filter fun file => removable file.path) ∧
          (if removable file.path then evictFiles config removable files (currentSize - file.size) (sweep.count file)
            else evictFiles config removable files currentSize sweep) =
            evictFiles config removable files (currentSize - sizeSum own) (sweep.countAll own) := by
        cases hremovable : removable file.path with
        | true =>
          refine ⟨[file], fun m => ?_, ?_⟩
          · rw [List.take_succ_cons, List.filter_cons, if_pos hremovable, List.singleton_append]
          · rw [if_pos rfl, Sweep.count_eq]
            rfl
        | false =>
          refine ⟨[], fun m => ?_, ?_⟩
          · rw [List.take_succ_cons, List.filter_cons, hremovable, if_neg Bool.false_ne_true, List.nil_append]
          · rw [if_neg Bool.false_ne_true, Sweep.countAll_nil]
            rfl
      obtain ⟨n, heq, hle, hend, hbefore⟩ := ih (currentSize - sizeSum own) (sweep.countAll own)
      refine ⟨n + 1, ?_, Nat.succ_le_succ hle, ?_, fun m hm => ?_⟩
      · rw [hstep, heq, Sweep.countAll_countAll, hown]
      · rw [hown, sizeSum_append, ← Nat.sub_sub]
        exact hend.imp (congrArg (· + 1)) id
      · cases m with
        | zero => exact Nat.lt_of_not_le hsmall
        | succ m =>
          rw [hown, sizeSum_append, ← Nat.sub_sub]
          exact hbefore m (Nat.lt_of_succ_lt_succ hm)

end Scan

/-! ## What a policy allows -/

/-- The order of a policy has the same files. -/
theorem EvictionPolicy.order_perm (policy : EvictionPolicy) (files : List FileEntry) :
    (policy.order files).Perm files := by
  cases policy with
  | lru => exact sortByKey_perm _ _
  | smallestFirst => exact sortByKey_perm _ _
  | ttlOnly => exact List.Perm.refl _

/-- If every file can be removed, removing from the front takes the fewest files that leave a small
enough rest. -/
theorem evictFiles_shortest (config : GcConfig) {files order : List FileEntry} (hperm : order.Perm files)
    (sweep : Sweep) :
    ∃ n, evictFiles config (fun _ => true) order (sizeSum files) sweep = sweep.countAll (order.take n) ∧
      sizeSum (order.drop n) ≤ config.targetSize ∧
      ∀ m < n, m < order.length ∧ config.targetSize < sizeSum files - sizeSum (order.take m) := by
  obtain ⟨n, heq, hle, hend, hbefore⟩ :=
    evictFiles_spec config (fun _ => true) order (sizeSum files) sweep
  simp only [List.filter_true] at heq hend hbefore
  refine ⟨n, heq, ?_, fun m hm => ⟨hm.trans_le hle, hbefore m hm⟩⟩
  rcases hend with hall | hsmall
  · rw [hall, List.drop_length]
    exact Nat.zero_le _
  · have htotal : sizeSum files = sizeSum (order.take n) + sizeSum (order.drop n) := by
      rw [← sizeSum_append, List.take_append_drop, sizeSum_perm hperm]
    omega

/-- Files from the front of an order are as few as possible if one file less leaves too much. -/
theorem shortestPrefix_take {key : FileEntry → ℤ} {target n : ℕ} {files order : List FileEntry}
    (hperm : order.Perm files) (hsorted : order.Pairwise fun a b => key a ≤ key b)
    (hrest : sizeSum (order.drop n) ≤ target)
    (hbefore : ∀ m < n, m < order.length ∧ target < sizeSum files - sizeSum (order.take m)) :
    ShortestPrefix key target files (order.take n) where
  front := by
    refine ⟨order.drop n, ?_, ?_, hrest⟩
    · rwa [List.take_append_drop]
    · rwa [List.take_append_drop]
  least shorter hshorter hne := by
    obtain ⟨hlength, heq⟩ : shorter.length < n ∧ shorter = order.take shorter.length := by
      have hprefix := List.prefix_iff_eq_take.mp (hshorter.trans (List.take_prefix n order))
      refine ⟨lt_of_not_ge fun hlong => hne ?_, hprefix⟩
      have hle : (order.take n).length ≤ shorter.length := (List.length_take_le n order).trans hlong
      exact hshorter.eq_of_length_le hle
    rw [heq]
    exact (hbefore _ hlength).2

/-- A scan removes the files whose time is over and then, above the high mark, others in the order of the policy. -/
theorem scanAndEvict_eq (config : GcConfig) (now : ℤ) (entries : List DirEntry) :
    scanAndEvict config now (fun _ => true) (some entries) =
      if config.threshold < sizeSum (unexpired config now entries) then
        evictFiles config (fun _ => true) (config.policy.order (unexpired config now entries))
          (sizeSum (unexpired config now entries)) ((⟨[], 0, 0⟩ : Sweep).countAll (expired config now entries))
      else (⟨[], 0, 0⟩ : Sweep).countAll (expired config now entries) := by
  rw [scanAndEvict, scanEntries_eq, List.filter_true]

/-- With marks in order, a scan removes exactly what its policy allows unless the policy is the third
one and the files whose time is not over exceed the high mark. -/
theorem evictsAsAllowed_iff (config : GcConfig) (hmarks : config.targetSize ≤ config.threshold) (now : ℤ)
    (entries : List DirEntry) :
    EvictsAsAllowed config now entries ↔
      (config.policy = .ttlOnly → sizeSum (unexpired config now entries) ≤ config.threshold) := by
  obtain ⟨files, hfiles⟩ : ∃ files, files = unexpired config now entries := ⟨_, rfl⟩
  rw [EvictsAsAllowed, scanAndEvict_eq, ← hfiles]
  by_cases hhigh : config.threshold < sizeSum files
  · rw [if_pos hhigh]
    obtain ⟨n, heq, hrest, hbefore⟩ := evictFiles_shortest config (config.policy.order_perm files)
      ((⟨[], 0, 0⟩ : Sweep).countAll (expired config now entries))
    rw [heq, Sweep.countAll_countAll]
    have hsome : ∀ key, ((config.policy.order files).Pairwise fun a b => key a ≤ key b) →
        ShortestPrefix key config.targetSize files ((config.policy.order files).take n) := fun key hsorted =>
      shortestPrefix_take (config.policy.order_perm files) hsorted hrest hbefore
    cases hpolicy : config.policy with
    | lru =>
      rw [hpolicy] at hsome
      refine iff_of_true ⟨_, ?_, rfl⟩ fun h => by cases h
      rw [EvictionPolicy.Allows, if_pos hhigh]
      exact hsome _ (sortByKey_sorted _ _)
    | smallestFirst =>
      rw [hpolicy] at hsome
      refine iff_of_true ⟨_, ?_, rfl⟩ fun h => by cases h
      rw [EvictionPolicy.Allows, if_pos hhigh]
      exact hsome _ (sortByKey_sorted _ _)
    | ttlOnly =>
      refine iff_of_false ?_ fun h => absurd hhigh (Nat.not_lt_of_le (h rfl))
      rintro ⟨chosen, hallowed, hcount⟩
      rw [EvictionPolicy.Allows] at hallowed
      -- What is above the high mark is above the low one, so that at least one file is removed.
      have hpositive : files.take n ≠ [] := by
        intro hnone
        have hall : files.drop n = files := by
          conv_rhs => rw [← List.take_append_drop n files, hnone, List.nil_append]
        rw [hpolicy, EvictionPolicy.order, hall] at hrest
        omega
      have hlength := congrArg Sweep.removedCount hcount
      rw [hallowed, List.append_nil, Sweep.countAll, Sweep.countAll, List.length_append] at hlength
      exact hpositive (List.eq_nil_of_length_eq_zero (Nat.add_eq_left.mp (Nat.add_left_cancel hlength)))
  · rw [if_neg hhigh]
    refine iff_of_true ⟨[], ?_, by rw [List.append_nil]⟩ fun _ => Nat.le_of_not_lt hhigh
    cases config.policy with
    | lru => rw [EvictionPolicy.Allows, if_neg hhigh]
    | smallestFirst => rw [EvictionPolicy.Allows, if_neg hhigh]
    | ttlOnly => rfl

/-- Two small new files, a high mark that both together exceed and a policy to remove the oldest: the
scan removes what it should. -/
theorem evictsAsAllowed_iff_sample :
    EvictsAsAllowed ⟨10, 5, ⟨100, by decide⟩, .lru⟩ 50
      [⟨"a", some ⟨true, 8, some 20⟩⟩, ⟨"b", some ⟨true, 4, some 10⟩⟩] :=
  (evictsAsAllowed_iff ⟨10, 5, ⟨100, by decide⟩, .lru⟩ (by decide) 50
    [⟨"a", some ⟨true, 8, some 20⟩⟩, ⟨"b", some ⟨true, 4, some 10⟩⟩]).mpr fun h => by cases h

/-- A large new file is removed under the policy that is to remove only what is over. -/
theorem not_evictsAsAllowed_ttlOnly :
    ¬ EvictsAsAllowed ⟨10, 5, ⟨100, by decide⟩, .ttlOnly⟩ 50 [⟨"a", some ⟨true, 20, some 10⟩⟩] := by
  rintro ⟨chosen, hallowed, hcount⟩
  rw [EvictionPolicy.Allows] at hallowed
  subst hallowed
  exact absurd (congrArg Sweep.removedCount hcount) (by decide)

end Forge.Cache
