import Forge.Common.Interleaving
import Forge.Worker.ReadYourWrites
import Mathlib.Algebra.GroupWithZero.Nat

/-!
# The byte count of the read cache

A read takes three locks one after the other: it looks into the cache, walks the tree, and puts what it
found into the cache. Other reads and calls that empty the cache can come in between, so that two reads of a
path may both miss. The last part looks into the cache once more, so that a path is counted once.
-/

namespace Forge.Worker

open Forge.Common

/-- The parts of the calls that hold a lock. -/
inductive VfsOp where
  | lookup (path : Path)
  | readTree (path : Path)
  | fill (path : Path) (content : Content)
  | clear
  | write (path : Path) (content : Content) (metadata : FileMetadata)

/-- What the parts give back. -/
abbrev VfsOp.Response : VfsOp → Type
  | .lookup _ => Option Content
  | .readTree _ => Except VfsError Content
  | .fill _ _ => Unit
  | .clear => Unit
  | .write _ _ _ => Except VfsError Unit

/-- The process with the file system, or nothing after an allocation failed: then the process is gone. -/
abbrev Process := Option VirtualFileSystem

/-- Calls of a client. -/
abbrev VfsM := Program VfsOp VfsOp.Response

/-- The bytes of all cached contents. -/
def FileCache.cachedBytes (cache : FileCache) : ℕ := (cache.entries.entries.map fun entry => entry.2.length).sum

namespace VirtualFileSystem

/-- Put what was read into the cache, unless it is there or the budget is used up. The copy is a buffer of its
own beside those of the other cached contents, and all of them have addresses of 64 bits. -/
def fill (vfs : VirtualFileSystem) (path : Path) (content : Content) : Process :=
  match vfs.cache.entries.lookup path with
  | some _ => some vfs
  | none =>
    if min (vfs.cache.totalBytes + content.length) (2 ^ 64 - 1) ≤ vfs.maxCacheBytes then
      if vfs.cache.cachedBytes + content.length < 2 ^ 64 then
        some { vfs with
          cache :=
            { entries := vfs.cache.entries.insert path content
              totalBytes := (vfs.cache.totalBytes + content.length) % 2 ^ 64 } }
      else none
    else some vfs

/-- Read a file, lock by lock. -/
def readFileSteps (path : Path) : VfsM (Except VfsError Content) := do
  match ← Program.perform (VfsOp.lookup path) with
  | some cached => return .ok cached
  | none =>
    match ← Program.perform (VfsOp.readTree path) with
    | .error e => return .error e
    | .ok content =>
      Program.perform (VfsOp.fill path content)
      return .ok content

/-- Empty the cache, under its lock. -/
def clearCacheSteps : VfsM Unit := Program.perform VfsOp.clear

/-- Write a file, under the lock of the tree. -/
def writeFileSteps (path : Path) (content : Content) (metadata : FileMetadata) : VfsM (Except VfsError Unit) :=
  Program.perform (VfsOp.write path content metadata)

end VirtualFileSystem

/-- What a part does. After the process is gone nothing happens. -/
def vfsSemantics : (op : VfsOp) → Process → op.Response × Process
  | .lookup path, process => (process.bind fun vfs => vfs.cache.entries.lookup path, process)
  | .readTree path, some vfs => (VirtualFileSystem.readFromNode vfs.root path, some vfs)
  | .readTree _, none => (.error (.notFound ""), none)
  | .fill path content, process => ((), process.bind fun vfs => vfs.fill path content)
  | .clear, process => ((), process.map VirtualFileSystem.clearCache)
  | .write path content metadata, some vfs =>
    ((vfs.writeFile path content metadata).1, some (vfs.writeFile path content metadata).2)
  | .write _ _ _, none => (.error (.notFound ""), none)

/-- The calls of a client one after the other. -/
def client : List VfsCall → VfsM Unit
  | [] => pure ()
  | .readFile path :: calls => do
    let _ ← VirtualFileSystem.readFileSteps path
    client calls
  | .clearCache :: calls => do
    VirtualFileSystem.clearCacheSteps
    client calls
  | .writeFile path content metadata :: calls => do
    let _ ← VirtualFileSystem.writeFileSteps path content metadata
    client calls

/-- A new file system with clients that have not begun. -/
def startClients (maxCacheBytes : ℕ) (clients : List (List VfsCall)) :
    Interleaved VfsOp VfsOp.Response Unit Process :=
  ⟨some (.new maxCacheBytes), clients.map client⟩

/-- The byte count is that of the cached contents, and within the budget. -/
structure Accounted (vfs : VirtualFileSystem) : Prop where
  exact : vfs.cache.totalBytes = vfs.cache.cachedBytes
  within : vfs.cache.totalBytes ≤ vfs.maxCacheBytes

/-- The byte count is right, and the cached contents have addresses. -/
structure AccountedProcess (maxCacheBytes : ℕ) (vfs : VirtualFileSystem) : Prop extends Accounted vfs where
  budget : vfs.maxCacheBytes = maxCacheBytes
  fits : vfs.cache.cachedBytes < 2 ^ 64

/-- A read that nothing comes into is the read through the cache, unless the process ends. -/
theorem run_readFileSteps (vfs : VirtualFileSystem) (path : Path) {vfs' : VirtualFileSystem}
    (halive : ((VirtualFileSystem.readFileSteps path).run vfsSemantics (some vfs)).2 = some vfs') :
    ((VirtualFileSystem.readFileSteps path).run vfsSemantics (some vfs)).1 = (vfs.readFile path).1 ∧
      vfs' = (vfs.readFile path).2 := by
  have hperform : ∀ op process, (Program.perform op).run vfsSemantics process = vfsSemantics op process :=
    fun _ _ => rfl
  rw [VirtualFileSystem.readFile]
  cases hcached : vfs.cache.entries.lookup path with
  | some cached =>
    have hrun : (VirtualFileSystem.readFileSteps path).run vfsSemantics (some vfs) = (.ok cached, some vfs) := by
      simp only [VirtualFileSystem.readFileSteps, Program.run_bind, hperform, vfsSemantics, Option.bind_some, hcached]
      rfl
    rw [hrun] at halive ⊢
    exact ⟨rfl, (Option.some.inj halive).symm⟩
  | none =>
    cases hread : VirtualFileSystem.readFromNode vfs.root path with
    | error e =>
      have hrun : (VirtualFileSystem.readFileSteps path).run vfsSemantics (some vfs) = (.error e, some vfs) := by
        simp only [VirtualFileSystem.readFileSteps, Program.run_bind, hperform, vfsSemantics, Option.bind_some, hcached,
          hread]
        rfl
      rw [hrun] at halive ⊢
      exact ⟨rfl, (Option.some.inj halive).symm⟩
    | ok content =>
      have hrun : (VirtualFileSystem.readFileSteps path).run vfsSemantics (some vfs) =
          (.ok content, vfs.fill path content) := by
        simp only [VirtualFileSystem.readFileSteps, Program.run_bind, hperform, vfsSemantics, Option.bind_some, hcached,
          hread]
        rfl
      rw [hrun] at halive ⊢
      simp only [VirtualFileSystem.fill, hcached] at halive
      simp only
      split at halive
      · rename_i hbudget
        rw [if_pos hbudget]
        split at halive
        · exact ⟨rfl, (Option.some.inj halive).symm⟩
        · cases halive
      · rename_i hbudget
        rw [if_neg hbudget]
        exact ⟨rfl, (Option.some.inj halive).symm⟩

/-- A copy of what was read is counted. -/
theorem AccountedProcess.fill {maxCacheBytes : ℕ} {vfs vfs' : VirtualFileSystem}
    (h : AccountedProcess maxCacheBytes vfs) {path : Path} {content : Content}
    (hfill : vfs.fill path content = some vfs') : AccountedProcess maxCacheBytes vfs' := by
  rw [VirtualFileSystem.fill] at hfill
  cases hcached : vfs.cache.entries.lookup path with
  | some cached =>
    rw [hcached] at hfill
    exact Option.some.inj hfill ▸ h
  | none =>
    rw [hcached] at hfill
    simp only at hfill
    split at hfill
    · rename_i hbudget
      split at hfill
      · rename_i hmemory
        have hexact := h.exact
        have hsum : FileCache.cachedBytes ⟨vfs.cache.entries.insert path content,
            (vfs.cache.totalBytes + content.length) % 2 ^ 64⟩ = vfs.cache.cachedBytes + content.length := by
          rw [FileCache.cachedBytes, AList.entries_insert_of_notMem (AList.lookup_eq_none.mp hcached), List.map_cons,
            List.sum_cons, Nat.add_comm, FileCache.cachedBytes]
        have htotal : (vfs.cache.totalBytes + content.length) % 2 ^ 64 = vfs.cache.cachedBytes + content.length := by
          rw [hexact]
          exact Nat.mod_eq_of_lt hmemory
        rw [← Option.some.inj hfill]
        refine ⟨⟨htotal.trans hsum.symm, ?_⟩, h.budget, hsum.trans_lt hmemory⟩
        rw [hexact] at hbudget
        refine htotal.trans_le ((le_min le_rfl ?_).trans hbudget)
        omega
      · cases hfill
    · exact Option.some.inj hfill ▸ h

/-- Every part keeps the byte count right. -/
theorem vfsSemantics_accounted {maxCacheBytes : ℕ} (op : VfsOp) {process : Process}
    (h : ∀ vfs, process = some vfs → AccountedProcess maxCacheBytes vfs) :
    ∀ vfs, (vfsSemantics op process).2 = some vfs → AccountedProcess maxCacheBytes vfs := by
  intro vfs' hafter
  cases process with
  | none => cases op <;> cases hafter
  | some vfs =>
    have hvfs := h vfs rfl
    cases op with
    | lookup path => exact Option.some.inj hafter ▸ hvfs
    | readTree path => exact Option.some.inj hafter ▸ hvfs
    | fill path content => exact hvfs.fill hafter
    | clear =>
      rw [← Option.some.inj hafter]
      exact ⟨⟨rfl, Nat.zero_le _⟩, hvfs.budget, Nat.two_pow_pos 64⟩
    | write path content metadata =>
      rw [← Option.some.inj hafter]
      exact ⟨⟨hvfs.exact, hvfs.within⟩, hvfs.budget, hvfs.fits⟩

/-- Whatever clients read, write and clear, and in whatever order their parts take place, the byte count of the
read cache is that of the cached contents, and it is within the budget. -/
theorem cache_accounted (maxCacheBytes : ℕ) (clients : List (List VfsCall)) (events : List ℕ)
    {s : Interleaved VfsOp VfsOp.Response Unit Process}
    (hrun : (interleaving vfsSemantics).exec (startClients maxCacheBytes clients) events = some s)
    {vfs : VirtualFileSystem} (halive : s.shared = some vfs) :
    Accounted vfs ∧ vfs.maxCacheBytes = maxCacheBytes := by
  have hinv := (interleaving vfsSemantics).invariant
    (fun s => ∀ vfs, s.shared = some vfs → AccountedProcess maxCacheBytes vfs) (s := startClients maxCacheBytes clients)
    ?_ ?_ hrun
  · exact ⟨(hinv vfs halive).toAccounted, (hinv vfs halive).budget⟩
  · intro vfs hstart
    rw [← Option.some.inj hstart]
    exact ⟨⟨rfl, Nat.zero_le _⟩, rfl, Nat.two_pow_pos 64⟩
  · intro s i t hs hstep
    obtain ⟨op, rest, _, rfl⟩ := Interleaved.step_eq_some_iff.mp hstep
    exact vfsSemantics_accounted op hs

/-- Two readers of a file miss at the same time, and the cache is emptied after both have read it. -/
theorem cache_accounted_sample :
    ∃ s vfs, (interleaving vfsSemantics).exec
        (startClients 10 [[.writeFile [.text "a"] [1, 2] ⟨2, 0, false⟩, .readFile [.text "a"]], [.readFile [.text "a"]],
          [.clearCache]]) [0, 0, 1, 0, 1, 0, 1, 2] = some s ∧ s.shared = some vfs ∧
      Accounted vfs ∧ vfs.maxCacheBytes = 10 := by
  refine ⟨_, _, rfl, rfl, ?_⟩
  exact cache_accounted 10 [[.writeFile [.text "a"] [1, 2] ⟨2, 0, false⟩, .readFile [.text "a"]],
    [.readFile [.text "a"]], [.clearCache]] [0, 0, 1, 0, 1, 0, 1, 2] rfl rfl

end Forge.Worker
