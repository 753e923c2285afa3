import Mathlib.Data.Int.Notation
import Mathlib.Data.List.Pairwise
import Mathlib.Data.List.Sort
import Mathlib.Order.Nat
import Mathlib.Tactic.Common

/-!
# The migrations of the build database

The runner applies registered migrations, the one of the lowest version above the applied version
next, and keeps the history of the applied versions. A rollback takes versions off the end of the
history, and the applied version is the last one that remains.

The schema is known by one version only. A migration that is registered below the applied
version counts as applied from then on, and is not applied before a rollback goes below it.
-/

namespace Forge.Migrator

/-- A migration. -/
structure Migration where
  version : ℤ
  description : String
  upSQL : String
  downSQL : String
deriving DecidableEq

/-- The registered migrations, of which no two have the same version. -/
structure SchemaMigrator where
  migrations : List Migration
  distinct : (migrations.map Migration.version).Nodup

/-- What was applied. -/
structure MigrationState where
  appliedVersion : ℤ
  appliedHistory : List ℤ
deriving DecidableEq

/-- Registered migrations, and what was applied of them. -/
structure MigrationRunner where
  migrator : SchemaMigrator
  state : MigrationState

namespace SchemaMigrator

/-- The migrations of the tool itself. -/
def new : SchemaMigrator where
  migrations := [
    ⟨1, "create_build_runs_table",
      "CREATE TABLE IF NOT EXISTS build_runs (id TEXT PRIMARY KEY, status TEXT, duration_ms INTEGER, created_at TIMESTAMP);",
      "DROP TABLE IF EXISTS build_runs;"⟩,
    ⟨2, "create_task_metrics_table",
      "CREATE TABLE IF NOT EXISTS task_metrics (task_id TEXT PRIMARY KEY, run_id TEXT, toolchain TEXT, cached INTEGER, duration_ms INTEGER);",
      "DROP TABLE IF EXISTS task_metrics;"⟩,
    ⟨3, "create_cas_artifacts_table",
      "CREATE TABLE IF NOT EXISTS cas_artifacts (digest TEXT PRIMARY KEY, size_bytes INTEGER, compressed_bytes INTEGER, hit_count INTEGER);",
      "DROP TABLE IF EXISTS cas_artifacts;"⟩,
    ⟨4, "create_worker_telemetry_table",
      "CREATE TABLE IF NOT EXISTS worker_telemetry (worker_id TEXT, timestamp TIMESTAMP, cpu_pct REAL, memory_bytes INTEGER, active_jobs INTEGER, PRIMARY KEY(worker_id, timestamp));",
      "DROP TABLE IF EXISTS worker_telemetry;"⟩]
  distinct := by decide

/-- Put a migration in the place of the one of its version, or else at the end. -/
def put (mig : Migration) : List Migration → List Migration
  | [] => [mig]
  | existing :: rest => if existing.version = mig.version then mig :: rest else existing :: put mig rest

/-- The versions after a migration is put among others. -/
theorem map_version_put (mig : Migration) (migrations : List Migration) :
    (put mig migrations).map Migration.version = if mig.version ∈ migrations.map Migration.version
      then migrations.map Migration.version else migrations.map Migration.version ++ [mig.version] := by
  induction migrations with
  | nil => rfl
  | cons existing rest ih =>
    unfold put
    by_cases hsame : existing.version = mig.version
    · rw [if_pos hsame, List.map_cons, List.map_cons, hsame, if_pos List.mem_cons_self]
    · rw [if_neg hsame, List.map_cons, List.map_cons, ih]
      simp only [List.mem_cons, Ne.symm hsame, false_or]
      split <;> rfl

/-- Register a migration. -/
def addMigration (m : SchemaMigrator) (mig : Migration) : SchemaMigrator where
  migrations := put mig m.migrations
  distinct := by
    rw [map_version_put]
    split
    · exact m.distinct
    · rename_i hfresh
      exact List.nodup_append.mpr ⟨m.distinct, List.nodup_singleton _, fun v hv w hw => by
        rintro rfl
        exact hfresh (List.mem_singleton.mp hw ▸ hv)⟩

/-- The registered migrations by version. The versions are distinct, so that any sort gives this order. -/
def getAllMigrations (m : SchemaMigrator) : List Migration :=
  m.migrations.insertionSort fun a b => a.version ≤ b.version

end SchemaMigrator

namespace MigrationState

/-- Take versions off the end of the history, as long as there are any. -/
def rollback : ℕ → MigrationState → MigrationState
  | 0, s => s
  | steps + 1, s =>
    if s.appliedHistory.length = 0 then { s with appliedVersion := 0 }
    else
      let history := s.appliedHistory.take (s.appliedHistory.length - 1)
      rollback steps ⟨if history.length > 0 then history.getLastD 0 else 0, history⟩

end MigrationState

namespace MigrationRunner

/-- A runner that has not applied anything. -/
def new (migrator : SchemaMigrator) : MigrationRunner := ⟨migrator, ⟨0, []⟩⟩

/-- Register a migration while there is a runner. -/
def addMigration (r : MigrationRunner) (mig : Migration) : MigrationRunner :=
  { r with migrator := r.migrator.addMigration mig }

/-- Apply the first migration above the applied version. -/
def applyNext (r : MigrationRunner) : (ℤ × Option String) × MigrationRunner :=
  match r.migrator.getAllMigrations.find? fun m => m.version > r.state.appliedVersion with
  | some m =>
    ((m.version, none), { r with state := ⟨m.version, r.state.appliedHistory ++ [m.version]⟩ })
  | none => ((r.state.appliedVersion, some "no pending migrations"), r)

/-- Apply migrations until there is none, in so many rounds. -/
def applyAllLoop : ℕ → MigrationRunner → ℕ → Option (ℕ × MigrationRunner)
  | 0, _, _ => none
  | fuel + 1, r, count =>
    match r.applyNext with
    | ((_, none), r) => applyAllLoop fuel r (count + 1)
    | ((_, some _), r) => some (count, r)

/-- Take versions off the end of the history. -/
def rollback (r : MigrationRunner) (steps : ℤ) : ℤ × MigrationRunner :=
  if steps ≤ 0 then (r.state.appliedVersion, r)
  else
    let state := r.state.rollback steps.toNat
    (state.appliedVersion, { r with state })

end MigrationRunner

/-- A call of the runner, or of the migrator behind it. -/
inductive Call where
  | addMigration (mig : Migration)
  | applyNext
  | applyAll
  | rollback (steps : ℤ)

/-- What a call makes of the runner. -/
def MigrationRunner.Step (r : MigrationRunner) : Call → MigrationRunner → Prop
  | .addMigration mig, r' => r' = r.addMigration mig
  | .applyNext, r' => r' = r.applyNext.2
  | .applyAll, r' => ∃ fuel count, r.applyAllLoop fuel 0 = some (count, r')
  | .rollback steps, r' => r' = (r.rollback steps).2

/-- The runner after calls. -/
inductive Run : List Call → MigrationRunner → Prop where
  | nil : Run [] (.new .new)
  | snoc {calls : List Call} {r r' : MigrationRunner} {call : Call} (hrun : Run calls r) (hstep : r.Step call r') :
      Run (calls ++ [call]) r'

/-- Calls that leave so many applied migrations behind, each of them by a call that succeeded, and
whatever else was applied is rolled back. -/
inductive Net (r : MigrationRunner) : ℕ → MigrationRunner → Prop where
  | refl : Net r 0 r
  | added {n : ℕ} {s : MigrationRunner} (hnet : Net r n s) (mig : Migration) : Net r n (s.addMigration mig)
  | applied {n : ℕ} {s t : MigrationRunner} {version : ℤ} (hnet : Net r n s) (hok : s.applyNext = ((version, none), t)) :
      Net r (n + 1) t
  | failed {n : ℕ} {s t : MigrationRunner} {version : ℤ} {e : String} (hnet : Net r n s)
      (herr : s.applyNext = ((version, some e), t)) : Net r n t
  | undone {n k : ℕ} {s : MigrationRunner} (hnet : Net r n s) (hle : k ≤ n) : Net r (n - k) (s.rollback k).2

/-! ### One call -/

namespace SchemaMigrator

/-- The sorted migrations are the registered ones. -/
theorem mem_getAllMigrations {m : SchemaMigrator} {mig : Migration} :
    mig ∈ m.getAllMigrations ↔ mig ∈ m.migrations := List.mem_insertionSort _

/-- They are in the order of their versions. -/
theorem getAllMigrations_pairwise (m : SchemaMigrator) :
    m.getAllMigrations.Pairwise fun a b => a.version ≤ b.version := by
  have htotal : Std.Total fun a b : Migration => a.version ≤ b.version := ⟨fun _ _ => le_total _ _⟩
  have htrans : IsTrans Migration fun a b : Migration => a.version ≤ b.version := ⟨fun _ _ _ => le_trans⟩
  exact List.pairwise_insertionSort _ _

/-- Any order of the migrations by version is this one. -/
theorem eq_getAllMigrations {m : SchemaMigrator} {sorted : List Migration} (hperm : sorted.Perm m.migrations)
    (hsorted : sorted.Pairwise fun a b => a.version ≤ b.version) : sorted = m.getAllMigrations := by
  have hsame : ∀ a b, a ∈ sorted → b ∈ m.getAllMigrations → a.version ≤ b.version → b.version ≤ a.version → a = b :=
    fun a b ha hb hab hba => List.inj_on_of_nodup_map m.distinct (hperm.mem_iff.mp ha) (mem_getAllMigrations.mp hb)
      (le_antisymm hab hba)
  exact List.Perm.eq_of_pairwise hsame hsorted m.getAllMigrations_pairwise
    (hperm.trans (List.perm_insertionSort _ _).symm)

end SchemaMigrator

namespace MigrationRunner

/-- The runner with one more version applied. -/
def withApplied (r : MigrationRunner) (version : ℤ) : MigrationRunner :=
  { r with state := ⟨version, r.state.appliedHistory ++ [version]⟩ }

/-- The lowest version above the applied one is applied, or there is none. -/
theorem applyNext_cases (r : MigrationRunner) :
    (∃ m ∈ r.migrator.migrations, r.state.appliedVersion < m.version ∧
      (∀ other ∈ r.migrator.migrations, r.state.appliedVersion < other.version → m.version ≤ other.version) ∧
      r.applyNext = ((m.version, none), r.withApplied m.version)) ∨
    (∀ m ∈ r.migrator.migrations, m.version ≤ r.state.appliedVersion) ∧
      r.applyNext = ((r.state.appliedVersion, some "no pending migrations"), r) := by
  unfold applyNext
  cases hfind : r.migrator.getAllMigrations.find? fun m => m.version > r.state.appliedVersion with
  | some m =>
    obtain ⟨habove, before, behind, hsplit, hbefore⟩ := List.find?_eq_some_iff_append.mp hfind
    have hmem : m ∈ r.migrator.getAllMigrations := hsplit ▸ List.mem_append_right before List.mem_cons_self
    have hsorted := hsplit ▸ r.migrator.getAllMigrations_pairwise
    refine .inl ⟨m, SchemaMigrator.mem_getAllMigrations.mp hmem, of_decide_eq_true habove, ?_, rfl⟩
    intro other hother hpending
    rw [← SchemaMigrator.mem_getAllMigrations, hsplit, List.mem_append, List.mem_cons] at hother
    obtain hother | rfl | hother := hother
    · exact absurd (hbefore other hother) (by simpa using hpending)
    · exact le_rfl
    · exact (List.pairwise_cons.mp (List.pairwise_append.mp hsorted).2.1).1 other hother
  | none =>
    refine .inr ⟨fun m hm => ?_, rfl⟩
    have hnone := List.find?_eq_none.mp hfind m (SchemaMigrator.mem_getAllMigrations.mpr hm)
    simpa using hnone

end MigrationRunner

namespace MigrationState

/-- The state of a history. -/
def ofHistory (history : List ℤ) : MigrationState := ⟨history.getLastD 0, history⟩

/-- The applied version is the last one of a strictly increasing history of positive versions. -/
structure Canonical (s : MigrationState) : Prop where
  version : s.appliedVersion = s.appliedHistory.getLastD 0
  increasing : s.appliedHistory.Pairwise (· < ·)
  positive : ∀ v ∈ s.appliedHistory, 0 < v

/-- A state whose version is the last one is the state of its history. -/
theorem eq_ofHistory {s : MigrationState} (h : s.appliedVersion = s.appliedHistory.getLastD 0) :
    s = ofHistory s.appliedHistory := by
  unfold ofHistory
  rw [← h]

@[simp] theorem ofHistory_appliedHistory (history : List ℤ) : (ofHistory history).appliedHistory = history := rfl

/-- One step of a rollback goes to the state of the shorter history. -/
theorem rollback_succ (steps : ℕ) (s : MigrationState) :
    s.rollback (steps + 1) = if s.appliedHistory.length = 0 then { s with appliedVersion := 0 }
      else (ofHistory (s.appliedHistory.take (s.appliedHistory.length - 1))).rollback steps := by
  have hlast (history : List ℤ) : (if history.length > 0 then history.getLastD 0 else 0) = history.getLastD 0 := by
    split
    · rfl
    · rename_i hnone
      rw [List.eq_nil_of_length_eq_zero (Nat.eq_zero_of_not_pos hnone)]
      rfl
  rw [rollback]
  simp only [hlast]
  rfl

/-- A rollback gives the state of the history without so many versions at its end. -/
theorem rollback_ofHistory (steps : ℕ) (history : List ℤ) :
    (ofHistory history).rollback steps = ofHistory (history.take (history.length - steps)) := by
  induction steps generalizing history with
  | zero => rw [rollback, Nat.sub_zero, List.take_length]
  | succ steps ih =>
    rw [rollback_succ, ofHistory_appliedHistory]
    split
    · rename_i hempty
      rw [List.length_eq_zero_iff.mp hempty, List.take_nil]
      rfl
    · rw [ih, List.length_take, List.take_take]
      congr 2
      omega

/-- The applied version is the last one of those applied. -/
theorem Canonical.le {s : MigrationState} (h : s.Canonical) {v : ℤ} (hv : v ∈ s.appliedHistory) :
    v ≤ s.appliedVersion := by
  rw [h.version, List.getLastD_eq_getLast?, List.getLast?_eq_some_getLast (List.ne_nil_of_mem hv), Option.getD_some]
  exact (h.increasing.imp le_of_lt).rel_getLast hv

/-- The state of no history is canonical. -/
theorem canonical_nil : (ofHistory []).Canonical := ⟨rfl, List.Pairwise.nil, fun _ hv => absurd hv List.not_mem_nil⟩

/-- A version above the applied one can be applied. -/
theorem Canonical.apply {s : MigrationState} (h : s.Canonical) {v : ℤ} (hv : s.appliedVersion < v) :
    Canonical ⟨v, s.appliedHistory ++ [v]⟩ := by
  have hnonneg : 0 ≤ s.appliedVersion := by
    rw [h.version, List.getLastD_eq_getLast?]
    cases hlast : s.appliedHistory.getLast? with
    | none => exact le_rfl
    | some last => exact (h.positive last (List.mem_of_getLast? hlast)).le
  refine ⟨List.getLastD_concat.symm, ?_, fun w hw => ?_⟩
  · refine List.pairwise_append.mpr ⟨h.increasing, List.pairwise_singleton _ _, fun w hw u hu => ?_⟩
    rw [List.mem_singleton.mp hu]
    exact (h.le hw).trans_lt hv
  · obtain hw | hw := List.mem_append.mp hw
    · exact h.positive w hw
    · rw [List.mem_singleton.mp hw]
      exact hnonneg.trans_lt hv

/-- The beginning of a canonical history is canonical. -/
theorem Canonical.take {s : MigrationState} (h : s.Canonical) (n : ℕ) : (ofHistory (s.appliedHistory.take n)).Canonical :=
  ⟨rfl, h.increasing.sublist (List.take_sublist n _), fun v hv => h.positive v (List.mem_of_mem_take hv)⟩

end MigrationState

namespace MigrationRunner

/-- A rollback keeps the migrations and gives the state of the history without so many versions at its end. -/
theorem rollback_eq {r : MigrationRunner} (h : r.state.appliedVersion = r.state.appliedHistory.getLastD 0) (steps : ℤ) :
    (r.rollback steps).2 = { r with
      state := .ofHistory (r.state.appliedHistory.take (r.state.appliedHistory.length - steps.toNat)) } := by
  unfold rollback
  split
  · rename_i hnone
    rw [Int.toNat_eq_zero.mpr hnone, Nat.sub_zero, List.take_length, ← MigrationState.eq_ofHistory h]
  · rw [MigrationState.eq_ofHistory h]
    simp only [MigrationState.rollback_ofHistory, MigrationState.ofHistory_appliedHistory]

/-! ### Applying all -/

/-- The migrations above the applied version. -/
def pending (r : MigrationRunner) : List Migration := r.migrator.migrations.filter fun m => r.state.appliedVersion < m.version

/-- Fewer migrations are above a version that was applied. -/
theorem length_pending_withApplied {r : MigrationRunner} {m : Migration} (hmem : m ∈ r.migrator.migrations)
    (habove : r.state.appliedVersion < m.version) : (r.withApplied m.version).pending.length < r.pending.length := by
  have hsub : (r.withApplied m.version).pending = r.pending.filter fun other => m.version < other.version := by
    unfold pending withApplied
    rw [List.filter_filter]
    refine List.filter_congr fun other _ => ?_
    rw [Bool.eq_iff_iff, Bool.and_eq_true_iff, decide_eq_true_iff, decide_eq_true_iff]
    exact ⟨fun h => ⟨h, habove.trans h⟩, And.left⟩
  rw [hsub]
  refine List.length_filter_lt_length_iff_exists.mpr ⟨m, List.mem_filter.mpr ⟨hmem, decide_eq_true habove⟩, ?_⟩
  rw [decide_eq_true_iff]
  exact lt_irrefl _

/-- With more rounds than migrations above the applied version, nothing is left to apply at the end. -/
theorem applyAllLoop_terminates (r : MigrationRunner) (count : ℕ) :
    ∃ result, ∀ fuel, r.pending.length < fuel → r.applyAllLoop fuel count = some result := by
  induction hsize : r.pending.length using Nat.strong_induction_on generalizing r count with
  | _ size ih =>
    obtain ⟨m, hmem, habove, -, happly⟩ | ⟨-, herr⟩ := r.applyNext_cases
    · obtain ⟨result, hresult⟩ := ih _ (hsize ▸ length_pending_withApplied hmem habove) _ (count + 1) rfl
      refine ⟨result, fun fuel hfuel => ?_⟩
      obtain ⟨fuel, rfl⟩ := Nat.exists_eq_add_of_lt (Nat.zero_lt_of_lt hfuel)
      rw [Nat.zero_add, applyAllLoop, happly]
      have hless := length_pending_withApplied hmem habove
      exact hresult fuel (by omega)
    · refine ⟨(count, r), fun fuel hfuel => ?_⟩
      obtain ⟨fuel, rfl⟩ := Nat.exists_eq_add_of_lt (Nat.zero_lt_of_lt hfuel)
      rw [Nat.zero_add, applyAllLoop, herr]

/-- What applying all does: the history goes on with versions above the applied one, all of those that are registered. -/
structure AppliedAll (r s : MigrationRunner) : Prop where
  migrator : s.migrator = r.migrator
  history : ∃ new, s.state.appliedHistory = r.state.appliedHistory ++ new ∧ ∀ v ∈ new, r.state.appliedVersion < v
  complete : ∀ m ∈ r.migrator.migrations, r.state.appliedVersion < m.version → m.version ∈ s.state.appliedHistory
  canonical : r.state.Canonical → s.state.Canonical

/-- Applying one migration, and then all. -/
theorem AppliedAll.cons {r s : MigrationRunner} {m : Migration} (habove : r.state.appliedVersion < m.version)
    (hleast : ∀ other ∈ r.migrator.migrations, r.state.appliedVersion < other.version → m.version ≤ other.version)
    (hrest : AppliedAll (r.withApplied m.version) s) : AppliedAll r s := by
  obtain ⟨new, hnew, hbounds⟩ := hrest.history
  have hhistory : s.state.appliedHistory = r.state.appliedHistory ++ (m.version :: new) :=
    hnew.trans (List.append_assoc _ [m.version] new)
  refine ⟨hrest.migrator, ⟨m.version :: new, hhistory, ?_⟩, fun other hother hpending => ?_, fun h => ?_⟩
  · intro v hv
    obtain rfl | hv := List.mem_cons.mp hv
    · exact habove
    · exact habove.trans (hbounds v hv)
  · obtain heq | hlater := (hleast other hother hpending).eq_or_lt
    · rw [hhistory, ← heq]
      exact List.mem_append_right _ List.mem_cons_self
    · exact hrest.complete other hother hlater
  · exact hrest.canonical (h.apply habove)

/-- The loop applies all. -/
theorem applyAllLoop_appliedAll {fuel : ℕ} {r s : MigrationRunner} {count total : ℕ}
    (h : r.applyAllLoop fuel count = some (total, s)) : AppliedAll r s := by
  induction fuel generalizing r count with
  | zero => cases h
  | succ fuel ih =>
    rw [applyAllLoop] at h
    obtain ⟨m, hmem, habove, hleast, happly⟩ | ⟨hnone, herr⟩ := r.applyNext_cases
    · rw [happly] at h
      exact (ih h).cons habove hleast
    · rw [herr] at h
      cases h
      exact ⟨rfl, ⟨[], (List.append_nil _).symm, fun v hv => absurd hv List.not_mem_nil⟩,
        fun m hm habove => absurd habove (not_lt_of_ge (hnone m hm)), id⟩

/-! ### Runs -/

/-- A call keeps the state canonical. -/
theorem Step.canonical {r s : MigrationRunner} {call : Call} (h : r.Step call s) (hr : r.state.Canonical) :
    s.state.Canonical := by
  cases call with
  | addMigration mig => exact h ▸ hr
  | applyNext =>
    rw [show s = r.applyNext.2 from h]
    obtain ⟨m, -, habove, -, happly⟩ | ⟨-, herr⟩ := r.applyNext_cases
    · rw [happly]
      exact hr.apply habove
    · rw [herr]
      exact hr
  | applyAll =>
    obtain ⟨fuel, count, hloop⟩ := h
    exact (applyAllLoop_appliedAll hloop).canonical hr
  | rollback steps =>
    rw [show s = (r.rollback steps).2 from h, rollback_eq hr.version]
    exact hr.take _

end MigrationRunner

/-- The state is canonical after every run. -/
theorem Run.canonical {calls : List Call} {r : MigrationRunner} (h : Run calls r) : r.state.Canonical := by
  induction h with
  | nil => exact MigrationState.canonical_nil
  | snoc _ hstep ih => exact hstep.canonical ih

/-- The registered migrations are the added ones and those of the tool. -/
theorem MigrationRunner.Step.positive {r s : MigrationRunner} {call : Call} (h : r.Step call s)
    (hadded : ∀ mig, call = .addMigration mig → 0 < mig.version) (hr : ∀ m ∈ r.migrator.migrations, 0 < m.version) :
    ∀ m ∈ s.migrator.migrations, 0 < m.version := by
  cases call with
  | addMigration mig =>
    rw [show s = r.addMigration mig from h]
    intro m hm
    have hversion := List.mem_map_of_mem (f := Migration.version) hm
    rw [addMigration, SchemaMigrator.addMigration, SchemaMigrator.map_version_put] at hversion
    have hcases : m.version ∈ r.migrator.migrations.map Migration.version ∨ m.version = mig.version := by
      split at hversion
      · exact .inl hversion
      · exact (List.mem_append.mp hversion).imp_right List.mem_singleton.mp
    obtain hold | hnew := hcases
    · obtain ⟨old, hmem, heq⟩ := List.mem_map.mp hold
      exact heq ▸ hr old hmem
    · exact hnew ▸ hadded mig rfl
  | applyNext =>
    rw [show s = r.applyNext.2 from h]
    obtain ⟨m, -, -, -, happly⟩ | ⟨-, herr⟩ := r.applyNext_cases
    · rwa [happly]
    · rwa [herr]
  | applyAll =>
    obtain ⟨fuel, count, hloop⟩ := h
    rwa [(applyAllLoop_appliedAll hloop).migrator]
  | rollback steps =>
    rw [show s = (r.rollback steps).2 from h]
    unfold rollback
    split <;> exact hr

/-- If only positive versions are added, then all registered ones are positive. -/
theorem Run.positive {calls : List Call} {r : MigrationRunner} (h : Run calls r)
    (hadded : ∀ mig, .addMigration mig ∈ calls → 0 < mig.version) : ∀ m ∈ r.migrator.migrations, 0 < m.version := by
  induction h with
  | nil => exact List.forall_iff_forall_mem.mp (by decide)
  | snoc _ hstep ih =>
    refine hstep.positive (fun mig heq => hadded mig ?_) (ih fun mig hmem => hadded mig (List.mem_append_left _ hmem))
    exact List.mem_append_right _ (List.mem_singleton.mpr heq.symm)

/-- The calls since a state leave its history in front of so many versions. -/
theorem Net.history {r s : MigrationRunner} {n : ℕ} (h : Net r n s) (hr : r.state.Canonical) :
    s.state.Canonical ∧ ∃ new, s.state.appliedHistory = r.state.appliedHistory ++ new ∧ new.length = n := by
  induction h with
  | refl => exact ⟨hr, [], (List.append_nil _).symm, rfl⟩
  | added _ _ ih => exact ih
  | @applied n s t version _ hok ih =>
    obtain ⟨hs, new, hnew, hlength⟩ := ih
    obtain ⟨m, -, habove, -, happly⟩ | ⟨-, herr⟩ := s.applyNext_cases
    · rw [happly] at hok
      cases hok
      refine ⟨hs.apply habove, new ++ [m.version], ?_, ?_⟩
      · rw [MigrationRunner.withApplied, hnew, List.append_assoc]
      · rw [List.length_append, hlength]
        rfl
    · rw [herr] at hok
      cases hok
  | @failed n s t version e _ herr ih =>
    obtain ⟨m, -, -, -, happly⟩ | ⟨-, hnone⟩ := s.applyNext_cases
    · rw [happly] at herr
      cases herr
    · rw [hnone] at herr
      cases herr
      exact ih
  | @undone n k s _ hle ih =>
    obtain ⟨hs, new, hnew, hlength⟩ := ih
    rw [MigrationRunner.rollback_eq hs.version, Int.toNat_natCast]
    refine ⟨hs.take _, new.take (n - k), ?_, ?_⟩
    · simp only [MigrationState.ofHistory_appliedHistory]
      rw [hnew, List.length_append, hlength, Nat.add_sub_assoc hle, List.take_length_add_append]
    · rw [List.length_take, hlength]
      omega

/-- A rollback of as many versions as were applied since a state gives this state again. -/
theorem Net.rollback {r s : MigrationRunner} {n : ℕ} (h : Net r n s) (hr : r.state.Canonical) :
    (s.rollback n).2.state = r.state := by
  obtain ⟨hs, new, hnew, hlength⟩ := h.history hr
  rw [MigrationRunner.rollback_eq hs.version, Int.toNat_natCast, MigrationState.eq_ofHistory hr.version]
  simp only
  rw [hnew, List.length_append, hlength, Nat.add_sub_cancel, List.take_left]

/-- After applying all, a registered version is in the history, unless it was below the applied
version and not in the history before. -/
theorem MigrationRunner.AppliedAll.mem_history_iff {r s : MigrationRunner} (h : AppliedAll r s)
    (hr : r.state.Canonical) {m : Migration} (hm : m ∈ r.migrator.migrations) (hpositive : 0 < m.version) :
    m.version ∈ s.state.appliedHistory ↔
      ¬ (m.version < r.state.appliedVersion ∧ m.version ∉ r.state.appliedHistory) := by
  obtain ⟨new, hnew, hbounds⟩ := h.history
  constructor
  · rintro hmem ⟨hbelow, hfresh⟩
    rw [hnew] at hmem
    obtain hold | hlater := List.mem_append.mp hmem
    · exact hfresh hold
    · exact lt_asymm hbelow (hbounds _ hlater)
  · intro hkept
    by_cases hold : m.version ∈ r.state.appliedHistory
    · rw [hnew]
      exact List.mem_append_left _ hold
    · have habove : r.state.appliedVersion ≤ m.version := not_lt.mp fun hbelow => hkept ⟨hbelow, hold⟩
      obtain heq | hlater := habove.eq_or_lt
      · -- The applied version is positive here, and so it is in the history.
        refine absurd ?_ hold
        rw [← heq, hr.version, List.getLastD_eq_getLast?]
        rw [← heq, hr.version, List.getLastD_eq_getLast?] at hpositive
        cases hlast : r.state.appliedHistory.getLast? with
        | none =>
          rw [hlast] at hpositive
          exact absurd hpositive (lt_irrefl _)
        | some last => exact List.mem_of_getLast? hlast
      · exact h.complete m hm hlater

/-- In every run that adds positive versions the history is strictly increasing and the applied
version is its last one, a rollback gives the state before as many calls that applied a
migration, and applying all terminates with each registered version in the history, except for
those that were below the applied version and not in the history before. -/
theorem migrationRunner_applies_in_order {calls : List Call} {r : MigrationRunner} (hrun : Run calls r)
    (hadded : ∀ mig, .addMigration mig ∈ calls → 0 < mig.version) :
    r.state.appliedHistory.Pairwise (· < ·) ∧
      r.state.appliedVersion = r.state.appliedHistory.getLastD 0 ∧
      (∀ n s, Net r n s → (s.rollback n).2.state = r.state) ∧
      (∃ result rounds, ∀ fuel, rounds < fuel → r.applyAllLoop fuel 0 = some result) ∧
      ∀ s, r.Step .applyAll s → s.migrator = r.migrator ∧ ∀ m ∈ s.migrator.migrations,
        m.version ∈ s.state.appliedHistory ↔
          ¬ (m.version < r.state.appliedVersion ∧ m.version ∉ r.state.appliedHistory) := by
  have hr := hrun.canonical
  refine ⟨hr.increasing, hr.version, fun n s hnet => hnet.rollback hr, ?_, ?_⟩
  · obtain ⟨result, hresult⟩ := r.applyAllLoop_terminates 0
    exact ⟨result, _, hresult⟩
  · rintro s ⟨fuel, count, hloop⟩
    have hall := MigrationRunner.applyAllLoop_appliedAll hloop
    refine ⟨hall.migrator, fun m hm => ?_⟩
    rw [hall.migrator] at hm
    exact hall.mem_history_iff hr hm (hrun.positive hadded m hm)

/-- Migration 10, with all applied, and then migration 7. -/
def lateCalls : List Call :=
  [.addMigration ⟨10, "add_index", "", ""⟩, .applyAll, .addMigration ⟨7, "add_column", "", ""⟩]

/-- The runner after these calls. -/
def late : MigrationRunner where
  migrator := (SchemaMigrator.new.addMigration ⟨10, "add_index", "", ""⟩).addMigration ⟨7, "add_column", "", ""⟩
  state := ⟨10, [1, 2, 3, 4, 10]⟩

/-- They are a run. -/
theorem run_late : Run lateCalls late := by
  have hadded := @Run.snoc [] _ _ (.addMigration ⟨10, "add_index", "", ""⟩) .nil rfl
  have happlied := @Run.snoc _ _ ⟨SchemaMigrator.new.addMigration ⟨10, "add_index", "", ""⟩, late.state⟩ .applyAll
    hadded ⟨6, 5, rfl⟩
  exact @Run.snoc _ _ late (.addMigration ⟨7, "add_column", "", ""⟩) happlied rfl

/-- The added versions are positive. -/
theorem lateCalls_positive : ∀ mig, .addMigration mig ∈ lateCalls → 0 < mig.version := by
  simp [lateCalls]

/-- With a migration that came late. -/
theorem migrationRunner_applies_in_order_late :
    [1, 2, 3, 4, 10].Pairwise (· < · : ℤ → ℤ → Prop) ∧ late.state.appliedVersion = late.state.appliedHistory.getLastD 0 :=
  have h := migrationRunner_applies_in_order run_late lateCalls_positive
  ⟨h.1, h.2.1⟩

/-- A migration that is registered below the applied version is not applied with all. -/
theorem applyAll_skips_late :
    ¬ ∀ (calls : List Call) (r s : MigrationRunner), Run calls r →
      (∀ mig, .addMigration mig ∈ calls → 0 < mig.version) → r.Step .applyAll s →
        ∀ m ∈ s.migrator.migrations, m.version ∈ s.state.appliedHistory := by
  intro h
  have hall : late.Step .applyAll late := ⟨1, 0, rfl⟩
  have hmem := h lateCalls late late run_late lateCalls_positive hall ⟨7, "add_column", "", ""⟩ (by decide)
  exact absurd hmem (by decide)

end Forge.Migrator
