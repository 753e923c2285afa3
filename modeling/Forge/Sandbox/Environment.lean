import Forge.Backend.Identity

/-!
# The environment of a sandboxed task

A sandboxed executor hands on a task with the same program, arguments and directory, and with
an environment that it assembles from the policy, the environment of the build and the extra
variables. The environment of the task itself is not among its sources.

Names and values of variables are bytes. The sandbox works with text: a variable that it looks
up is left out when its value is no text, but listing all of them panics then. Names are
compared as they are written.
-/

namespace Forge.Sandbox

open Forge.Common Forge.Fingerprint Forge.Executor Forge.Backend

/-! ## Maps of variables -/

/-- Set a variable among others that are in order. -/
def setEntry (name value : String) : List (String × String) → List (String × String)
  | [] => [(name, value)]
  | entry :: rest =>
    if name < entry.1 then (name, value) :: entry :: rest
    else if name = entry.1 then (name, value) :: rest
    else entry :: setEntry name value rest

/-- The names of variables when one is set. -/
theorem mem_setEntry {name value : String} {entries : List (String × String)} {entry : String × String}
    (hentry : entry ∈ setEntry name value entries) : entry = (name, value) ∨ entry ∈ entries := by
  induction entries with
  | nil => exact Or.inl (List.mem_singleton.mp hentry)
  | cons first rest ih =>
    rw [setEntry] at hentry
    split at hentry
    · exact List.mem_cons.mp hentry
    · split at hentry
      · exact (List.mem_cons.mp hentry).imp_right (List.mem_cons_of_mem first)
      · rcases List.mem_cons.mp hentry with rfl | hrest
        · exact Or.inr List.mem_cons_self
        · exact (ih hrest).imp_right (List.mem_cons_of_mem first)

/-- Variables stay in order. -/
theorem setEntry_sorted {entries : List (String × String)} (name value : String)
    (h : (entries.map (·.1)).Pairwise (· < ·)) : ((setEntry name value entries).map (·.1)).Pairwise (· < ·) := by
  induction entries with
  | nil => exact List.pairwise_singleton _ _
  | cons first rest ih =>
    rw [List.map_cons, List.pairwise_cons] at h
    obtain ⟨hfirst, hrest⟩ := h
    rw [setEntry]
    split
    · rename_i hlt
      rw [List.map_cons, List.map_cons, List.pairwise_cons, List.pairwise_cons]
      refine ⟨fun other hother => ?_, hfirst, hrest⟩
      rcases List.mem_cons.mp hother with rfl | hother
      · exact hlt
      · exact String.lt_trans hlt (hfirst other hother)
    · rename_i hge
      split
      · rename_i heq
        rw [List.map_cons, List.pairwise_cons]
        exact ⟨fun other hother => heq ▸ hfirst other hother, hrest⟩
      · rename_i hne
        rw [List.map_cons, List.pairwise_cons]
        refine ⟨fun other hother => ?_, ih hrest⟩
        obtain ⟨entry, hentry, rfl⟩ := List.mem_map.mp hother
        rcases mem_setEntry hentry with rfl | hold
        · exact Decidable.not_not.mp fun hnot => hne (String.le_antisymm hnot hge)
        · exact hfirst _ (List.mem_map_of_mem hold)

/-- The variable that was set has its value, and the others have theirs. -/
theorem lookup_setEntry {entries : List (String × String)} (name value other : String)
    (h : (entries.map (·.1)).Pairwise (· < ·)) :
    (setEntry name value entries).lookup other = if other = name then some value else entries.lookup other := by
  induction entries with
  | nil =>
    rw [setEntry, List.lookup_cons]
    by_cases hother : other = name
    · rw [if_pos hother, hother, beq_self_eq_true]
    · rw [if_neg hother, beq_false_of_ne hother]
  | cons first rest ih =>
    rw [List.map_cons, List.pairwise_cons] at h
    rw [setEntry]
    split
    · rw [List.lookup_cons]
      by_cases hother : other = name
      · rw [if_pos hother, hother, beq_self_eq_true]
      · rw [if_neg hother, beq_false_of_ne hother]
    · split
      · rename_i heq
        rw [List.lookup_cons, List.lookup_cons, ← heq]
        by_cases hother : other = name
        · rw [if_pos hother, hother, beq_self_eq_true]
        · rw [if_neg hother, beq_false_of_ne hother]
      · rename_i hne
        rw [List.lookup_cons, List.lookup_cons, ih h.2]
        by_cases hother : other = first.1
        · rw [hother, beq_self_eq_true]
          exact (if_neg (Ne.symm hne)).symm
        · rw [beq_false_of_ne hother]

/-- Set a variable. -/
def insertVar (env : StringMap) (entry : String × String) : StringMap :=
  ⟨setEntry entry.1 entry.2 env.entries, setEntry_sorted _ _ env.sorted⟩

/-- No variables. -/
def noVars : StringMap := ⟨[], StringMap.sorted_nil⟩

/-- Set several variables. -/
def extendEnv (env : StringMap) (entries : List (String × String)) : StringMap := entries.foldl insertVar env

/-- A variable that was set has its value, and another one has that from before. -/
theorem lookup_extendEnv (env : StringMap) {entries : List (String × String)} (hnodup : (entries.map (·.1)).Nodup)
    (name : String) : (extendEnv env entries).entries.lookup name = (entries.lookup name).or (env.entries.lookup name) := by
  induction entries generalizing env with
  | nil => rfl
  | cons entry entries ih =>
    rw [List.map_cons, List.nodup_cons] at hnodup
    have hstep : (extendEnv env (entry :: entries)).entries.lookup name =
        (entries.lookup name).or ((insertVar env entry).entries.lookup name) := ih (insertVar env entry) hnodup.2
    rw [hstep, insertVar, lookup_setEntry _ _ _ env.sorted, List.lookup_cons]
    by_cases hname : name = entry.1
    · have hnone : entries.lookup name = none := by
        rw [List.lookup_eq_none_iff]
        intro other hother
        rw [hname]
        exact bne_iff_ne.mpr fun heq => hnodup.1 (List.mem_map.mpr ⟨other, hother, heq.symm⟩)
      rw [hnone, if_pos hname, hname, beq_self_eq_true]
      rfl
    · rw [if_neg hname, beq_false_of_ne hname]

/-! ## The sandbox -/

/-- The environment of the build, with each variable once. -/
structure HostEnv where
  vars : List (OsString × OsString)
  nodup : (vars.map (·.1)).Nodup

/-- The variables are all text. -/
def HostEnv.Text (host : HostEnv) : Prop :=
  ∀ entry ∈ host.vars, ∃ name value, entry = (utf8Bytes name, utf8Bytes value)

/-- Where the variables of a task come from. -/
inductive EnvPolicy where
  | inherit
  | hermetic
  | custom (vars : StringMap)
deriving DecidableEq

/-- The configuration of a sandbox. -/
structure SandboxConfig where
  envPolicy : EnvPolicy
  extraEnv : StringMap
deriving DecidableEq

/-- A variable of the build, if its value is text. -/
def hostVar (host : HostEnv) (name : String) : Option String :=
  (host.vars.lookup (utf8Bytes name)).bind fromUtf8

/-- A variable as text. -/
def textEntry (entry : OsString × OsString) : Option (String × String) :=
  match fromUtf8 entry.1, fromUtf8 entry.2 with
  | some name, some value => some (name, value)
  | _, _ => none

/-- All variables of the build. `none` is the panic at one that is no text. -/
def hostVars (host : HostEnv) : Option (List (String × String)) := host.vars.mapM textEntry

/-- The variables with fixed values. -/
def hermeticDefaults : List (String × String) :=
  [("LANG", "C"), ("LC_ALL", "C"), ("SOURCE_DATE_EPOCH", "0"), ("TZ", "UTC")]

/-- The variables that are taken over from the build. -/
def whitelist (windows : Bool) : List String :=
  if windows then
    ["PATH", "Path", "SYSTEMROOT", "SystemRoot", "WINDIR", "windir", "COMSPEC", "ComSpec", "TEMP", "TMP", "USERPROFILE",
      "HOMEDRIVE", "HOMEPATH", "CARGO_HOME", "RUSTUP_HOME", "ProgramData", "ProgramFiles", "ProgramFiles(x86)",
      "SystemDrive"]
  else ["PATH", "HOME", "TMPDIR", "USER", "CARGO_HOME", "RUSTUP_HOME"]

/-- The variables of a sandboxed task. `none` is a panic. -/
def sanitizeEnv (windows : Bool) (host : HostEnv) (policy : EnvPolicy) (extraVars : StringMap) : Option StringMap :=
  match policy with
  | .inherit => (hostVars host).map fun vars => extendEnv (extendEnv noVars vars) extraVars.entries
  | .hermetic =>
    let env := extendEnv noVars hermeticDefaults
    let env := extendEnv env ((whitelist windows).filterMap fun name => (hostVar host name).map fun val => (name, val))
    some (extendEnv env extraVars.entries)
  | .custom custom => some (extendEnv custom extraVars.entries)

/-- The task that is handed to the inner executor. `none` is a panic. -/
def sandboxedTask (windows : Bool) (config : SandboxConfig) (host : HostEnv) (task : Task) : Option Task :=
  (sanitizeEnv windows host config.envPolicy config.extraEnv).map fun env =>
    { task with
      spec :=
        { CommandSpec.new task.spec.program with
          args := task.spec.args
          cwd := task.spec.cwd
          envClear := decide (config.envPolicy ≠ .inherit)
          env := env.entries } }

/-- The environment of the process of a command: the variables of the command, and those of the build unless they
are cleared. -/
def childEnv (host : HostEnv) (spec : CommandSpec) (name : OsString) : Option OsString :=
  ((spec.env.map fun entry => (utf8Bytes entry.1, utf8Bytes entry.2)).lookup name).or
    (if spec.envClear then none else host.vars.lookup name)

/-! ## What the sandbox is for -/

/-- Two tasks differ in their environment at most. -/
def SameButEnv (task task' : Task) : Prop :=
  { task' with spec := { task'.spec with env := task.spec.env, envClear := task.spec.envClear } } = task

/-- The names of variables. -/
def varNames (vars : StringMap) : List String := vars.entries.map (·.1)

/-- Two environments of the build agree on what a policy takes over from them. -/
def Agree (windows : Bool) (policy : EnvPolicy) (host host' : HostEnv) : Prop :=
  policy = .hermetic →
    ∀ name ∈ whitelist windows, host.vars.lookup (utf8Bytes name) = host'.vars.lookup (utf8Bytes name)

/-- The sandbox hands on a task that differs in its environment only. The variables of the task that are not
among the extra ones reach the process, and the extra ones do. Unless it is inherited, the environment depends on
nothing of the build but what the policy takes over. -/
structure Sandboxes (windows : Bool) (config : SandboxConfig) (host : HostEnv) (task : Task) : Prop where
  handed : ∃ task', sandboxedTask windows config host task = some task' ∧ SameButEnv task task' ∧
    (∀ entry ∈ task.spec.env, entry.1 ∉ varNames config.extraEnv →
      childEnv host task'.spec (utf8Bytes entry.1) = some (utf8Bytes entry.2)) ∧
    ∀ entry ∈ config.extraEnv.entries, childEnv host task'.spec (utf8Bytes entry.1) = some (utf8Bytes entry.2)
  hermetic : config.envPolicy ≠ .inherit → ∀ host', Agree windows config.envPolicy host host' →
    (sandboxedTask windows config host task).map (fun task' => childEnv host task'.spec) =
      (sandboxedTask windows config host' task).map fun task' => childEnv host' task'.spec

/-- The value that a policy has for a variable. -/
def policyVariable (windows : Bool) (host : HostEnv) (policy : EnvPolicy) (name : String) : Option OsString :=
  match policy with
  | .inherit => host.vars.lookup (utf8Bytes name)
  | .hermetic =>
    ((if name ∈ whitelist windows then hostVar host name else none).or (hermeticDefaults.lookup name)).map utf8Bytes
  | .custom vars => (vars.entries.lookup name).map utf8Bytes

/-! ## Where the variables come from -/

section Variables

variable {windows : Bool} {host host' : HostEnv}

/-- The names of variables are different. -/
theorem nodup_of_sorted (vars : StringMap) : (vars.entries.map (·.1)).Nodup :=
  vars.sorted.imp String.ne_of_lt

/-- Each variable has its value. -/
theorem lookup_of_mem {vars : StringMap} {entry : String × String} (hentry : entry ∈ vars.entries) :
    vars.entries.lookup entry.1 = some entry.2 := by
  have hnodup := nodup_of_sorted vars
  obtain ⟨earlier, later, heq⟩ := List.append_of_mem hentry
  rw [heq, List.map_append, List.map_cons] at hnodup
  rw [heq, List.lookup_eq_some_iff]
  refine ⟨earlier, later, rfl, fun other hother => bne_iff_ne.mpr fun hsame => ?_⟩
  exact (List.nodup_append.mp hnodup).2.2 other.1 (List.mem_map_of_mem hother) entry.1 List.mem_cons_self hsame.symm

/-- Variables as bytes are looked up by the bytes of their names. -/
theorem lookup_map_utf8 (entries : List (String × String)) (name : String) :
    (entries.map fun entry => (utf8Bytes entry.1, utf8Bytes entry.2)).lookup (utf8Bytes name) =
      (entries.lookup name).map utf8Bytes := by
  induction entries with
  | nil => rfl
  | cons entry entries ih =>
    rw [List.map_cons, List.lookup_cons, List.lookup_cons, ih]
    by_cases hname : name = entry.1
    · rw [hname, beq_self_eq_true, beq_self_eq_true]
      rfl
    · rw [beq_false_of_ne hname, beq_false_of_ne fun h => hname (utf8Bytes_injective h)]

/-- A variable as text has its bytes. -/
theorem textEntry_eq_some_iff {entry : OsString × OsString} {var : String × String} :
    textEntry entry = some var ↔ entry = (utf8Bytes var.1, utf8Bytes var.2) := by
  constructor
  · intro h
    unfold textEntry at h
    split at h
    · rename_i name value hname hvalue
      rw [← Option.some.inj h, ← fromUtf8_eq_some_iff.mp hname, ← fromUtf8_eq_some_iff.mp hvalue]
    · exact absurd h nofun
  · rintro rfl
    rw [textEntry, fromUtf8_utf8Bytes, fromUtf8_utf8Bytes]

/-- Variables are listed exactly when they are text. -/
theorem mapM_textEntry_eq_some_iff {entries : List (OsString × OsString)} {vars : List (String × String)} :
    entries.mapM textEntry = some vars ↔ entries = vars.map fun entry => (utf8Bytes entry.1, utf8Bytes entry.2) := by
  induction entries generalizing vars with
  | nil =>
    rw [List.mapM_nil]
    constructor
    · intro h
      rw [← Option.some.inj h]
      rfl
    · intro h
      rw [List.map_eq_nil_iff.mp h.symm]
      rfl
  | cons entry entries ih =>
    rw [List.mapM_cons]
    constructor
    · intro h
      obtain ⟨var, hvar, hrest⟩ := Option.bind_eq_some_iff.mp h
      obtain ⟨rest, hentries, hvars⟩ := Option.bind_eq_some_iff.mp hrest
      rw [← Option.some.inj hvars, List.map_cons, ← ih.mp hentries, ← textEntry_eq_some_iff.mp hvar]
    · intro h
      cases vars with
      | nil => exact absurd h nofun
      | cons var vars =>
        rw [List.map_cons, List.cons.injEq] at h
        rw [textEntry_eq_some_iff.mpr h.1, ih.mpr h.2]
        rfl

/-- The listing does not panic exactly when all variables are text. -/
theorem text_iff : host.Text ↔ ∃ vars, hostVars host = some vars := by
  simp only [hostVars, mapM_textEntry_eq_some_iff]
  constructor
  · intro htext
    have hall : ∀ entries : List (OsString × OsString), (∀ entry ∈ entries, ∃ name value, entry = (utf8Bytes name, utf8Bytes value)) →
        ∃ vars : List (String × String), entries = vars.map fun entry => (utf8Bytes entry.1, utf8Bytes entry.2) := by
      intro entries hentries
      induction entries with
      | nil => exact ⟨[], rfl⟩
      | cons entry entries ih =>
        obtain ⟨⟨name, value, hentry⟩, hrest⟩ := List.forall_mem_cons.mp hentries
        obtain ⟨vars, hvars⟩ := ih hrest
        exact ⟨(name, value) :: vars, by rw [List.map_cons, ← hvars, hentry]⟩
    exact hall host.vars htext
  · rintro ⟨vars, hvars⟩ entry hentry
    rw [hvars] at hentry
    obtain ⟨var, -, rfl⟩ := List.mem_map.mp hentry
    exact ⟨var.1, var.2, rfl⟩

/-- Of several variables those that have a value are set, in their order. -/
theorem map_fst_filterMap (value : String → Option String) (vars : List String) :
    (vars.filterMap fun name => (value name).map fun val => (name, val)).map (·.1) =
      vars.filter fun name => (value name).isSome := by
  induction vars with
  | nil => rfl
  | cons first rest ih =>
    rw [List.filterMap_cons, List.filter_cons]
    cases value first with
    | none => exact ih
    | some val => exact congrArg (first :: ·) ih

/-- Of several variables those that have a value are set to it. -/
theorem lookup_filterMap (value : String → Option String) (vars : List String) (name : String) :
    (vars.filterMap fun name => (value name).map fun val => (name, val)).lookup name =
      if name ∈ vars then value name else none := by
  induction vars with
  | nil => rfl
  | cons first rest ih =>
    rw [List.filterMap_cons]
    by_cases hname : name = first
    · rw [if_pos (hname ▸ List.mem_cons_self), hname]
      cases hvalue : value first with
      | none =>
        rw [hname, hvalue] at ih
        exact ih.trans (ite_self none)
      | some val => rw [Option.map_some, List.lookup_cons, beq_self_eq_true]
    · have hmem : name ∈ first :: rest ↔ name ∈ rest := by rw [List.mem_cons, or_iff_right hname]
      simp only [hmem]
      cases value first with
      | none => exact ih
      | some val =>
        rw [Option.map_some, List.lookup_cons, beq_false_of_ne hname]
        exact ih

/-- What reaches a process whose variables were not the reason of a panic: the extra variables, and otherwise what
the policy has. -/
theorem childEnv_sandboxed {config : SandboxConfig} {task task' : Task} (hok : sandboxedTask windows config host task = some task')
    (name : String) :
    childEnv host task'.spec (utf8Bytes name) =
      ((config.extraEnv.entries.lookup name).map utf8Bytes).or (policyVariable windows host config.envPolicy name) := by
  have hextra := nodup_of_sorted config.extraEnv
  obtain ⟨env, henv, rfl⟩ := Option.map_eq_some_iff.mp hok
  rw [childEnv, lookup_map_utf8]
  cases hpolicy : config.envPolicy with
  | inherit =>
    rw [hpolicy] at henv
    obtain ⟨vars, hvars, rfl⟩ := Option.map_eq_some_iff.mp henv
    have hbytes := mapM_textEntry_eq_some_iff.mp hvars
    have hnodup : (vars.map (·.1)).Nodup := by
      have hhost := host.nodup
      rw [hbytes, List.map_map] at hhost
      refine List.Nodup.of_map utf8Bytes ?_
      rw [List.map_map]
      exact hhost
    -- What is inherited is set once more.
    rw [lookup_extendEnv _ hextra, lookup_extendEnv _ hnodup, policyVariable, hbytes, lookup_map_utf8]
    cases config.extraEnv.entries.lookup name with
    | some val => rfl
    | none => cases vars.lookup name <;> rfl
  | hermetic =>
    rw [hpolicy] at henv
    obtain rfl := Option.some.inj henv
    have hnodup : (((whitelist windows).filterMap fun name => (hostVar host name).map fun val => (name, val)).map (·.1)).Nodup := by
      have hwhitelist : (whitelist windows).Nodup := by cases windows <;> decide
      rw [map_fst_filterMap]
      exact hwhitelist.filter _
    rw [lookup_extendEnv _ hextra, lookup_extendEnv _ hnodup, lookup_extendEnv _ (by decide), lookup_filterMap, policyVariable]
    cases config.extraEnv.entries.lookup name with
    | some val => rfl
    | none => simp [noVars]
  | custom vars =>
    rw [hpolicy] at henv
    obtain rfl := Option.some.inj henv
    rw [lookup_extendEnv _ hextra, policyVariable]
    cases config.extraEnv.entries.lookup name with
    | some val => rfl
    | none => simp

/-- A sandboxed task is handed on unless an inherited variable is no text. -/
theorem exists_sandboxedTask_iff {config : SandboxConfig} {task : Task} :
    (∃ task', sandboxedTask windows config host task = some task') ↔ (config.envPolicy = .inherit → host.Text) := by
  unfold sandboxedTask
  cases hpolicy : config.envPolicy with
  | inherit =>
    simp only [sanitizeEnv, Option.map_eq_some_iff, true_imp_iff, text_iff]
    constructor
    · rintro ⟨task', env, ⟨vars, hvars, -⟩, -⟩
      exact ⟨vars, hvars⟩
    · rintro ⟨vars, hvars⟩
      exact ⟨_, _, ⟨vars, hvars, rfl⟩, rfl⟩
  | hermetic => exact iff_of_true ⟨_, rfl⟩ nofun
  | custom vars => exact iff_of_true ⟨_, rfl⟩ nofun

/-- Environments of the build that agree on what is taken over from them give the same variables. -/
theorem sanitizeEnv_congr {policy : EnvPolicy} (hpolicy : policy ≠ .inherit) (hagree : Agree windows policy host host')
    (extraVars : StringMap) : sanitizeEnv windows host policy extraVars = sanitizeEnv windows host' policy extraVars := by
  cases policy with
  | inherit => exact absurd rfl hpolicy
  | hermetic =>
    have hvars : ∀ name ∈ whitelist windows, (hostVar host name).map (fun val => (name, val)) =
        (hostVar host' name).map fun val => (name, val) := by
      intro name hname
      rw [hostVar, hostVar, hagree rfl name hname]
    rw [sanitizeEnv, sanitizeEnv, List.filterMap_congr hvars]
  | custom vars => rfl

/-- The sandbox does what it is for exactly when nothing that is inherited makes it panic, and each variable of the
task that is not among the extra ones has its value from the policy already. -/
theorem sandboxes_iff (windows : Bool) (config : SandboxConfig) (host : HostEnv) (task : Task) :
    Sandboxes windows config host task ↔
      (config.envPolicy = .inherit → host.Text) ∧
        ∀ entry ∈ task.spec.env, entry.1 ∉ varNames config.extraEnv →
          policyVariable windows host config.envPolicy entry.1 = some (utf8Bytes entry.2) := by
  have hown : ∀ {task' : Task}, sandboxedTask windows config host task = some task' → ∀ name, name ∉ varNames config.extraEnv →
      childEnv host task'.spec (utf8Bytes name) = policyVariable windows host config.envPolicy name := by
    intro task' hok name hname
    have hnone : config.extraEnv.entries.lookup name = none :=
      List.lookup_eq_none_iff.mpr fun other hother => bne_iff_ne.mpr fun heq =>
        hname (List.mem_map.mpr ⟨other, hother, heq.symm⟩)
    rw [childEnv_sandboxed hok, hnone]
    rfl
  constructor
  · rintro ⟨⟨task', hok, -, hreach, -⟩, -⟩
    refine ⟨exists_sandboxedTask_iff.mp ⟨task', hok⟩, fun entry hentry hname => ?_⟩
    rw [← hown hok entry.1 hname]
    exact hreach entry hentry hname
  · rintro ⟨htext, hpolicy⟩
    obtain ⟨task', hok⟩ := exists_sandboxedTask_iff.mpr htext
    refine ⟨⟨task', hok, ?_, fun entry hentry hname => ?_, fun entry hentry => ?_⟩, fun hclear host' hagree => ?_⟩
    · obtain ⟨env, -, rfl⟩ := Option.map_eq_some_iff.mp hok
      rfl
    · rw [hown hok entry.1 hname]
      exact hpolicy entry hentry hname
    · rw [childEnv_sandboxed hok, lookup_of_mem hentry]
      rfl
    · unfold sandboxedTask
      rw [sanitizeEnv_congr hclear hagree]
      cases sanitizeEnv windows host' config.envPolicy config.extraEnv with
      | none => rfl
      | some env =>
        simp only [Option.map_some, decide_eq_true hclear]
        exact congrArg some (funext fun name => rfl)

end Variables

/-- An environment with a search path. -/
def hostWithPath : HostEnv where
  vars := [(utf8Bytes "PATH", utf8Bytes "/usr/bin")]
  nodup := List.nodup_singleton _

/-- A task that sets a variable. -/
def loggingTask : Task :=
  Task.new "build" "cargo build"
    { CommandSpec.new "cargo" with args := ["build"], env := [("RUST_LOG", "debug")] }

/-- The variable that a task sets does not reach its process in a hermetic sandbox. -/
theorem not_sandboxes_logging : ¬ Sandboxes false ⟨.hermetic, noVars⟩ hostWithPath loggingTask := by
  intro h
  obtain ⟨task', hok, -, hreach, -⟩ := h.handed
  have hvar := hreach ("RUST_LOG", "debug") (by decide) (by decide)
  rw [childEnv_sandboxed hok] at hvar
  exact absurd hvar (by decide)

end Forge.Sandbox
