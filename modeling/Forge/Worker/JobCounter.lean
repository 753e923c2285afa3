import Forge.Common.Histories
import Forge.Worker.WorkerServer
import Mathlib.Algebra.GroupWithZero.Nat

/-!
# The counter of jobs

The counter is the number of connections between the two points where it is changed, and of
those that left in between. They leave there when the source of a task cannot be unpacked,
and then the counter stays too high for good. As long as every source can be unpacked, the
counter is right.
-/

namespace Forge.Worker

open Forge.Common Forge.Executor

namespace Phase

/-- A task is between the two points where the counter is changed. -/
def running : Phase → Bool
  | counted _ | prepared _ _ | executed _ _ => true
  | _ => false

/-- A call left between the two points. -/
def left : Phase → Bool
  | abandoned _ => true
  | _ => false

/-- A call has returned. -/
def ended : Phase → Bool
  | returned _ | abandoned _ => true
  | _ => false

/-- What a connection adds to the counter. -/
def held (phase : Phase) : ℕ := phase.running.toNat + phase.left.toNat

end Phase

/-- An event increments the counter for a connection. -/
def WorkerEvent.increments (id : ℕ) : WorkerEvent → Bool
  | .act id' .increment => id' = id
  | _ => false

/-- An event decrements the counter for a connection. -/
def WorkerEvent.decrements (id : ℕ) : WorkerEvent → Bool
  | .act id' (.decrement _) => id' = id
  | _ => false

/-- The counter is the number of tasks between the two points, it was decremented as often as
incremented for every call that has returned, and it is zero when no connection is served. -/
structure Balanced (history : List WorkerEvent) (s : WorkerState) : Prop where
  counter : s.activeJobs = s.connections.countP Phase.running
  calls : ∀ id phase, s.connections[id]? = some phase → phase.ended →
    history.countP (WorkerEvent.increments id) = history.countP (WorkerEvent.decrements id)
  idle : (∀ phase ∈ s.connections, phase.ended) → s.activeJobs = 0

/-- If an event unpacks a source, this succeeds. -/
def Unpacks (s : WorkerState) (e : WorkerEvent) : Prop :=
  ∀ id io req, e = .act id (.unpack io) → s.connections[id]? = some (.counted req) →
    ∃ dir, req.sourceDir io = .ok dir

/-! ## The counter along runs -/

/-- The sum over a list in which one entry was replaced. -/
theorem sum_map_set {α : Type*} (f : α → ℕ) {l : List α} {i : ℕ} {old : α} (hold : l[i]? = some old)
    (new : α) : ((l.set i new).map f).sum + f old = (l.map f).sum + f new := by
  induction l generalizing i with
  | nil => cases hold
  | cons x l ih =>
    cases i with
    | zero =>
      cases hold
      rw [List.set_cons_zero, List.map_cons, List.map_cons, List.sum_cons, List.sum_cons]
      omega
    | succ i =>
      have hrest := ih hold
      rw [List.set_cons_succ, List.map_cons, List.map_cons, List.sum_cons, List.sum_cons]
      omega

/-- What the connections add to the counter: one for each that is between the two points, and one
for each that left there. -/
theorem sum_held (connections : List Phase) :
    (connections.map Phase.held).sum = connections.countP Phase.running + connections.countP Phase.left := by
  induction connections with
  | nil => rfl
  | cons phase connections ih =>
    rw [List.map_cons, List.sum_cons, ih, List.countP_cons, List.countP_cons, Phase.held]
    cases phase <;> simp only [Phase.running, Phase.left] <;> simp <;> omega

/-- A line that was read does not change the counter yet. -/
theorem WorkerServer.received_idle (server : WorkerServer) (line : String) :
    (if line = "" then Phase.returned (.ok ()) else server.route line).held = 0 ∧
      (if line = "" then Phase.returned (.ok ()) else server.route line).left = false := by
  rw [route]
  repeat' split
  all_goals exact ⟨rfl, rfl⟩

/-- An action changes the counter as it changes what its connection adds. -/
theorem WorkerServer.perform_held {server : WorkerServer} {activeJobs activeJobs' : ℕ}
    {phase phase' : Phase} {action : Action} (id : ℕ)
    (hperform : server.perform activeJobs phase action = some (phase', activeJobs'))
    (hheld : phase.held ≤ activeJobs) :
    activeJobs' + phase.held = activeJobs + phase'.held ∧
      ((WorkerEvent.act id action).increments id).toNat + phase.held =
        ((WorkerEvent.act id action).decrements id).toNat + phase'.held := by
  rw [perform.eq_def] at hperform
  split at hperform
  · cases hperform
    exact ⟨rfl, rfl⟩
  · cases hperform
    rw [(server.received_idle _).1]
    exact ⟨rfl, rfl⟩
  · cases hperform
    simp [Phase.held, Phase.running, Phase.left, WorkerEvent.increments, WorkerEvent.decrements]
  · split at hperform <;> cases hperform <;> exact ⟨rfl, rfl⟩
  · cases hperform
    exact ⟨rfl, rfl⟩
  · cases hperform
    have hpos : 1 ≤ activeJobs := hheld
    refine ⟨?_, ?_⟩
    · change activeJobs - 1 + 1 = activeJobs
      omega
    · simp [Phase.held, Phase.running, Phase.left, WorkerEvent.increments, WorkerEvent.decrements]
  all_goals cases hperform <;> exact ⟨rfl, rfl⟩

/-- A connection leaves between the two points only when its source cannot be unpacked. -/
theorem WorkerServer.perform_left {server : WorkerServer} {activeJobs activeJobs' : ℕ}
    {phase phase' : Phase} {action : Action}
    (hperform : server.perform activeJobs phase action = some (phase', activeJobs'))
    (hleft : phase'.left = true) :
    ∃ req io e, phase = .counted req ∧ action = .unpack io ∧ req.sourceDir io = .error e := by
  rw [perform.eq_def] at hperform
  split at hperform
  · cases hperform
    cases hleft
  · cases hperform
    rw [(server.received_idle _).2] at hleft
    cases hleft
  · cases hperform
    cases hleft
  · rename_i req io
    split at hperform
    · cases hperform
      cases hleft
    · rename_i e he
      exact ⟨req, io, e, rfl, rfl, he⟩
  all_goals
    cases hperform
    try cases hleft

/-- The invariant of the counter: it is what the connections add to it, and so is the difference
between the increments and decrements of each of them. -/
structure Tallied (history : List WorkerEvent) (s : WorkerState) : Prop where
  counter : s.activeJobs = (s.connections.map Phase.held).sum
  calls : ∀ id, history.countP (WorkerEvent.increments id) =
    history.countP (WorkerEvent.decrements id) + ((s.connections[id]?).map Phase.held).getD 0

/-- The counter is kept along every run. -/
theorem tallied_of_exec {server : WorkerServer} {history : List WorkerEvent} {s : WorkerState}
    (hrun : server.machine.exec WorkerServer.start history = some s) : Tallied history s := by
  refine server.machine.history_invariant Tallied ⟨rfl, fun _ => rfl⟩ ?_ hrun
  intro history s e s' htally hstep
  cases e with
  | accept =>
    obtain rfl := Option.some.inj hstep
    refine ⟨?_, fun id => ?_⟩
    · rw [List.map_append, List.sum_append, htally.counter]
      rfl
    · rw [List.countP_append, List.countP_append, htally.calls id]
      by_cases hid : id < s.connections.length
      · rw [List.getElem?_append_left hid]
        rfl
      · have hnew : ((s.connections ++ [Phase.reading])[id]?.map Phase.held).getD 0 = 0 := by
          rw [List.getElem?_append_right (Nat.le_of_not_lt hid)]
          cases id - s.connections.length <;> rfl
        rw [hnew, List.getElem?_eq_none (Nat.le_of_not_lt hid)]
        rfl
  | act id action =>
    simp only [WorkerServer.machine] at hstep
    cases hphase : s.connections[id]? with
    | none =>
      rw [hphase] at hstep
      cases hstep
    | some phase =>
      rw [hphase] at hstep
      cases hperform : server.perform s.activeJobs phase action with
      | none =>
        simp only [hperform] at hstep
        cases hstep
      | some next =>
        obtain ⟨phase', activeJobs'⟩ := next
        simp only [hperform] at hstep
        obtain rfl := Option.some.inj hstep
        have hle : phase.held ≤ s.activeJobs := by
          have hset := sum_map_set Phase.held hphase .reading
          have hzero : Phase.reading.held = 0 := rfl
          have hcounter := htally.counter
          omega
        obtain ⟨hjobs, hcalls⟩ := server.perform_held id hperform hle
        refine ⟨?_, fun id' => ?_⟩
        · have hset := sum_map_set Phase.held hphase phase'
          have hcounter := htally.counter
          dsimp only
          omega
        · have hbefore := htally.calls id'
          rw [List.countP_append, List.countP_append, List.countP_singleton, List.countP_singleton]
          by_cases hid : id' = id
          · subst hid
            have hlt := (List.getElem?_eq_some_iff.mp hphase).1
            rw [hphase] at hbefore
            simp only [List.getElem?_set_self hlt, Option.map_some, Option.getD_some] at hbefore ⊢
            cases hinc : (WorkerEvent.act id' action).increments id' <;>
              cases hdec : (WorkerEvent.act id' action).decrements id' <;>
              simp only [hinc, hdec, Bool.toNat_true, Bool.toNat_false] at hcalls <;> simp <;> omega
          · have hinc : (WorkerEvent.act id action).increments id' = false := by
              cases action <;> simp [WorkerEvent.increments, Ne.symm hid]
            have hdec : (WorkerEvent.act id action).decrements id' = false := by
              cases action <;> simp [WorkerEvent.decrements, Ne.symm hid]
            rw [hinc, hdec, List.getElem?_set_ne (Ne.symm hid)]
            exact hbefore

/-- The counter is right exactly when no connection has left between the two points. -/
theorem Tallied.balanced_iff {history : List WorkerEvent} {s : WorkerState} (htally : Tallied history s) :
    Balanced history s ↔ ∀ phase ∈ s.connections, phase.left = false := by
  have hcounter := htally.counter
  rw [sum_held] at hcounter
  constructor
  · intro hbalanced phase hmem
    have hnone : s.connections.countP Phase.left = 0 := by
      have hexact := hbalanced.counter
      omega
    exact eq_false_of_ne_true (List.countP_eq_zero.mp hnone phase hmem)
  · intro hleft
    have hnone : s.connections.countP Phase.left = 0 :=
      List.countP_eq_zero.mpr fun phase hmem => ne_true_of_eq_false (hleft phase hmem)
    refine ⟨by omega, ?_, ?_⟩
    · intro id phase hphase hended
      have hmem := List.mem_of_getElem? hphase
      have hheld : phase.held = 0 := by
        cases phase with
        | returned result => rfl
        | abandoned e => cases hleft _ hmem
        | _ => cases hended
      rw [htally.calls id, hphase, Option.map_some, Option.getD_some, hheld]
      rfl
    · intro hended
      have hrunning : s.connections.countP Phase.running = 0 := by
        refine List.countP_eq_zero.mpr fun phase hmem => ?_
        have hphase := hended phase hmem
        cases phase with
        | returned result => exact Bool.false_ne_true
        | abandoned e => exact Bool.false_ne_true
        | _ => cases hphase
      omega

/-- The counter is right along a run exactly when every source is unpacked that a counted task
brings. -/
theorem balanced_iff_unpacks (server : WorkerServer) (events : List WorkerEvent) :
    (∀ history, history <+: events → ∀ s, server.machine.exec WorkerServer.start history = some s →
        Balanced history s) ↔
      ∀ history e, history ++ [e] <+: events → ∀ s,
        server.machine.exec WorkerServer.start history = some s → Unpacks s e := by
  refine forall_prefix_iff_steps
    (fun history => ∀ s, server.machine.exec WorkerServer.start history = some s →
      ∀ phase ∈ s.connections, phase.left = false)
    (fun history => ∀ s, server.machine.exec WorkerServer.start history = some s → Balanced history s)
    (fun history e => ∀ s, server.machine.exec WorkerServer.start history = some s → Unpacks s e)
    ?_ ?_ ?_ ?_ events
  · intro s hrun phase hmem
    cases hrun
    cases hmem
  · intro history e hinv hunpacks s' hrun
    obtain ⟨s, hbefore, hstep⟩ := server.machine.exec_snoc.mp hrun
    intro phase' hmem
    cases e with
    | accept =>
      obtain rfl := Option.some.inj hstep
      rcases List.mem_append.mp hmem with hmem | hmem
      · exact hinv s hbefore phase' hmem
      · rw [List.mem_singleton.mp hmem]
        rfl
    | act id action =>
      simp only [WorkerServer.machine] at hstep
      cases hphase : s.connections[id]? with
      | none =>
        rw [hphase] at hstep
        cases hstep
      | some phase =>
        rw [hphase] at hstep
        cases hperform : server.perform s.activeJobs phase action with
        | none =>
          simp only [hperform] at hstep
          cases hstep
        | some next =>
          obtain ⟨changed, activeJobs'⟩ := next
          simp only [hperform] at hstep
          obtain rfl := Option.some.inj hstep
          rcases List.mem_or_eq_of_mem_set hmem with hmem | rfl
          · exact hinv s hbefore phase' hmem
          · cases hleft : phase'.left with
            | false => rfl
            | true =>
              obtain ⟨req, io, e, rfl, rfl, he⟩ := server.perform_left hperform hleft
              obtain ⟨dir, hdir⟩ := hunpacks s hbefore id io req rfl hphase
              rw [he] at hdir
              cases hdir
  · intro history hinv s hrun
    exact (tallied_of_exec hrun).balanced_iff.mpr (hinv s hrun)
  · intro history e hinv hgood s hrun id io req he hphase
    cases hdir : req.sourceDir io with
    | ok dir => exact ⟨dir, rfl⟩
    | error err =>
      subst he
      have hlt := (List.getElem?_eq_some_iff.mp hphase).1
      have hstep : server.machine.step s (.act id (.unpack io)) =
          some ⟨s.activeJobs, s.connections.set id (.abandoned err)⟩ := by
        simp only [WorkerServer.machine, hphase, WorkerServer.perform, hdir]
      have hafter := server.machine.exec_snoc.mpr ⟨s, hrun, hstep⟩
      have hright := (tallied_of_exec hafter).balanced_iff.mp (hgood _ hafter)
      cases hright (.abandoned err) (List.mem_set hlt _)

/-- The text of a request that brings a source in another format. -/
def zipRequest : String :=
  "\x7b\"task_id\":\"build\",\"command\":\"make\",\"args\":[],\"env\":\x7b\x7d,\"cwd\":null," ++
    "\"auth_token\":null,\"timeout_secs\":null,\"source\":\x7b\"root\":\"/src\"," ++
    "\"data_base64\":\"\",\"format\":\"zip\"\x7d\x7d"

/-- A worker that knows this request. -/
def zipWorker : WorkerServer where
  wire := ⟨fun text => if text = zipRequest then some ⟨"build", none, some ⟨"zip", none⟩⟩ else none,
    fun _ => none, fun _ => none⟩
  authToken := none
  workerName := "fish-worker-node"
  maxConcurrency := 8

/-- A connection that sends this request. -/
def zipRun : List WorkerEvent :=
  [.accept, .act 0 (.readLine (.ok (zipRequest ++ "\n"))), .act 0 .increment,
    .act 0 (.unpack ⟨.ok (), .ok "/tmp/fish-source-0", .ok (), .ok ()⟩)]

/-- The call has returned and its task is still counted. -/
theorem not_balanced_zip :
    ∃ s, zipWorker.machine.exec WorkerServer.start zipRun = some s ∧
      (∀ phase ∈ s.connections, phase.ended) ∧ ¬ Balanced zipRun s := by
  have hrun : zipWorker.machine.exec WorkerServer.start zipRun =
      some ⟨1, [.abandoned "unsupported source format: zip"]⟩ := by
    decide +kernel
  refine ⟨_, hrun, ?_, ?_⟩
  · intro phase hmem
    rw [List.mem_singleton.mp hmem]
    rfl
  · intro hbalanced
    cases hbalanced.counter

end Forge.Worker
