import Forge.Common.Machine
import Forge.Executor.Task

/-!
# Racing executors

A task is given to two executors at once, each on a thread of its own. The remote one waits a while
first. A thread that has a result sends it, unless it sees that the race is over; the result that is
received first is the one of the race. Whether the race is over is read without ordering, so a thread
may still see the value from before.
-/

namespace Forge.Schedule

open Forge.Common Forge.Executor

/-- The executors of a race. -/
inductive Racer where
  | onLocal
  | onRemote
  deriving DecidableEq

/-- What a thread of a race is about to do. -/
inductive RacerPhase where
  | sleeping
  | checking
  | executing
  | loading (result : ExecResult)
  | sending (result : ExecResult)
  | finished

/-- What a thread does next when it has executed. One that panicked is gone. -/
def RacerPhase.afterExecute : ExecResult → RacerPhase
  | .panic _ => .finished
  | .ok outcome => .loading (.ok outcome)
  | .err error => .loading (.err error)

/-- What the caller is about to do. -/
inductive CallerPhase where
  | receiving
  | received (result : ExecResult)
  | returned (result : ExecResult)

/-- A race: the results that were sent and not yet received, whether it is over, what everyone is about to
do, and what the executors came to, the last one first. -/
structure Race where
  channel : List ExecResult
  cancelled : Bool
  phase : Racer → RacerPhase
  caller : CallerPhase
  executions : List (Racer × ExecResult)

/-- Two executors, and how long the remote one waits, in nanoseconds. -/
structure DynamicRacingExecutor (Env : Type*) where
  localExecutor : TaskExecutor Env
  remoteExecutor : TaskExecutor Env
  remoteGracePeriod : ℕ

/-- What happens in a race. Where a thread reads whether the race is over, it is said what it sees. -/
inductive RaceEvent (Env : Type*) where
  | wake
  | check (sees : Bool)
  | execute (racer : Racer) (env : Env)
  | load (racer : Racer) (sees : Bool)
  | send (racer : Racer)
  | receive
  | disconnect
  | cancel

namespace Race

/-- A thread goes on. -/
def advance (s : Race) (racer : Racer) (phase : RacerPhase) : Race :=
  { s with phase := Function.update s.phase racer phase }

/-- A thread has executed the task. -/
def executed (s : Race) (racer : Racer) (result : ExecResult) : Race :=
  { s.advance racer (.afterExecute result) with executions := (racer, result) :: s.executions }

/-- The thread that goes on. -/
@[simp] theorem advance_self (s : Race) (racer : Racer) (phase : RacerPhase) : (s.advance racer phase).phase racer = phase :=
  Function.update_self ..

/-- The other thread stays where it is. -/
theorem advance_of_ne (s : Race) {racer other : Racer} (h : other ≠ racer) (phase : RacerPhase) :
    (s.advance racer phase).phase other = s.phase other := Function.update_of_ne h ..

/-- Put a result into the channel. -/
def push (s : Race) (result : ExecResult) : Race := { s with channel := s.channel ++ [result] }

end Race

namespace DynamicRacingExecutor

variable {Env : Type*} (executor : DynamicRacingExecutor Env) (task : Task)

/-- The executor of a thread. -/
def executorOf : Racer → TaskExecutor Env
  | .onLocal => executor.localExecutor
  | .onRemote => executor.remoteExecutor

/-- The result when no thread is left that could send one. -/
def noOutcome : ExecResult :=
  .err ("failed to spawn `" ++ task.label ++ "`: Dynamic racing executors terminated without outcome")

/-- A race at its start. -/
def start : Race where
  channel := []
  cancelled := false
  phase := fun
    | .onLocal => .executing
    | .onRemote => if executor.remoteGracePeriod = 0 then .checking else .sleeping
  caller := .receiving
  executions := []

/-- One event of a race. -/
def step (s : Race) : RaceEvent Env → Option Race
  | .wake =>
    match s.phase .onRemote with
    | .sleeping => some (s.advance .onRemote .checking)
    | _ => none
  | .check sees =>
    match s.phase .onRemote with
    | .checking =>
      if sees && !s.cancelled then none
      else some (s.advance .onRemote (if sees then .finished else .executing))
    | _ => none
  | .execute racer env =>
    match s.phase racer with
    | .executing => some (s.executed racer ((executor.executorOf racer).execute task env))
    | _ => none
  | .load racer sees =>
    match s.phase racer with
    | .loading result =>
      if sees && !s.cancelled then none
      else some (s.advance racer (if sees then .finished else .sending result))
    | _ => none
  | .send racer =>
    match s.phase racer with
    | .sending result => some ((s.push result).advance racer .finished)
    | _ => none
  | .receive =>
    match s.caller, s.channel with
    | .receiving, result :: channel => some { s with channel := channel, caller := .received result }
    | _, _ => none
  | .disconnect =>
    match s.caller, s.channel, s.phase .onLocal, s.phase .onRemote with
    | .receiving, [], .finished, .finished => some { s with caller := .returned (noOutcome task) }
    | _, _, _, _ => none
  | .cancel =>
    match s.caller with
    | .received result => some { s with cancelled := true, caller := .returned result }
    | _ => none

/-- The threads of a race and its caller as a machine. -/
def executeRace : Machine Race (RaceEvent Env) := ⟨executor.step task⟩

variable {executor task} {s s' : Race}

/-! ## What is left to do -/

/-- How many steps a thread has left at most. -/
def RacerPhase.left : RacerPhase → ℕ
  | .sleeping => 5
  | .checking => 4
  | .executing => 3
  | .loading _ => 2
  | .sending _ => 1
  | .finished => 0

/-- How many steps the caller has left at most. -/
def CallerPhase.left : CallerPhase → ℕ
  | .receiving => 2
  | .received _ => 1
  | .returned _ => 0

/-- How many steps a race has left at most. -/
def stepsLeft (s : Race) : ℕ := RacerPhase.left (s.phase .onLocal) + RacerPhase.left (s.phase .onRemote) + CallerPhase.left s.caller

/-- A thread that goes on has fewer steps left. -/
theorem stepsLeft_advance {racer : Racer} {phase : RacerPhase} (h : RacerPhase.left phase < RacerPhase.left (s.phase racer)) :
    stepsLeft (s.advance racer phase) < stepsLeft s := by
  cases racer with
  | onLocal =>
    rw [stepsLeft, Race.advance_self, Race.advance_of_ne s (by decide)]
    exact Nat.add_lt_add_right (Nat.add_lt_add_right h _) _
  | onRemote =>
    rw [stepsLeft, Race.advance_self, Race.advance_of_ne s (by decide)]
    exact Nat.add_lt_add_right (Nat.add_lt_add_left h _) _

/-! ## Invariant -/

/-- An executor answered. -/
def Answered (s : Race) (result : ExecResult) : Prop :=
  (∃ racer, (racer, result) ∈ s.executions) ∧ ∀ message, result ≠ .panic message

/-- An executor panicked. -/
def Panicked (s : Race) (racer : Racer) : Prop := ∃ message, (racer, .panic message) ∈ s.executions

/-- What is known of a thread: whether it has executed, and with what result. As long as nothing was received
a thread that is gone has panicked, or its result is in the channel. -/
def ThreadInv (s : Race) (racer : Racer) : RacerPhase → Prop
  | .sleeping | .checking => racer = .onRemote ∧ ∀ result, (racer, result) ∉ s.executions
  | .executing => ∀ result, (racer, result) ∉ s.executions
  | .loading result | .sending result => Answered s result
  | .finished => s.cancelled = false → s.caller = .receiving → Panicked s racer ∨ s.channel ≠ []

/-- What is known of the caller. Before it returns, no thread sees that the race is over. -/
def CallerInv (task : Task) (s : Race) : Prop :=
  match s.caller with
  | .receiving => s.cancelled = false
  | .received result => s.cancelled = false ∧ Answered s result
  | .returned result => Answered s result ∨ result = noOutcome task ∧ ∀ racer, Panicked s racer

/-- Every executor executed once at most, every thread and the caller are where they should be, and every
result in the channel is an answer. -/
structure RaceInv (task : Task) (s : Race) : Prop where
  once : (s.executions.map Prod.fst).Nodup
  threads : ∀ racer, ThreadInv s racer (s.phase racer)
  sent : ∀ result ∈ s.channel, Answered s result
  caller : CallerInv task s

/-- What is known of a thread stays known when others execute, and as long as the caller receives. -/
theorem ThreadInv.mono {racer : Racer} {phase : RacerPhase} (h : ThreadInv s racer phase)
    (hnew : ∀ result, (racer, result) ∈ s'.executions → (racer, result) ∈ s.executions)
    (hkept : s.executions ⊆ s'.executions)
    (hreceiving : s'.cancelled = false → s'.caller = .receiving →
      s.cancelled = false ∧ s.caller = .receiving ∧ (s.channel ≠ [] → s'.channel ≠ [])) :
    ThreadInv s' racer phase := by
  cases phase with
  | sleeping | checking => exact ⟨h.1, fun result hmem => h.2 result (hnew result hmem)⟩
  | executing => exact fun result hmem => h result (hnew result hmem)
  | loading | sending =>
    obtain ⟨⟨other, hmem⟩, hresult⟩ := h
    exact ⟨⟨other, hkept hmem⟩, hresult⟩
  | finished =>
    intro hcancelled hcaller
    obtain ⟨hbefore, hcallerBefore, hchannel⟩ := hreceiving hcancelled hcaller
    rcases h hbefore hcallerBefore with ⟨message, hmem⟩ | hsent
    · exact .inl ⟨message, hkept hmem⟩
    · exact .inr (hchannel hsent)

/-- An answer stays one. -/
theorem Answered.mono {result : ExecResult} (h : Answered s result) (hkept : s.executions ⊆ s'.executions) :
    Answered s' result := by
  obtain ⟨⟨racer, hmem⟩, hresult⟩ := h
  exact ⟨⟨racer, hkept hmem⟩, hresult⟩

namespace RaceInv

/-- A race starts in order. -/
theorem start : RaceInv task executor.start where
  once := List.nodup_nil
  threads := by
    intro racer
    cases racer with
    | onLocal => exact fun _ => List.not_mem_nil
    | onRemote =>
      simp only [DynamicRacingExecutor.start]
      split
      · exact ⟨rfl, fun _ => List.not_mem_nil⟩
      · exact ⟨rfl, fun _ => List.not_mem_nil⟩
  sent := fun _ hresult => absurd hresult List.not_mem_nil
  caller := rfl

/-- A thread goes on to a phase that it may be in. -/
theorem advance (h : RaceInv task s) {racer : Racer} {phase : RacerPhase} (hphase : ThreadInv s racer phase) :
    RaceInv task (s.advance racer phase) where
  once := h.once
  threads := by
    intro other
    suffices hbefore : ThreadInv s other ((s.advance racer phase).phase other) from
      hbefore.mono (fun _ => id) (List.Subset.refl _) fun hcancelled hcaller => ⟨hcancelled, hcaller, id⟩
    by_cases hother : other = racer
    · rw [hother, Race.advance_self]
      exact hphase
    · rw [Race.advance_of_ne s hother]
      exact h.threads other
  sent := h.sent
  caller := h.caller

/-- A thread executes. -/
theorem executed (h : RaceInv task s) {racer : Racer} (hphase : s.phase racer = .executing) (result : ExecResult) :
    RaceInv task (s.executed racer result) := by
  have hfresh : ∀ other, (racer, other) ∉ s.executions := by
    have hthread := h.threads racer
    rw [hphase] at hthread
    exact hthread
  have hkept : s.executions ⊆ (s.executed racer result).executions := List.subset_cons_self _ _
  constructor
  · refine List.nodup_cons.mpr ⟨fun hmem => ?_, h.once⟩
    obtain ⟨⟨_, other⟩, hbefore, rfl⟩ := List.mem_map.mp hmem
    exact hfresh other hbefore
  · intro other
    rw [Race.executed]
    by_cases hother : other = racer
    · rw [hother, Race.advance_self]
      cases result with
      | panic message => exact fun _ _ => .inl ⟨message, List.mem_cons_self⟩
      | ok outcome => exact ⟨⟨racer, List.mem_cons_self⟩, fun _ => ExecResult.noConfusion⟩
      | err error => exact ⟨⟨racer, List.mem_cons_self⟩, fun _ => ExecResult.noConfusion⟩
    · rw [Race.advance_of_ne s hother]
      refine (h.threads other).mono ?_ hkept fun hcancelled hcaller => ⟨hcancelled, hcaller, id⟩
      intro result' hmem
      rcases List.mem_cons.mp hmem with heq | hmem
      · exact absurd (Prod.mk.inj heq).1 hother
      · exact hmem
  · exact fun result' hresult' => (h.sent result' hresult').mono hkept
  · have hcaller := h.caller
    unfold CallerInv at hcaller ⊢
    rw [show (s.executed racer result).caller = s.caller from rfl]
    split
    · rename_i hreceiving
      rw [hreceiving] at hcaller
      exact hcaller
    · rename_i hreceived
      rw [hreceived] at hcaller
      exact ⟨hcaller.1, hcaller.2.mono hkept⟩
    · rename_i hreturned
      rw [hreturned] at hcaller
      refine hcaller.imp (·.mono hkept) fun ⟨hresult, hpanicked⟩ => ⟨hresult, fun other => ?_⟩
      obtain ⟨message, hmem⟩ := hpanicked other
      exact ⟨message, hkept hmem⟩

/-- An answer is sent. -/
theorem push (h : RaceInv task s) {result : ExecResult} (hanswered : Answered s result) : RaceInv task (s.push result) where
  once := h.once
  threads := fun racer => (h.threads racer).mono (fun _ => id) (List.Subset.refl _)
    fun hcancelled hcaller => ⟨hcancelled, hcaller, fun _ => List.append_ne_nil_of_right_ne_nil _ (List.cons_ne_nil _ _)⟩
  sent := by
    intro other hother
    rcases List.mem_append.mp hother with hbefore | hnew
    · exact h.sent other hbefore
    · exact List.mem_singleton.mp hnew ▸ hanswered
  caller := h.caller

/-- The caller goes on from receiving. -/
theorem onCaller (h : RaceInv task s) (hexecutions : s'.executions = s.executions) (hphase : s'.phase = s.phase)
    (hchannel : ∀ result ∈ s'.channel, result ∈ s.channel) (hreceiving : s'.caller ≠ .receiving)
    (hcaller : CallerInv task s') : RaceInv task s' where
  once := hexecutions ▸ h.once
  threads := by
    intro racer
    rw [hphase]
    exact (h.threads racer).mono (fun _ => (hexecutions ▸ id)) (hexecutions ▸ List.Subset.refl _)
      fun _ hcaller => absurd hcaller hreceiving
  sent := fun result hresult => (h.sent result (hchannel result hresult)).mono (hexecutions ▸ List.Subset.refl _)
  caller := hcaller

/-- Every event keeps a race in order and is one step less to do. -/
theorem step (h : RaceInv task s) {e : RaceEvent Env} (hstep : (executeRace executor task).step s e = some s') :
    RaceInv task s' ∧ stepsLeft s' < stepsLeft s := by
  have hcaller := h.caller
  unfold CallerInv at hcaller
  cases e with
  | wake =>
    simp only [executeRace, DynamicRacingExecutor.step] at hstep
    split at hstep
    · rename_i hphase
      have hthread := h.threads .onRemote
      rw [hphase] at hthread
      exact Option.some.inj hstep ▸ ⟨h.advance hthread, stepsLeft_advance (by simp [hphase, RacerPhase.left])⟩
    · cases hstep
  | check sees =>
    simp only [executeRace, DynamicRacingExecutor.step] at hstep
    split at hstep
    · rename_i hphase
      have hthread := h.threads .onRemote
      rw [hphase] at hthread
      obtain ⟨hsees, hs⟩ := Option.ite_none_left_eq_some.mp hstep
      obtain rfl := Option.some.inj hs
      cases sees with
      | false => exact ⟨h.advance hthread.2, stepsLeft_advance (by simp [hphase, RacerPhase.left])⟩
      | true =>
        have hover : ThreadInv s .onRemote .finished := fun hcancelled _ => absurd hcancelled (by simpa using hsees)
        exact ⟨h.advance hover, stepsLeft_advance (by simp [hphase, RacerPhase.left])⟩
    · cases hstep
  | execute racer env =>
    simp only [executeRace, DynamicRacingExecutor.step] at hstep
    split at hstep
    · rename_i hphase
      obtain rfl := Option.some.inj hstep
      refine ⟨h.executed hphase _, stepsLeft_advance ?_⟩
      cases (executor.executorOf racer).execute task env <;> simp [hphase, RacerPhase.left, RacerPhase.afterExecute]
    · cases hstep
  | load racer sees =>
    simp only [executeRace, DynamicRacingExecutor.step] at hstep
    split at hstep
    · rename_i result hphase
      have hthread := h.threads racer
      rw [hphase] at hthread
      obtain ⟨hsees, hs⟩ := Option.ite_none_left_eq_some.mp hstep
      obtain rfl := Option.some.inj hs
      cases sees with
      | false => exact ⟨h.advance hthread, stepsLeft_advance (by simp [hphase, RacerPhase.left])⟩
      | true =>
        have hover : ThreadInv s racer .finished := fun hcancelled _ => absurd hcancelled (by simpa using hsees)
        exact ⟨h.advance hover, stepsLeft_advance (by simp [hphase, RacerPhase.left])⟩
    · cases hstep
  | send racer =>
    simp only [executeRace, DynamicRacingExecutor.step] at hstep
    split at hstep
    · rename_i result hphase
      have hthread := h.threads racer
      rw [hphase] at hthread
      have hsent : ThreadInv (s.push result) racer .finished := fun _ _ =>
        .inr (List.append_ne_nil_of_right_ne_nil _ (List.cons_ne_nil _ _))
      obtain rfl := Option.some.inj hstep
      have hleft : stepsLeft ((s.push result).advance racer .finished) < stepsLeft (s.push result) :=
        stepsLeft_advance (by simp [Race.push, hphase, RacerPhase.left])
      exact ⟨(h.push hthread).advance hsent, hleft⟩
    · cases hstep
  | receive =>
    simp only [executeRace, DynamicRacingExecutor.step] at hstep
    split at hstep
    · rename_i result channel hreceiving hchannel
      rw [hreceiving] at hcaller
      have hanswered := h.sent result (hchannel ▸ List.mem_cons_self)
      obtain rfl := Option.some.inj hstep
      refine ⟨h.onCaller rfl rfl (fun other hother => hchannel ▸ List.mem_cons_of_mem _ hother) nofun
        ⟨hcaller, hanswered⟩, ?_⟩
      simp [stepsLeft, hreceiving, CallerPhase.left]
    · cases hstep
  | disconnect =>
    simp only [executeRace, DynamicRacingExecutor.step] at hstep
    split at hstep
    · rename_i hreceiving hchannel hlocal hremote
      rw [hreceiving] at hcaller
      have hpanicked : ∀ racer, s.phase racer = .finished → Panicked s racer := by
        intro racer hphase
        have hthread := h.threads racer
        rw [hphase] at hthread
        exact (hthread hcaller hreceiving).resolve_right fun hsent => hsent hchannel
      obtain rfl := Option.some.inj hstep
      refine ⟨h.onCaller rfl rfl (fun _ => id) nofun (.inr ⟨rfl, fun racer => ?_⟩), ?_⟩
      · cases racer with
        | onLocal => exact hpanicked .onLocal hlocal
        | onRemote => exact hpanicked .onRemote hremote
      · simp [stepsLeft, hreceiving, CallerPhase.left]
    · cases hstep
  | cancel =>
    simp only [executeRace, DynamicRacingExecutor.step] at hstep
    split at hstep
    · rename_i result hreceived
      rw [hreceived] at hcaller
      obtain rfl := Option.some.inj hstep
      exact ⟨h.onCaller rfl rfl (fun _ => id) nofun (.inl hcaller.2), by simp [stepsLeft, hreceived, CallerPhase.left]⟩
    · cases hstep

end RaceInv

/-- After any events everything is in order, and there were no more of them than there was to do. -/
theorem run_inv {events : List (RaceEvent Env)} (hrun : (executeRace executor task).exec executor.start events = some s) :
    RaceInv task s ∧ events.length + stepsLeft s ≤ 10 := by
  refine (executeRace executor task).history_invariant
    (fun history s => RaceInv task s ∧ history.length + stepsLeft s ≤ 10) ⟨.start, ?_⟩ ?_ hrun
  · rw [stepsLeft, DynamicRacingExecutor.start]
    dsimp only
    split <;> simp [RacerPhase.left, CallerPhase.left]
  · intro history s₁ e s₂ ⟨hinv, hlength⟩ hstep
    obtain ⟨hinv', hless⟩ := hinv.step hstep
    refine ⟨hinv', ?_⟩
    rw [List.length_append, List.length_singleton]
    omega

/-- A thread that is not gone can go on. -/
theorem RaceInv.exists_step (h : RaceInv task s) {racer : Racer} (hgone : s.phase racer ≠ .finished) (env : Env) :
    ∃ e s', (executeRace executor task).step s e = some s' := by
  have hthread := h.threads racer
  cases hphase : s.phase racer with
  | sleeping =>
    rw [hphase] at hthread
    rw [hthread.1] at hphase
    exact ⟨.wake, _, by simp only [executeRace, DynamicRacingExecutor.step, hphase]; rfl⟩
  | checking =>
    rw [hphase] at hthread
    rw [hthread.1] at hphase
    exact ⟨.check false, _, by simp only [executeRace, DynamicRacingExecutor.step, hphase]; rfl⟩
  | executing => exact ⟨.execute racer env, _, by simp only [executeRace, DynamicRacingExecutor.step, hphase]; rfl⟩
  | loading result => exact ⟨.load racer false, _, by simp only [executeRace, DynamicRacingExecutor.step, hphase]; rfl⟩
  | sending result => exact ⟨.send racer, _, by simp only [executeRace, DynamicRacingExecutor.step, hphase]; rfl⟩
  | finished => exact absurd hphase hgone

/-- A race that cannot go on has returned. -/
theorem RaceInv.returned (h : RaceInv task s) (env : Env)
    (hstuck : ∀ e, (executeRace executor task).step s e = none) : ∃ result, s.caller = .returned result := by
  cases hcaller : s.caller with
  | returned result => exact ⟨result, rfl⟩
  | received result =>
    have hcancel := hstuck .cancel
    simp [executeRace, DynamicRacingExecutor.step, hcaller] at hcancel
  | receiving =>
    cases hchannel : s.channel with
    | cons result channel =>
      have hreceive := hstuck .receive
      simp [executeRace, DynamicRacingExecutor.step, hcaller, hchannel] at hreceive
    | nil =>
      have hgone : ∀ racer, s.phase racer = .finished := by
        intro racer
        by_contra hgoes
        obtain ⟨e, s', hstep⟩ : ∃ e s', (executeRace executor task).step s e = some s' := h.exists_step hgoes env
        rw [hstuck e] at hstep
        cases hstep
      have hdisconnect := hstuck .disconnect
      simp [executeRace, DynamicRacingExecutor.step, hcaller, hchannel, hgone] at hdisconnect

/-- In every order of events, a race ends after ten of them at most, each executor has executed once at most,
and what is returned is the answer of one of them, or that there is none when both have panicked. A race
that cannot go on has returned. -/
theorem executeRace_returns {events : List (RaceEvent Env)} (env : Env)
    (hrun : (executeRace executor task).exec executor.start events = some s) :
    events.length ≤ 10 ∧ (s.executions.map Prod.fst).Nodup ∧
      (∀ result, s.caller = .returned result →
        Answered s result ∨ result = noOutcome task ∧ ∀ racer, Panicked s racer) ∧
      ((∀ e, (executeRace executor task).step s e = none) → ∃ result, s.caller = .returned result) := by
  obtain ⟨hinv, hlength⟩ := run_inv hrun
  refine ⟨by omega, hinv.once, ?_, hinv.returned env⟩
  intro result hreturned
  have hcaller := hinv.caller
  rw [CallerInv, hreturned] at hcaller
  exact hcaller

/-- The remote executor panics, and the result of the local one is returned. -/
theorem executeRace_returns_local :
    let executor : DynamicRacingExecutor Unit := ⟨⟨fun _ _ => .err "no"⟩, ⟨fun _ _ => .panic none⟩, 0⟩
    let events : List (RaceEvent Unit) :=
      [.check false, .execute .onRemote (), .execute .onLocal (), .load .onLocal false, .send .onLocal, .receive, .cancel]
    ∃ s, (executeRace executor (.new "t" "" (.new "echo"))).exec executor.start events = some s ∧
      s.caller = .returned (.err "no") ∧ Answered s (.err "no") := by
  intro executor events
  obtain ⟨s, hrun, hreturned⟩ : ∃ s, (executeRace executor (.new "t" "" (.new "echo"))).exec executor.start events = some s ∧
      s.caller = .returned (.err "no") := ⟨_, rfl, rfl⟩
  have hanswer := (executeRace_returns () hrun).2.2.1 _ hreturned
  exact ⟨s, hrun, hreturned, hanswer.resolve_right fun hnone => absurd hnone.1 (by decide)⟩

end DynamicRacingExecutor

end Forge.Schedule
