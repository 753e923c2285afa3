import Forge.Common.Machine
import Forge.Common.Programs

/-!
# Programs on shared state

Several programs do their operations on a state that they share, in any order. Each of them
does its own operations one after another. What a program has left to do is known from the
number of its operations in the history, if it is a sequence of them.
-/

namespace Forge.Common

variable {Op : Type} {Response : Op → Type} {α ε σ : Type}

/-- Programs on a state that they share. -/
structure Interleaved (Op : Type) (Response : Op → Type) (α σ : Type) where
  shared : σ
  programs : List (Program Op Response α)

/-- Every program has ended. -/
def Interleaved.Finished (s : Interleaved Op Response α σ) : Prop := ∀ p ∈ s.programs, p.value?.isSome

/-- All orders of the operations. An event is the number of the program that goes on. -/
def interleaving (semantics : (op : Op) → σ → Response op × σ) : Machine (Interleaved Op Response α σ) ℕ where
  step s i := match s.programs[i]? with
    | some (.next op rest) =>
      some ⟨(semantics op s.shared).2, s.programs.set i (rest (semantics op s.shared).1)⟩
    | _ => none

namespace Interleaved

variable {semantics : (op : Op) → σ → Response op × σ} {s t : Interleaved Op Response α σ} {i : ℕ}

/-- A step is the next operation of a program that has not ended. -/
theorem step_eq_some_iff :
    (interleaving semantics).step s i = some t ↔ ∃ op rest, s.programs[i]? = some (.next op rest) ∧
      t = ⟨(semantics op s.shared).2, s.programs.set i (rest (semantics op s.shared).1)⟩ := by
  simp only [interleaving]
  cases hprogram : s.programs[i]? with
  | none => exact iff_of_false nofun fun h => by obtain ⟨_, _, h, _⟩ := h; cases h
  | some p =>
    cases p with
    | done value => exact iff_of_false nofun fun h => by obtain ⟨_, _, h, _⟩ := h; cases h
    | next op rest =>
      constructor
      · intro h
        exact ⟨op, rest, rfl, (Option.some.inj h).symm⟩
      · intro h
        obtain ⟨_, _, hsame, rfl⟩ := h
        cases hsame
        rfl

/-- A step leaves the other programs alone. -/
theorem step_other {j : ℕ} (hstep : (interleaving semantics).step s i = some t) (hother : j ≠ i) :
    t.programs[j]? = s.programs[j]? := by
  obtain ⟨op, rest, _, rfl⟩ := step_eq_some_iff.mp hstep
  exact List.getElem?_set_ne hother.symm

/-- The number of programs stays the same. -/
theorem length_of_exec {events : List ℕ} (hrun : (interleaving semantics).exec s events = some t) :
    t.programs.length = s.programs.length := by
  refine (interleaving semantics).invariant (fun t => t.programs.length = s.programs.length) rfl ?_ hrun
  intro s' j s'' hinv hstep
  obtain ⟨op, rest, _, rfl⟩ := step_eq_some_iff.mp hstep
  rw [← hinv]
  exact List.length_set

/-- Only programs take steps. -/
theorem lt_of_mem_history {history : List ℕ} (hrun : (interleaving semantics).exec s history = some t)
    (hmem : i ∈ history) : i < s.programs.length := by
  have hall : ∀ i ∈ history, i < s.programs.length := by
    refine (interleaving semantics).history_invariant
      (fun history t => t.programs.length = s.programs.length ∧ ∀ i ∈ history, i < s.programs.length)
      ⟨rfl, nofun⟩ ?_ hrun |>.2
    intro history s' j s'' hinv hstep
    obtain ⟨op, rest, hnext, rfl⟩ := step_eq_some_iff.mp hstep
    have hlt := (List.getElem?_eq_some_iff.mp hnext).1
    rw [hinv.1] at hlt
    refine ⟨List.length_set.trans hinv.1, fun i hi => ?_⟩
    rcases List.mem_append.mp hi with hi | hi
    · exact hinv.2 i hi
    · rw [List.mem_singleton.mp hi]
      exact hlt
  exact hall i hmem

/-- A program that has ended stays as it is in a step. -/
theorem done_of_step {value : α} {j : ℕ} (hstep : (interleaving semantics).step s j = some t)
    (hdone : s.programs[i]? = some (.done value)) : t.programs[i]? = some (.done value) := by
  by_cases hj : i = j
  · obtain ⟨op, rest, hnext, _⟩ := step_eq_some_iff.mp hstep
    subst hj
    rw [hdone] at hnext
    cases hnext
  · rw [step_other hstep hj]
    exact hdone

/-- A program that has ended stays as it is. -/
theorem done_of_exec {value : α} {events : List ℕ} (hrun : (interleaving semantics).exec s events = some t)
    (hdone : s.programs[i]? = some (.done value)) : t.programs[i]? = some (.done value) := by
  exact (interleaving semantics).invariant (fun s => s.programs[i]? = some (.done value)) hdone
    (fun _ _ _ hinv hstep => done_of_step hstep hinv) hrun

/-- As much of a program is left as it did not do in the history. -/
theorem remains_of_exec {p : Program Op Response α} {history : List ℕ} (hstart : s.programs[i]? = some p)
    (hrun : (interleaving semantics).exec s history = some t) :
    ∃ q, t.programs[i]? = some q ∧ p.Remains semantics (history.count i) q := by
  refine (interleaving semantics).history_invariant
    (fun history t => ∃ q, t.programs[i]? = some q ∧ p.Remains semantics (history.count i) q)
    ⟨p, hstart, rfl⟩ ?_ hrun
  intro history s' j s'' hinv hstep
  obtain ⟨q, hprogram, hremains⟩ := hinv
  by_cases hj : i = j
  · subst hj
    obtain ⟨op, rest, hnext, rfl⟩ := step_eq_some_iff.mp hstep
    rw [hprogram, Option.some.injEq] at hnext
    subst hnext
    have hlt := (List.getElem?_eq_some_iff.mp hprogram).1
    rw [List.count_append, List.count_singleton_self]
    exact ⟨_, List.getElem?_set_self hlt, hremains.next s'.shared⟩
  · have hcount : (history ++ [j]).count i = history.count i := by
      rw [List.count_append, List.count_singleton, if_neg (by simpa using Ne.symm hj), Nat.add_zero]
    rw [hcount, step_other hstep hj]
    exact ⟨q, hprogram, hremains⟩

/-- When every program has a value, all have ended. -/
theorem finished_of_values {values : List α} (hvalues : s.programs.map Program.value? = values.map some) :
    s.Finished := by
  intro p hmem
  have hvalue := List.mem_map_of_mem (f := Program.value?) hmem
  rw [hvalues] at hvalue
  obtain ⟨value, _, hvalue⟩ := List.mem_map.mp hvalue
  rw [← hvalue]
  rfl

end Interleaved

/-! ## Sequences of operations -/

namespace Interleaved

variable {semantics : Op → σ → Except ε Unit × σ}
  {s t : Interleaved Op (fun _ => Except ε Unit) (Except ε Unit) σ} {i : ℕ}

/-- A step of a sequence is its next operation. If that fails, so does the sequence. -/
theorem step_sequence {ops : List Op} (hprogram : s.programs[i]? = some (.sequence ops))
    (hstep : (interleaving semantics).step s i = some t) :
    ∃ op rest, ops = op :: rest ∧ t.shared = (semantics op s.shared).2 ∧
      (((semantics op s.shared).1 = .ok () ∧ t.programs[i]? = some (.sequence rest)) ∨
        ∃ e, (semantics op s.shared).1 = .error e ∧ t.programs[i]? = some (.done (.error e))) := by
  obtain ⟨op, rest, hnext, rfl⟩ := step_eq_some_iff.mp hstep
  have hlt := (List.getElem?_eq_some_iff.mp hnext).1
  rw [hprogram] at hnext
  cases ops with
  | nil => cases hnext
  | cons op' ops =>
    cases hnext
    refine ⟨op, ops, rfl, rfl, ?_⟩
    simp only [List.getElem?_set_self hlt]
    cases (semantics op s.shared).1 with
    | ok => exact Or.inl ⟨rfl, rfl⟩
    | error e => exact Or.inr ⟨e, rfl, rfl⟩

/-- A sequence has failed, or as much of it is left as the history did not do. -/
theorem sequence_of_exec {ops : List Op} {history : List ℕ}
    (hstart : s.programs[i]? = some (.sequence ops))
    (hrun : (interleaving semantics).exec s history = some t) :
    (∃ e, t.programs[i]? = some (.done (.error e))) ∨
      (history.count i ≤ ops.length ∧ t.programs[i]? = some (.sequence (ops.drop (history.count i)))) := by
  refine (interleaving semantics).history_invariant
    (fun history t => (∃ e, t.programs[i]? = some (.done (.error e))) ∨
      (history.count i ≤ ops.length ∧ t.programs[i]? = some (.sequence (ops.drop (history.count i)))))
    (Or.inr ⟨Nat.zero_le _, hstart⟩) ?_ hrun
  intro history s' j s'' hinv hstep
  by_cases hj : i = j
  · subst hj
    rcases hinv with ⟨e, herror⟩ | ⟨hcount, hprogram⟩
    · obtain ⟨op, rest, hnext, _⟩ := step_eq_some_iff.mp hstep
      rw [herror] at hnext
      cases hnext
    · obtain ⟨op, rest, hleft, _, hnext⟩ := step_sequence hprogram hstep
      rcases hnext with ⟨_, hnext⟩ | ⟨e, _, hnext⟩
      · refine Or.inr ?_
        have hlength := congrArg List.length hleft
        rw [List.length_drop, List.length_cons] at hlength
        have hdrop := congrArg List.tail hleft
        rw [List.tail_drop, List.tail_cons] at hdrop
        rw [List.count_append, List.count_singleton_self, hdrop]
        exact ⟨by omega, hnext⟩
      · exact Or.inl ⟨e, hnext⟩
  · have hcount : (history ++ [j]).count i = history.count i := by
      rw [List.count_append, List.count_singleton, if_neg (by simpa using Ne.symm hj), Nat.add_zero]
    rw [step_other hstep hj, hcount]
    exact hinv

end Interleaved

end Forge.Common
