import Mathlib.Algebra.Order.Monoid.Defs
import Mathlib.Data.List.Induction
import Mathlib.Data.Option.Basic
import Mathlib.Order.Basic

/-!
# Executable transition systems

A machine is a partial step function on states: `step s e` is the state after event `e`, or
nothing when the event is not enabled in `s`. A run is a list of events that can be
executed one after another, so a statement about all runs covers every order in which the
environment lets the events happen. Invariants are proved by looking at one step, with or
without the events that led to the current state.
-/

namespace Forge.Common

/-- A partial step function on states. -/
structure Machine (σ ε : Type*) where
  step : σ → ε → Option σ

namespace Machine

variable {σ ε : Type*} (m : Machine σ ε)

/-- Execute a list of events. -/
def exec : σ → List ε → Option σ
  | s, [] => some s
  | s, e :: events => (m.step s e).bind fun s' => exec s' events

/-- A run of two parts is the second part after the first. -/
theorem exec_append (s : σ) (events events' : List ε) :
    m.exec s (events ++ events') = (m.exec s events).bind fun s' => m.exec s' events' := by
  induction events generalizing s with
  | nil => rfl
  | cons e events ih =>
    rw [List.cons_append, exec, exec]
    cases m.step s e with
    | none => rfl
    | some s' => exact ih s'

/-- A run that ends with an event is a run followed by one step. -/
theorem exec_snoc {s t : σ} {events : List ε} {e : ε} :
    m.exec s (events ++ [e]) = some t ↔ ∃ s', m.exec s events = some s' ∧ m.step s' e = some t := by
  rw [exec_append, Option.bind_eq_some_iff]
  simp [exec]

/-- A property of the history and the state that holds at the start and is kept by every
step holds after every run. -/
theorem history_invariant (I : List ε → σ → Prop) {s : σ} (hstart : I [] s)
    (hstep : ∀ history s' e s'', I history s' → m.step s' e = some s'' → I (history ++ [e]) s'')
    {events : List ε} {t : σ} (hrun : m.exec s events = some t) : I events t := by
  induction events using List.reverseRecOn generalizing t with
  | nil =>
    have heq : s = t := by simpa [exec] using hrun
    exact heq ▸ hstart
  | append_singleton events e ih =>
    obtain ⟨s', hbefore, hlast⟩ := m.exec_snoc.mp hrun
    exact hstep events s' e t (ih hbefore) hlast

/-- A property of states that holds at the start and is kept by every step holds after
every run. -/
theorem invariant (I : σ → Prop) {s : σ} (hstart : I s)
    (hstep : ∀ s' e s'', I s' → m.step s' e = some s'' → I s'') {events : List ε} {t : σ}
    (hrun : m.exec s events = some t) : I t :=
  m.history_invariant (fun _ => I) hstart (fun _ => hstep) hrun

/-- Every step of a run meets a condition. -/
def Along (Ok : σ → ε → Prop) : σ → List ε → Prop
  | _, [] => True
  | s, e :: events => Ok s e ∧ match m.step s e with
    | none => True
    | some t => Along Ok t events

/-- Whether every step of a run meets a condition. -/
instance decidableAlong (Ok : σ → ε → Prop) [∀ s e, Decidable (Ok s e)] :
    (s : σ) → (events : List ε) → Decidable (m.Along Ok s events)
  | _, [] => inferInstanceAs (Decidable True)
  | s, e :: events =>
    have : Decidable (match m.step s e with
        | none => True
        | some t => m.Along Ok t events) :=
      match m.step s e with
      | none => inferInstanceAs (Decidable True)
      | some t => decidableAlong Ok t events
    inferInstanceAs (Decidable (_ ∧ _))

/-- A property of states that is kept by the steps that meet a condition holds after every run whose
steps meet it. -/
theorem invariant_along (I : σ → Prop) (Ok : σ → ε → Prop)
    (hstep : ∀ s e t, I s → Ok s e → m.step s e = some t → I t) {s t : σ} {events : List ε} (hstart : I s)
    (halong : m.Along Ok s events) (hrun : m.exec s events = some t) : I t := by
  induction events generalizing s with
  | nil => exact Option.some.inj hrun ▸ hstart
  | cons e events ih =>
    obtain ⟨s', hfirst, hrest⟩ := Option.bind_eq_some_iff.mp hrun
    obtain ⟨hok, halong⟩ := halong
    rw [hfirst] at halong
    exact ih (hstep s e s' hstart hok hfirst) halong hrest

/-- Every step of a run meets a condition on its events. -/
theorem along_of_forall {Ok : ε → Prop} {s : σ} {events : List ε}
    (hevents : ∀ e ∈ events, Ok e) : m.Along (fun _ => Ok) s events := by
  induction events generalizing s with
  | nil => trivial
  | cons e events ih =>
    refine ⟨hevents e List.mem_cons_self, ?_⟩
    cases m.step s e with
    | none => trivial
    | some t => exact ih fun e he => hevents e (List.mem_cons_of_mem _ he)

/-! ## Steps that are all enabled -/

/-- A machine without conditions on its steps. -/
def ofStep (f : σ → ε → σ) : Machine σ ε := ⟨fun s e => some (f s e)⟩

/-- A condition on the first step and on those after it. -/
theorem along_ofStep_cons {f : σ → ε → σ} {Ok : σ → ε → Prop} {s : σ} {e : ε} {events : List ε} :
    (ofStep f).Along Ok s (e :: events) ↔ Ok s e ∧ (ofStep f).Along Ok (f s e) events := Iff.rfl

/-- A quantity that no step lets grow is as before, after events that may happen, exactly when every step meets
the condition that keeps it. -/
theorem foldl_eq_iff_along {f : σ → ε → σ} {P : Type*} [PartialOrder P] (quantity : σ → P) (Ok : σ → ε → Prop)
    (I : σ → Prop) (May : ε → Prop)
    (hstep : ∀ s e, I s → May e → I (f s e) ∧ quantity (f s e) ≤ quantity s ∧ (quantity (f s e) = quantity s ↔ Ok s e))
    {s : σ} (hstart : I s) {events : List ε} (hevents : ∀ e ∈ events, May e) :
    I (events.foldl f s) ∧ quantity (events.foldl f s) ≤ quantity s ∧
      (quantity (events.foldl f s) = quantity s ↔ (ofStep f).Along Ok s events) := by
  induction events generalizing s with
  | nil => exact ⟨hstart, le_rfl, iff_of_true rfl trivial⟩
  | cons e events ih =>
    obtain ⟨hkeeps, hle, hiff⟩ := hstep s e hstart (hevents e List.mem_cons_self)
    obtain ⟨hend, hrest, hrestIff⟩ := ih hkeeps fun e he => hevents e (List.mem_cons_of_mem _ he)
    refine ⟨hend, hrest.trans hle, ?_⟩
    rw [along_ofStep_cons, ← hiff, ← hrestIff, List.foldl_cons]
    constructor
    · intro heq
      have hfirst := le_antisymm hle (heq ▸ hrest)
      exact ⟨hfirst, heq.trans hfirst.symm⟩
    · intro h
      exact h.2.trans h.1

end Machine

/-!
## Potentials

What the steps of a run cost together is bounded with a potential of the states: if the potential
falls by at least the cost in each step, then what a run costs is at most the fall of the
potential over the run.
-/

variable {σ ε : Type*}

/-- What the steps of a run cost together. -/
def spent {R : Type*} [AddCommMonoid R] (f : σ → ε → σ) (cost : σ → ε → R) : σ → List ε → R
  | _, [] => 0
  | s, e :: events => cost s e + spent f cost (f s e) events

/-- The steps of a run of two parts meet a condition if those of the parts do. -/
theorem Machine.along_ofStep_append {f : σ → ε → σ} {Ok : σ → ε → Prop} {s : σ} {events events' : List ε} :
    (Machine.ofStep f).Along Ok s (events ++ events') ↔
      (Machine.ofStep f).Along Ok s events ∧ (Machine.ofStep f).Along Ok (events.foldl f s) events' := by
  induction events generalizing s with
  | nil => exact (and_iff_right trivial).symm
  | cons e events ih =>
    rw [List.cons_append, along_ofStep_cons, along_ofStep_cons, ih, and_assoc, List.foldl_cons]

/-- If every step keeps the invariant and the potential falls by at least its cost, then so does a run. -/
theorem potential_add_spent_le {R : Type*} [AddCommMonoid R] [PartialOrder R] [IsOrderedAddMonoid R]
    {f : σ → ε → σ} (potential : σ → R) (cost : σ → ε → R) (I : σ → Prop) (Ok : σ → ε → Prop)
    (hstep : ∀ s e, I s → Ok s e → I (f s e) ∧ potential (f s e) + cost s e ≤ potential s)
    {s : σ} (hstart : I s) {events : List ε} (halong : (Machine.ofStep f).Along Ok s events) :
    I (events.foldl f s) ∧ potential (events.foldl f s) + spent f cost s events ≤ potential s := by
  induction events generalizing s with
  | nil => exact ⟨hstart, (add_zero _).le⟩
  | cons e events ih =>
    obtain ⟨hfirst, halong⟩ := Machine.along_ofStep_cons.mp halong
    obtain ⟨hkeeps, hfall⟩ := hstep s e hstart hfirst
    obtain ⟨hend, hrest⟩ := ih hkeeps halong
    refine ⟨hend, ?_⟩
    calc potential (events.foldl f (f s e)) + (cost s e + spent f cost (f s e) events)
        = potential (events.foldl f (f s e)) + spent f cost (f s e) events + cost s e := by
          rw [add_assoc, add_comm (cost s e)]
      _ ≤ potential (f s e) + cost s e := add_le_add_left hrest _
      _ ≤ potential s := hfall

end Forge.Common
