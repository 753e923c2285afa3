import Mathlib.Data.Nat.Notation
import Mathlib.Data.Option.Basic

/-!
# Programs over atomic operations

A program ends with a value, or does an operation and goes on with the response to it. The
operations of several programs can be interleaved, because a program that has done an
operation is again a program. What operations do is up to whoever runs them.
-/

namespace Forge.Common

/-- A program over operations with responses. -/
inductive Program (Op : Type) (Response : Op → Type) (α : Type) where
  | done (value : α)
  | next (op : Op) (rest : Response op → Program Op Response α)

namespace Program

variable {Op : Type} {Response : Op → Type} {α β ε σ : Type}

/-- One program after another. -/
def bind : Program Op Response α → (α → Program Op Response β) → Program Op Response β
  | done value, f => f value
  | next op rest, f => next op fun response => (rest response).bind f

instance : Monad (Program Op Response) where
  pure := done
  bind := bind

/-- The program of one operation. -/
def perform (op : Op) : Program Op Response (Response op) := next op done

/-- The value of a program that has ended. -/
def value? : Program Op Response α → Option α
  | done value => some value
  | next _ _ => none

/-- A program that has ended is its value. -/
theorem value?_eq_some_iff {p : Program Op Response α} {value : α} :
    p.value? = some value ↔ p = .done value := by
  cases p with
  | done value' => rw [value?, Option.some.injEq, done.injEq]
  | next op rest => exact iff_of_false nofun nofun

/-- Run a program alone. -/
def run (semantics : (op : Op) → σ → Response op × σ) : Program Op Response α → σ → α × σ
  | done value, s => (value, s)
  | next op rest, s => run semantics (rest (semantics op s).1) (semantics op s).2

/-- Running one program after another. -/
theorem run_bind (semantics : (op : Op) → σ → Response op × σ) (p : Program Op Response α)
    (f : α → Program Op Response β) (s : σ) :
    (p >>= f).run semantics s = (f (p.run semantics s).1).run semantics (p.run semantics s).2 := by
  change (p.bind f).run semantics s = _
  induction p generalizing s with
  | done value => rfl
  | next op rest ih => exact ih _ _

/-- Do at most as many operations of a program as the number says. -/
def runFor (semantics : (op : Op) → σ → Response op × σ) (n : ℕ) (p : Program Op Response α) (s : σ) :
    Program Op Response α × σ :=
  match n, p with
  | n + 1, next op rest => runFor semantics n (rest (semantics op s).1) (semantics op s).2
  | _, p => (p, s)

/-- Do operations one after another, until one fails. -/
def sequence : List Op → Program Op (fun _ => Except ε Unit) (Except ε Unit)
  | [] => done (.ok ())
  | op :: ops => next op fun
    | .ok () => sequence ops
    | .error e => done (.error e)

/-- The program of one operation that can fail. -/
def attempt (op : Op) : ExceptT ε (Program Op fun _ => Except ε Unit) Unit := perform op

/-- An operation before others. -/
theorem attempt_bind_sequence (op : Op) (ops : List Op) :
    (attempt op >>= fun _ => sequence ops) = (sequence (op :: ops) : ExceptT ε (Program Op _) Unit) := by
  refine congrArg (next op) (funext fun result => ?_)
  cases result with
  | error e => rfl
  | ok => rfl

/-- The last operation. -/
theorem attempt_eq_sequence (op : Op) :
    attempt op = (sequence [op] : ExceptT ε (Program Op fun _ => Except ε Unit) Unit) := by
  refine congrArg (next op) (funext fun result => ?_)
  cases result with
  | error e => rfl
  | ok => rfl

/-- A sequence does not start with a failure. -/
theorem sequence_ne_error (ops : List Op) (e : ε) : sequence ops ≠ done (.error e) := by
  cases ops with
  | nil => exact nofun
  | cons op ops => exact nofun

/-- A sequence goes on after an operation that succeeds. -/
theorem run_sequence_cons {semantics : Op → σ → Except ε Unit × σ} {op : Op} {s t : σ}
    (hok : semantics op s = (.ok (), t)) (ops : List Op) :
    (sequence (op :: ops)).run semantics s = (sequence ops).run semantics t := by
  rw [sequence, run, hok]

/-- A sequence that is stopped goes on after an operation that succeeds. -/
theorem runFor_sequence_cons {semantics : Op → σ → Except ε Unit × σ} {op : Op} {s t : σ}
    (hok : semantics op s = (.ok (), t)) (n : ℕ) (ops : List Op) :
    (sequence (op :: ops)).runFor semantics (n + 1) s = (sequence ops).runFor semantics n t := by
  rw [sequence, runFor, hok]

/-- What can be left of a program after so many operations, in whatever states they are done. -/
def Remains (semantics : (op : Op) → σ → Response op × σ) :
    ℕ → Program Op Response α → Program Op Response α → Prop
  | 0, p, q => p = q
  | n + 1, p, q => ∃ op rest s, p = next op rest ∧ Remains semantics n (rest (semantics op s).1) q

/-- What is left after the first operation and others. -/
theorem Remains.of_next {semantics : (op : Op) → σ → Response op × σ} {n : ℕ} {op : Op}
    {rest : Response op → Program Op Response α} {q : Program Op Response α}
    (hremains : (next op rest).Remains semantics (n + 1) q) :
    ∃ s, (rest (semantics op s).1).Remains semantics n q := by
  obtain ⟨_, _, s, heq, hremains⟩ := hremains
  cases heq
  exact ⟨s, hremains⟩

/-- What is left after one more operation. -/
theorem Remains.next {semantics : (op : Op) → σ → Response op × σ} {n : ℕ} {p : Program Op Response α}
    {op : Op} {rest : Response op → Program Op Response α} (hremains : p.Remains semantics n (next op rest))
    (s : σ) : p.Remains semantics (n + 1) (rest (semantics op s).1) := by
  induction n generalizing p with
  | zero => exact ⟨op, rest, s, hremains, rfl⟩
  | succ n ih =>
    obtain ⟨op', rest', s', rfl, hremains⟩ := hremains
    exact ⟨op', rest', s', rfl, ih hremains⟩

/-- A property of the state holds before and after every operation of a program that runs alone. -/
def Throughout (semantics : (op : Op) → σ → Response op × σ) (I : σ → Prop) : Program Op Response α → σ → Prop
  | done _, s => I s
  | next op rest, s => I s ∧ Throughout semantics I (rest (semantics op s).1) (semantics op s).2

/-- What holds throughout one program and then throughout another. -/
theorem Throughout.bind {semantics : (op : Op) → σ → Response op × σ} {I : σ → Prop}
    {p : Program Op Response α} {f : α → Program Op Response β} {s : σ} (hfirst : p.Throughout semantics I s)
    (hrest : (f (p.run semantics s).1).Throughout semantics I (p.run semantics s).2) :
    (p >>= f).Throughout semantics I s := by
  change (p.bind f).Throughout semantics I s
  induction p generalizing s with
  | done value => exact hrest
  | next op rest ih => exact ⟨hfirst.1, ih _ hfirst.2 hrest⟩

/-- Wherever a program is stopped, what holds throughout holds. -/
theorem Throughout.runFor {semantics : (op : Op) → σ → Response op × σ} {I : σ → Prop}
    {p : Program Op Response α} {s : σ} (hall : p.Throughout semantics I s) (n : ℕ) :
    I (p.runFor semantics n s).2 := by
  induction n generalizing p s with
  | zero =>
    cases p with
    | done value => exact hall
    | next op rest => exact hall.1
  | succ n ih =>
    cases p with
    | done value => exact hall
    | next op rest => exact ih hall.2

/-- What holds throughout holds in the end. -/
theorem Throughout.run {semantics : (op : Op) → σ → Response op × σ} {I : σ → Prop}
    {p : Program Op Response α} {s : σ} (hall : p.Throughout semantics I s) : I (p.run semantics s).2 := by
  induction p generalizing s with
  | done value => exact hall
  | next op rest ih => exact ih _ hall.2

/-! ## What holds in whatever state the operations are done -/

/-- All operations of a program, whatever they respond, meet a condition, and so does the value it ends with. -/
def Every (Does : Op → Prop) (Ends : α → Prop) : Program Op Response α → Prop
  | done value => Ends value
  | next op rest => Does op ∧ ∀ response, Every Does Ends (rest response)

/-- One program after another. -/
theorem Every.bind {Does : Op → Prop} {Ends : α → Prop} {Ends' : β → Prop} {p : Program Op Response α}
    {f : α → Program Op Response β} (hfirst : p.Every Does Ends)
    (hrest : ∀ value, Ends value → (f value).Every Does Ends') : (p >>= f).Every Does Ends' := by
  change (p.bind f).Every Does Ends'
  induction p with
  | done value => exact hrest value hfirst
  | next op rest ih => exact ⟨hfirst.1, fun response => ih response (hfirst.2 response)⟩

end Program

end Forge.Common
