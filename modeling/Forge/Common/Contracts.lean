import Forge.Common.Interleaving
import Mathlib.Order.Basic
import Mathlib.Order.CompletePartialOrder

/-!
# Contracts of programs on shared state

A contract says which operations a program may do, and what it relies on in the responses.
Both may depend on what is known, which only grows while other programs go on. Programs that
meet their contracts do so in every order of their operations, if the operations keep an
invariant of the shared state and respond as the contracts say.
-/

namespace Forge.Common

variable {Op : Type} {Response : Op → Type} {κ : Type*} [Preorder κ] {α β σ : Type}

/-- What a program may do and what it relies on. What may be done is not forbidden later. -/
structure Contract (Op : Type) (Response : Op → Type) (κ : Type*) [Preorder κ] where
  requires : κ → Op → Prop
  ensures : κ → (op : Op) → Response op → Prop
  requires_mono : ∀ {known known' : κ} {op : Op}, known ≤ known' → requires known op → requires known' op

namespace Program

variable {contract : Contract Op Response κ} {known known' : κ} {p : Program Op Response α}

/-- A program does only what its contract allows, as long as the responses are those that the contract
promises. Its value meets a condition. -/
def Meets (contract : Contract Op Response κ) (post : κ → α → Prop) : Program Op Response α → κ → Prop
  | .done value, known => post known value
  | .next op rest, known => contract.requires known op ∧
      ∀ known', known ≤ known' → ∀ response, contract.ensures known' op response →
        (rest response).Meets contract post known'

/-- A program still meets its contract when more is known. -/
theorem Meets.mono {post : κ → α → Prop}
    (hpost : ∀ {known known' : κ} {value : α}, known ≤ known' → post known value → post known' value)
    (hmeets : p.Meets contract post known) (hle : known ≤ known') : p.Meets contract post known' := by
  cases p with
  | done value => exact hpost hle hmeets
  | next op rest =>
    exact ⟨contract.requires_mono hle hmeets.1,
      fun known'' hle' response hensures => hmeets.2 known'' (hle.trans hle') response hensures⟩

/-- A program meets a weaker condition, too. -/
theorem Meets.weaken {post post' : κ → α → Prop} (hmeets : p.Meets contract post known)
    (hpost : ∀ known' value, known ≤ known' → post known' value → post' known' value) :
    p.Meets contract post' known := by
  induction p generalizing known with
  | done value => exact hpost known value (le_refl known) hmeets
  | next op rest ih =>
    refine ⟨hmeets.1, fun known' hle response hensures => ?_⟩
    exact ih response (hmeets.2 known' hle response hensures)
      fun known'' value hle' => hpost known'' value (hle.trans hle')

/-- One program after another. -/
theorem Meets.bind {mid : κ → α → Prop} {post : κ → β → Prop} {f : α → Program Op Response β}
    (hmeets : p.Meets contract mid known)
    (hrest : ∀ known' value, known ≤ known' → mid known' value → (f value).Meets contract post known') :
    (p >>= f).Meets contract post known := by
  change (p.bind f).Meets contract post known
  induction p generalizing known with
  | done value => exact hrest known value (le_refl known) hmeets
  | next op rest ih =>
    refine ⟨hmeets.1, fun known' hle response hensures => ?_⟩
    exact ih response (hmeets.2 known' hle response hensures)
      fun known'' value hle' => hrest known'' value (hle.trans hle')

/-- The program of one operation. -/
theorem meets_perform {op : Op} (hrequires : contract.requires known op) :
    (perform op : Program Op Response (Response op)).Meets contract
      (fun known' response => contract.ensures known' op response) known :=
  ⟨hrequires, fun _ _ _ hensures => hensures⟩

end Program

namespace Interleaved

variable {semantics : (op : Op) → σ → Response op × σ} (known : σ → κ) (Inv : σ → Prop)
  (contract : ℕ → Contract Op Response κ) (post : ℕ → κ → α → Prop)

/-- The invariant holds and every program meets its contract. -/
structure Respected (s : Interleaved Op Response α σ) : Prop where
  inv : Inv s.shared
  meets : ∀ i (p : Program Op Response α), s.programs[i]? = some p →
    p.Meets (contract i) (post i) (known s.shared)

/-- An operation that is allowed keeps the invariant, forgets nothing, and has the response that is
promised. -/
def Performed (semantics : (op : Op) → σ → Response op × σ) (s : Interleaved Op Response α σ) (i : ℕ) : Prop :=
  ∀ op rest, s.programs[i]? = some (.next op rest) → Inv s.shared →
    (contract i).requires (known s.shared) op →
    Inv (semantics op s.shared).2 ∧ known s.shared ≤ known (semantics op s.shared).2 ∧
      (contract i).ensures (known (semantics op s.shared).2) op (semantics op s.shared).1

variable {known Inv contract post}

/-- Programs still meet their contracts after an operation of one of them. -/
theorem Respected.step {s t : Interleaved Op Response α σ} {i : ℕ}
    (hpost : ∀ {i known known' value}, known ≤ known' → post i known value → post i known' value)
    (hrespected : Respected known Inv contract post s) (hperformed : Performed known Inv contract semantics s i)
    (hstep : (interleaving semantics).step s i = some t) : Respected known Inv contract post t := by
  obtain ⟨op, rest, hnext, rfl⟩ := step_eq_some_iff.mp hstep
  have hlt := (List.getElem?_eq_some_iff.mp hnext).1
  have hmeets := hrespected.meets i _ hnext
  obtain ⟨hinv, hle, hensures⟩ := hperformed op rest hnext hrespected.inv hmeets.1
  refine ⟨hinv, fun j p hprogram => ?_⟩
  by_cases hj : i = j
  · subst hj
    rw [List.getElem?_set_self hlt] at hprogram
    cases hprogram
    exact hmeets.2 _ hle _ hensures
  · rw [List.getElem?_set_ne hj] at hprogram
    exact (hrespected.meets j p hprogram).mono hpost hle

end Interleaved

end Forge.Common
