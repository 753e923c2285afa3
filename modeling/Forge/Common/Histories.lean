import Mathlib.Data.List.Induction
import Mathlib.Data.List.Infix

/-!
# Safety along histories

A property of histories that is to hold after every prefix of a run can be charged to
single steps. If an invariant implies the property, the steps that meet a condition keep
the invariant, and a step that misses the condition breaks the property, then the property
holds throughout exactly when every step meets the condition.
-/

namespace Forge.Common

variable {ε : Type*}

/-- A property of histories that holds at the start and is kept by every step of a run
holds for each of its prefixes. -/
theorem history_induction (Inv : List ε → Prop) {events : List ε} (hstart : Inv [])
    (hstep : ∀ history e, history ++ [e] <+: events → Inv history → Inv (history ++ [e]))
    {history : List ε} (hinitial : history <+: events) : Inv history := by
  induction history using List.reverseRecOn with
  | nil => exact hstart
  | append_singleton history e ih =>
    exact hstep history e hinitial (ih ((List.prefix_append history [e]).trans hinitial))

/-- Every step of a run that is longer by one meets a condition when the shorter one does and so does the
last. -/
theorem forall_prefix_concat (Ok : List ε → ε → Prop) {events : List ε} {e : ε} :
    (∀ history e', history ++ [e'] <+: events ++ [e] → Ok history e') ↔
      (∀ history e', history ++ [e'] <+: events → Ok history e') ∧ Ok events e := by
  constructor
  · intro hall
    exact ⟨fun history e' hinitial => hall history e' (hinitial.trans (List.prefix_append events [e])),
      hall events e (List.prefix_refl _)⟩
  · intro h history e' hinitial
    obtain ⟨hall, hlast⟩ := h
    rcases List.prefix_concat_iff.mp hinitial with heq | hinitial
    · obtain ⟨rfl, rfl⟩ := List.append_singleton_inj.mp heq
      exact hlast
    · exact hall history e' hinitial

/-- How often an event happened, after one more event. -/
theorem count_concat [DecidableEq ε] (history : List ε) (i k : ε) :
    (history ++ [i]).count k = if k = i then history.count i + 1 else history.count k := by
  rw [List.count_append, List.count_singleton]
  by_cases hk : k = i
  · subst hk
    rw [if_pos rfl, if_pos (beq_self_eq_true k)]
  · rw [if_neg hk, if_neg (by simpa using Ne.symm hk), Nat.add_zero]

/-- An invariant that the steps with a condition keep holds along a run whose steps all meet it. -/
theorem invariant_of_steps {Inv : List ε → Prop} {Ok : List ε → ε → Prop} (hstart : Inv [])
    (hstep : ∀ history e, Inv history → Ok history e → Inv (history ++ [e])) {events : List ε}
    (hall : ∀ history e, history ++ [e] <+: events → Ok history e) {history : List ε}
    (hinitial : history <+: events) : Inv history :=
  history_induction Inv hstart (fun earlier e hearlier hinv => hstep earlier e hinv (hall earlier e hearlier)) hinitial

/-- A property holds along a run exactly when every step meets the condition that keeps
its invariant. -/
theorem forall_prefix_iff_steps (Inv Good : List ε → Prop) (Ok : List ε → ε → Prop)
    (hstart : Inv []) (hstep : ∀ history e, Inv history → Ok history e → Inv (history ++ [e]))
    (hgood : ∀ history, Inv history → Good history)
    (hnecessary : ∀ history e, Inv history → Good (history ++ [e]) → Ok history e)
    (events : List ε) :
    (∀ history, history <+: events → Good history) ↔
      ∀ history e, history ++ [e] <+: events → Ok history e := by
  constructor
  · intro hall history e hinitial
    have hinv : Inv history :=
      invariant_of_steps hstart (fun earlier e' hinv hok => hstep earlier e' hinv (hnecessary earlier e' hinv hok))
        (fun earlier e' hearlier => hall (earlier ++ [e']) hearlier) ((List.prefix_append history [e]).trans hinitial)
    exact hnecessary history e hinv (hall _ hinitial)
  · intro hall history hinitial
    exact hgood history (invariant_of_steps hstart hstep hall hinitial)

/-- Two conditions on the steps of a run hold along it together, when they agree wherever an invariant holds and keep
this invariant. -/
theorem forall_steps_iff (Inv : List ε → Prop) (Good Ok : List ε → ε → Prop) (hstart : Inv [])
    (hagree : ∀ history e, Inv history → (Good history e ↔ Ok history e))
    (hstep : ∀ history e, Inv history → Ok history e → Inv (history ++ [e])) (events : List ε) :
    (∀ history e, history ++ [e] <+: events → Good history e) ↔
      ∀ history e, history ++ [e] <+: events → Ok history e := by
  constructor
  · intro hall history e hinitial
    have hinv : Inv history :=
      invariant_of_steps hstart (fun earlier e' hinv hgood => hstep earlier e' hinv ((hagree earlier e' hinv).mp hgood))
        hall ((List.prefix_append history [e]).trans hinitial)
    exact (hagree history e hinv).mp (hall history e hinitial)
  · intro hall history e hinitial
    have hinv : Inv history :=
      invariant_of_steps hstart hstep hall ((List.prefix_append history [e]).trans hinitial)
    exact (hagree history e hinv).mpr (hall history e hinitial)

/-- A condition on the events alone holds at every step of a run when it holds of all events. -/
theorem forall_steps_iff_forall_mem (Ok : ε → Prop) (events : List ε) :
    (∀ history e, history ++ [e] <+: events → Ok e) ↔ ∀ e ∈ events, Ok e := by
  constructor
  · intro hall e hmem
    obtain ⟨history, later, rfl⟩ := List.append_of_mem hmem
    refine hall history e ⟨later, ?_⟩
    rw [List.append_assoc, List.singleton_append]
  · intro hall history e hinitial
    exact hall e (hinitial.subset (List.mem_append_right _ List.mem_cons_self))

end Forge.Common
