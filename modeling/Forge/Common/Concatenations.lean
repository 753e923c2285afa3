import Mathlib.Data.List.Basic

/-!
# Words that run together

The text of a list of words, one behind the other, does not tell where a word ends. Two lists
of equally many words have the same text exactly when, at the first place where they differ,
what one word has beyond the other is spelled again by the words behind the other. Words of
the same lengths do not run together.
-/

namespace Forge.Common

variable {α : Type*} [DecidableEq α]

/-- Words run together with others: they are the same, or else, at the first place where they
differ, one word goes on where the other one ends, and the words behind the other one make up
for what it lacks. -/
def RunTogether : List (List α) → List (List α) → Prop
  | [], [] => True
  | x :: words, y :: others =>
    if x = y then RunTogether words others
    else
      (∃ more, y = x ++ more ∧ words.flatten = more ++ others.flatten) ∨
        ∃ more, x = y ++ more ∧ others.flatten = more ++ words.flatten
  | _, _ => False

/-- Words run together with themselves. -/
theorem RunTogether.refl (words : List (List α)) : RunTogether words words := by
  induction words with
  | nil => trivial
  | cons x words ih =>
    rw [RunTogether, if_pos rfl]
    exact ih

/-- Equally many words have the same text exactly when they run together. -/
theorem flatten_eq_iff_runTogether {words others : List (List α)} (hlength : words.length = others.length) :
    words.flatten = others.flatten ↔ RunTogether words others := by
  induction words generalizing others with
  | nil =>
    obtain rfl := List.length_eq_zero_iff.mp hlength.symm
    exact iff_of_true rfl trivial
  | cons x words ih =>
    cases others with
    | nil => exact absurd hlength nofun
    | cons y others =>
      rw [RunTogether, List.flatten_cons, List.flatten_cons]
      split
      · rename_i hxy
        subst hxy
        rw [List.append_cancel_left_eq]
        exact ih (Nat.succ.inj hlength)
      · constructor
        · intro h
          rcases List.append_eq_append_iff.mp h with ⟨more, hy, hwords⟩ | ⟨more, hx, hothers⟩
          · exact .inl ⟨more, hy, hwords⟩
          · exact .inr ⟨more, hx, hothers⟩
        · rintro (⟨more, hy, hwords⟩ | ⟨more, hx, hothers⟩)
          · rw [hy, hwords, List.append_assoc]
          · rw [hx, hothers, List.append_assoc]

/-- Words that run together are the same if they have the same lengths. -/
theorem RunTogether.eq_of_length {words others : List (List α)} (h : RunTogether words others)
    (hlengths : words.map List.length = others.map List.length) : words = others := by
  have hlength : words.length = others.length := by
    have h := congrArg List.length hlengths
    rwa [List.length_map, List.length_map] at h
  exact List.eq_iff_flatten_eq.mpr ⟨(flatten_eq_iff_runTogether hlength).mpr h, hlengths⟩

omit [DecidableEq α] in
/-- Words none of which starts with another one are told by their text. -/
theorem eq_of_flatten_eq {words others : List (List α)} (hword : ∀ x ∈ words, x ≠ []) (hother : ∀ y ∈ others, y ≠ [])
    (hfree : ∀ x ∈ words, ∀ y ∈ others, x <+: y ∨ y <+: x → x = y) (h : words.flatten = others.flatten) :
    words = others := by
  induction words generalizing others with
  | nil =>
    cases others with
    | nil => rfl
    | cons y others => exact absurd (List.flatten_eq_nil_iff.mp h.symm y List.mem_cons_self) (hother y List.mem_cons_self)
  | cons x words ih =>
    cases others with
    | nil => exact absurd (List.flatten_eq_nil_iff.mp h x List.mem_cons_self) (hword x List.mem_cons_self)
    | cons y others =>
      rw [List.flatten_cons, List.flatten_cons] at h
      -- The first words start the same text, so that one of them starts with the other one.
      have hxy : x = y := by
        refine hfree x List.mem_cons_self y List.mem_cons_self ?_
        exact List.prefix_or_prefix_of_prefix (List.prefix_append x _) (h ▸ List.prefix_append y _)
      subst hxy
      rw [ih (fun z hz => hword z (List.mem_cons_of_mem _ hz)) (fun z hz => hother z (List.mem_cons_of_mem _ hz))
        (fun z hz w hw => hfree z (List.mem_cons_of_mem _ hz) w (List.mem_cons_of_mem _ hw)) (List.append_cancel_left h)]

end Forge.Common
