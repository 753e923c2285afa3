import Mathlib.Data.List.Perm.Basic
import Mathlib.Logic.Relation
import Mathlib.Order.WellFounded

/-!
# Values combined along dependencies

The value of a vertex is combined from its label and the values of its dependencies, where
the order of the dependencies does not count. When the combination tells its parts, two
vertices have the same value exactly when they look alike: they have the same label, and
their dependencies can be matched one to one so that those look alike.
-/

namespace Forge.Common

variable {α β L V : Type*}

/-- Two vertices of two graphs look alike: they have the same label, and their dependencies can be
matched one to one so that matched ones look alike. -/
inductive Alike (label : α → L) (deps : α → List α) (label' : β → L) (deps' : β → List β) : α → β → Prop where
  | intro {x : α} {y : β} (same : label x = label' y) (matched : List β) (perm : matched.Perm (deps' y))
    (below : List.Forall₂ (Alike label deps label' deps') (deps x) matched) : Alike label deps label' deps' x y

/-- Two lists have the same values in some order exactly when they can be matched one to one. -/
theorem map_perm_map_iff {f : α → V} {g : β → V} {l : List α} {l' : List β} :
    (l.map f).Perm (l'.map g) ↔ ∃ matched : List β, matched.Perm l' ∧ List.Forall₂ (fun a b => f a = g b) l matched := by
  constructor
  · intro hperm
    have hself : List.Forall₂ (fun v b => v = g b) (l'.map g) l' := by
      rw [List.forall₂_map_left_iff]
      exact List.forall₂_same.mpr fun _ _ => rfl
    obtain ⟨matched, hmatched, hperm'⟩ := List.perm_comp_forall₂ hperm hself
    exact ⟨matched, hperm', List.forall₂_map_left_iff.mp hmatched⟩
  · rintro ⟨matched, hperm, hmatched⟩
    have hvalues : l.map f = matched.map g := by
      rw [← List.forall₂_eq_eq_eq, List.forall₂_map_left_iff, List.forall₂_map_right_iff]
      exact hmatched
    rw [hvalues]
    exact hperm.map g

/-- What is in one list is matched in the other. -/
theorem exists_of_forall₂_mem {R : α → β → Prop} {l : List α} {l' : List β} (h : List.Forall₂ R l l') {x : α}
    (hx : x ∈ l) : ∃ y ∈ l', R x y := by
  induction h with
  | nil => exact absurd hx List.not_mem_nil
  | cons hhead _ ih =>
    rcases List.mem_cons.mp hx with rfl | hx
    · exact ⟨_, List.mem_cons_self, hhead⟩
    · obtain ⟨y, hy, hxy⟩ := ih hx
      exact ⟨y, List.mem_cons_of_mem _ hy, hxy⟩

section Values

variable {label : α → L} {deps : α → List α} {label' : β → L} {deps' : β → List β}
  {combine : L → List V → V} {value : α → V} {value' : β → V} {Known : α → Prop} {Known' : β → Prop}

/-- Vertices have the same value exactly when they look alike. -/
theorem alike_iff
    (hcombine : ∀ a a' values values', combine a values = combine a' values' ↔ a = a' ∧ values.Perm values')
    (hwf : WellFounded fun d x => d ∈ deps x)
    (hvalue : ∀ x, Known x → value x = combine (label x) ((deps x).map value))
    (hvalue' : ∀ y, Known' y → value' y = combine (label' y) ((deps' y).map value'))
    (hknown : ∀ x, Known x → ∀ d ∈ deps x, Known d) (hknown' : ∀ y, Known' y → ∀ d ∈ deps' y, Known' d)
    {x : α} {y : β} (hx : Known x) (hy : Known' y) :
    value x = value' y ↔ Alike label deps label' deps' x y := by
  induction x using hwf.induction generalizing y with
  | _ x ih =>
    have hmatch : ∀ matched : List β, matched.Perm (deps' y) →
        (List.Forall₂ (fun a b => value a = value' b) (deps x) matched ↔
          List.Forall₂ (Alike label deps label' deps') (deps x) matched) := by
      intro matched hperm
      rw [List.forall₂_iff_zip, List.forall₂_iff_zip]
      refine and_congr_right fun _ => forall₂_congr fun d d' => imp_congr_right fun hzip => ?_
      obtain ⟨hd, hd'⟩ := List.of_mem_zip hzip
      exact ih d hd (hknown x hx d hd) (hknown' y hy d' (hperm.mem_iff.mp hd'))
    rw [hvalue x hx, hvalue' y hy, hcombine, map_perm_map_iff]
    constructor
    · rintro ⟨hsame, matched, hperm, hbelow⟩
      exact .intro hsame matched hperm ((hmatch matched hperm).mp hbelow)
    · rintro ⟨hsame, matched, hperm, hbelow⟩
      exact ⟨hsame, matched, hperm, (hmatch matched hperm).mpr hbelow⟩

/-- Vertices of two lists have the same values in some order exactly when they can be matched one to one
so that matched ones look alike. -/
theorem map_perm_map_iff_alike
    (hcombine : ∀ a a' values values', combine a values = combine a' values' ↔ a = a' ∧ values.Perm values')
    (hwf : WellFounded fun d x => d ∈ deps x)
    (hvalue : ∀ x, Known x → value x = combine (label x) ((deps x).map value))
    (hvalue' : ∀ y, Known' y → value' y = combine (label' y) ((deps' y).map value'))
    (hknown : ∀ x, Known x → ∀ d ∈ deps x, Known d) (hknown' : ∀ y, Known' y → ∀ d ∈ deps' y, Known' d)
    {l : List α} {l' : List β} (hl : ∀ x ∈ l, Known x) (hl' : ∀ y ∈ l', Known' y) :
    (l.map value).Perm (l'.map value') ↔
      ∃ matched : List β, matched.Perm l' ∧ List.Forall₂ (Alike label deps label' deps') l matched := by
  rw [map_perm_map_iff]
  refine exists_congr fun matched => and_congr_right fun hperm => ?_
  rw [List.forall₂_iff_zip, List.forall₂_iff_zip]
  refine and_congr_right fun _ => forall₂_congr fun x y => imp_congr_right fun hzip => ?_
  obtain ⟨hx, hy⟩ := List.of_mem_zip hzip
  exact alike_iff hcombine hwf hvalue hvalue' hknown hknown' (hl x hx) (hl' y (hperm.mem_iff.mp hy))

end Values

/-- The values that are combined along dependencies without a cycle. -/
noncomputable def combined (label : α → L) (deps : α → List α) (combine : L → List V → V)
    (hwf : WellFounded fun d x => d ∈ deps x) : α → V :=
  hwf.fix fun x value => combine (label x) ((deps x).attach.map fun d => value d.1 d.2)

/-- A value is combined from a label and the values of the dependencies. -/
theorem combined_eq (label : α → L) (deps : α → List α) (combine : L → List V → V)
    (hwf : WellFounded fun d x => d ∈ deps x) (x : α) :
    combined label deps combine hwf x = combine (label x) ((deps x).map (combined label deps combine hwf)) := by
  rw [combined, hwf.fix_eq]
  exact congrArg (combine (label x)) List.attach_map_val

end Forge.Common
