import Forge.Graph.Topological

/-!
# The levels of a build graph

Every node is put one level above the highest of its dependencies, and those without
dependencies on the lowest level. The levels one after another are a topological order, and
the dependencies of a node are on earlier levels.
-/

namespace Forge.Graph.BuildGraph

open Forge.Common

variable {T : Type*}

/-- The level of a node above those of its dependencies. -/
def depth (g : BuildGraph T) (levelOf : List ℕ) (id : NodeId) : ℕ :=
  ((g.depList id).map fun dep => levelOf[dep]?.getD 0 + 1).max?.getD 0

/-- Put the nodes of an order on their levels. -/
def levelsLoop (g : BuildGraph T) : List NodeId → List ℕ → List (List NodeId) → List (List NodeId)
  | [], _, levels => levels
  | id :: order, levelOf, levels =>
    let depth := g.depth levelOf id
    let levels := levels ++ List.replicate (depth + 1 - levels.length) []
    levelsLoop g order (levelOf.set id depth) (levels.modify depth (· ++ [id]))

/-- The nodes by levels. -/
def levels (g : BuildGraph T) : List (List NodeId) :=
  g.levelsLoop g.topologicalOrder (List.replicate g.len 0) []

/-- What the loop keeps about the nodes it has placed. -/
structure LevelsInv (g : BuildGraph T) (placed : List ℕ) (levelOf : List ℕ) (levels : List (List ℕ)) : Prop where
  length : levelOf.length = g.len
  perm : levels.flatten.Perm placed
  level : ∀ (k : ℕ) (l : List ℕ), levels[k]? = some l → ∀ id : ℕ, id ∈ l → levelOf[id]? = some k
  below : ∀ id : ℕ, id ∈ placed → ∀ dep : ℕ, dep ∈ g.depList id →
    dep ∈ placed ∧ ∃ j k, levelOf[dep]? = some j ∧ levelOf[id]? = some k ∧ j < k

/-- A member of a list is at most its maximum. -/
theorem le_max?_getD {l : List ℕ} {n : ℕ} (h : n ∈ l) : n ≤ l.max?.getD 0 := by
  obtain ⟨greatest, hgreatest⟩ := Option.isSome_iff_exists.mp (List.isSome_max?_of_mem h)
  rw [hgreatest, Option.getD_some]
  exact (List.max?_eq_some_iff.mp hgreatest).2 n h

/-- Adding to a level adds to the levels. -/
theorem flatten_modify_perm {levels : List (List ℕ)} {k : ℕ} (hk : k < levels.length) (id : ℕ) :
    (levels.modify k (· ++ [id])).flatten.Perm (levels.flatten ++ [id]) := by
  induction levels generalizing k with
  | nil => exact absurd hk (Nat.not_lt_zero k)
  | cons l levels ih =>
    cases k with
    | zero =>
      rw [List.modify_zero_cons, List.flatten_cons, List.flatten_cons, List.append_assoc, List.append_assoc]
      exact List.perm_append_comm.append_left l
    | succ k =>
      rw [List.modify_succ_cons, List.flatten_cons, List.flatten_cons, List.append_assoc]
      exact (ih (Nat.lt_of_succ_lt_succ hk)).append_left l

/-- A node that is placed has a level. -/
theorem LevelsInv.exists_level {g : BuildGraph T} {placed levelOf : List ℕ} {levels : List (List ℕ)}
    (h : LevelsInv g placed levelOf levels) {id : ℕ} (hid : id ∈ placed) : ∃ k, levelOf[id]? = some k := by
  obtain ⟨l, hl, hmem⟩ := List.mem_flatten.mp (h.perm.mem_iff.mpr hid)
  obtain ⟨k, hk⟩ := List.mem_iff_getElem?.mp hl
  exact ⟨k, h.level k l hk id hmem⟩

/-- A node is above its dependencies that are placed. -/
theorem LevelsInv.lt_depth {g : BuildGraph T} {placed levelOf : List ℕ} {levels : List (List ℕ)}
    (_h : LevelsInv g placed levelOf levels) {id dep j : ℕ} (hdep : dep ∈ g.depList id)
    (hlevel : levelOf[dep]? = some j) : j < g.depth levelOf id := by
  have hmem : j + 1 ∈ (g.depList id).map fun dep => levelOf[dep]?.getD 0 + 1 :=
    List.mem_map.mpr ⟨dep, hdep, by rw [hlevel, Option.getD_some]⟩
  exact Nat.lt_of_succ_le (le_max?_getD hmem)

/-- Placing a node whose dependencies are placed keeps the bookkeeping. -/
theorem LevelsInv.place {g : BuildGraph T} {placed levelOf : List ℕ} {levels : List (List ℕ)}
    (h : LevelsInv g placed levelOf levels) {id : ℕ} (hid : id < g.len) (hnew : id ∉ placed)
    (hdeps : ∀ dep ∈ g.depList id, dep ∈ placed) :
    LevelsInv g (placed ++ [id]) (levelOf.set id (g.depth levelOf id))
      ((levels ++ List.replicate (g.depth levelOf id + 1 - levels.length) []).modify (g.depth levelOf id)
        (· ++ [id])) := by
  have hself : (levelOf.set id (g.depth levelOf id))[id]? = some (g.depth levelOf id) := by
    rw [List.getElem?_set_self (by rw [h.length]; exact hid)]
  have hother : ∀ x ∈ placed, (levelOf.set id (g.depth levelOf id))[x]? = levelOf[x]? := by
    intro x hx
    exact List.getElem?_set_ne fun heq : id = x => hnew (heq ▸ hx)
  constructor
  · rw [List.length_set, h.length]
  · have hlength : g.depth levelOf id <
        (levels ++ List.replicate (g.depth levelOf id + 1 - levels.length) []).length := by
      rw [List.length_append, List.length_replicate]
      omega
    refine (flatten_modify_perm hlength id).trans ?_
    rw [List.flatten_append, List.flatten_replicate_nil, List.append_nil]
    exact h.perm.append_right [id]
  · intro k l hk x hx
    rw [List.getElem?_modify, Option.map_eq_map, Option.map_eq_some_iff] at hk
    obtain ⟨l₀, hl₀, rfl⟩ := hk
    have hold : x ∈ l₀ → (levelOf.set id (g.depth levelOf id))[x]? = some k := by
      intro hx₀
      have hlevel : levels[k]? = some l₀ := by
        rw [List.getElem?_append] at hl₀
        split at hl₀
        · exact hl₀
        · rw [List.eq_of_mem_replicate (List.mem_of_getElem? hl₀)] at hx₀
          exact absurd hx₀ List.not_mem_nil
      have hplaced : x ∈ placed :=
        h.perm.mem_iff.mp (List.mem_flatten.mpr ⟨l₀, List.mem_of_getElem? hlevel, hx₀⟩)
      rw [hother x hplaced]
      exact h.level k l₀ hlevel x hx₀
    split at hx
    · rename_i hdepth
      rcases List.mem_append.mp hx with hx | hx
      · exact hold hx
      · rw [List.mem_singleton.mp hx, hself, hdepth]
    · exact hold hx
  · intro x hx dep hdep
    rcases List.mem_append.mp hx with hx | hx
    · obtain ⟨hplaced, j, k, hj, hk, hlt⟩ := h.below x hx dep hdep
      exact ⟨List.mem_append_left _ hplaced, j, k, by rw [hother dep hplaced, hj], by rw [hother x hx, hk], hlt⟩
    · obtain rfl := List.mem_singleton.mp hx
      have hplaced := hdeps dep hdep
      obtain ⟨j, hj⟩ := h.exists_level hplaced
      exact ⟨List.mem_append_left _ hplaced, j, _, by rw [hother dep hplaced, hj], hself, h.lt_depth hdep hj⟩

/-- In a topological order the dependencies of a node come before it. -/
theorem IsTopological.deps_before {g : BuildGraph T} {before after : List ℕ} {id : ℕ}
    (h : g.IsTopological (before ++ id :: after)) (hwf : g.WellFormed) : ∀ dep ∈ g.depList id, dep ∈ before := by
  intro dep hdep
  have hedge : g.Edge dep id := hwf.mem_depList_iff.mp hdep
  have hmem := ((h.closed id).mp (List.mem_append_right _ List.mem_cons_self)).2 dep hdep
  rcases List.mem_append.mp hmem with hbefore | hlater
  · exact hbefore
  · rcases List.mem_cons.mp hlater with rfl | hlater
    · exact absurd rfl (hwf.acyclic.irrefl hedge)
    · have hsorted := (List.pairwise_append.mp h.sorted).2.1
      exact absurd hedge ((List.pairwise_cons.mp hsorted).1 dep hlater)

/-- The next node of a topological order is new, and its dependencies come before it. -/
theorem IsTopological.next {g : BuildGraph T} {before after : List ℕ} {id : ℕ}
    (h : g.IsTopological (before ++ id :: after)) (hwf : g.WellFormed) :
    id < g.len ∧ id ∉ before ∧ (∀ dep ∈ g.depList id, dep ∈ before) ∧ g.IsTopological (before ++ [id] ++ after) := by
  refine ⟨((h.closed id).mp (List.mem_append_right _ List.mem_cons_self)).1, fun hbefore => ?_, h.deps_before hwf, ?_⟩
  · exact (List.nodup_append.mp h.nodup).2.2 id hbefore id List.mem_cons_self rfl
  · rwa [← List.append_cons]

/-- Nodes of which the dependencies are known alike have the same depth. -/
theorem depth_congr {g : BuildGraph T} {levelOf levelOf' : List ℕ} {id : ℕ}
    (h : ∀ dep ∈ g.depList id, levelOf'[dep]? = levelOf[dep]?) : g.depth levelOf' id = g.depth levelOf id := by
  rw [depth, depth]
  refine congrArg (fun l : List ℕ => l.max?.getD 0) (List.map_congr_left fun dep hdep => ?_)
  rw [h dep hdep]

/-- Placing a node whose dependencies are placed keeps the placed nodes at their depth. -/
theorem LevelsInv.place_depth {g : BuildGraph T} {placed levelOf : List ℕ} {levels : List (List ℕ)}
    (h : LevelsInv g placed levelOf levels) {id : ℕ} (hid : id < g.len) (hnew : id ∉ placed)
    (hdeps : ∀ dep ∈ g.depList id, dep ∈ placed)
    (hdepth : ∀ x ∈ placed, levelOf[x]? = some (g.depth levelOf x)) :
    ∀ x ∈ placed ++ [id], (levelOf.set id (g.depth levelOf id))[x]? =
      some (g.depth (levelOf.set id (g.depth levelOf id)) x) := by
  have hother : ∀ x ∈ placed, (levelOf.set id (g.depth levelOf id))[x]? = levelOf[x]? :=
    fun x hx => List.getElem?_set_ne fun heq : id = x => hnew (heq ▸ hx)
  have hsame : ∀ x, (∀ dep ∈ g.depList x, dep ∈ placed) →
      g.depth (levelOf.set id (g.depth levelOf id)) x = g.depth levelOf x :=
    fun x hx => depth_congr fun dep hdep => hother dep (hx dep hdep)
  intro x hx
  rcases List.mem_append.mp hx with hx | hx
  · rw [hother x hx, hdepth x hx, hsame x fun dep hdep => (h.below x hx dep hdep).1]
  · obtain rfl := List.mem_singleton.mp hx
    rw [List.getElem?_set_self (by rw [h.length]; exact hid), hsame x hdeps]

/-- A node whose dependencies are placed goes on a level that is there, or on the next one. -/
theorem LevelsInv.depth_le {g : BuildGraph T} {placed levelOf : List ℕ} {levels : List (List ℕ)}
    (h : LevelsInv g placed levelOf levels) {id : ℕ} (hdeps : ∀ dep ∈ g.depList id, dep ∈ placed) :
    g.depth levelOf id ≤ levels.length := by
  rw [depth]
  cases hmax : ((g.depList id).map fun dep => levelOf[dep]?.getD 0 + 1).max? with
  | none => exact Nat.zero_le _
  | some greatest =>
    obtain ⟨dep, hdep, rfl⟩ := List.mem_map.mp (List.max?_eq_some_iff.mp hmax).1
    obtain ⟨l, hl, hmem⟩ := List.mem_flatten.mp (h.perm.mem_iff.mpr (hdeps dep hdep))
    obtain ⟨k, hk⟩ := List.mem_iff_getElem?.mp hl
    rw [Option.getD_some, h.level k l hk dep hmem, Option.getD_some]
    exact (List.getElem?_eq_some_iff.mp hk).1

/-- Placing a node leaves no level empty. -/
theorem LevelsInv.place_ne_nil {g : BuildGraph T} {placed levelOf : List ℕ} {levels : List (List ℕ)}
    (h : LevelsInv g placed levelOf levels) {id : ℕ} (hdeps : ∀ dep ∈ g.depList id, dep ∈ placed)
    (hne : ∀ l ∈ levels, l ≠ []) :
    ∀ l ∈ (levels ++ List.replicate (g.depth levelOf id + 1 - levels.length) []).modify (g.depth levelOf id) (· ++ [id]),
      l ≠ [] := by
  have hle := h.depth_le hdeps
  intro l hl
  obtain ⟨k, hk⟩ := List.mem_iff_getElem?.mp hl
  rw [List.getElem?_modify, Option.map_eq_map, Option.map_eq_some_iff] at hk
  obtain ⟨l₀, hl₀, rfl⟩ := hk
  split
  · exact List.append_ne_nil_of_right_ne_nil l₀ (List.cons_ne_nil id [])
  · rename_i hother
    have hlt := (List.getElem?_eq_some_iff.mp hl₀).1
    rw [List.length_append, List.length_replicate] at hlt
    rw [List.getElem?_append_left (by omega)] at hl₀
    exact hne l₀ (List.mem_of_getElem? hl₀)

/-- The loop places the rest of a topological order, each node at its depth, and leaves no level empty. -/
theorem levelsLoop_inv {g : BuildGraph T} (hwf : g.WellFormed) {order placed : List ℕ} {levelOf : List ℕ}
    {levels : List (List ℕ)} (h : LevelsInv g placed levelOf levels)
    (hdepth : ∀ x ∈ placed, levelOf[x]? = some (g.depth levelOf x)) (hne : ∀ l ∈ levels, l ≠ [])
    (horder : g.IsTopological (placed ++ order)) :
    ∃ levelOf', LevelsInv g (placed ++ order) levelOf' (g.levelsLoop order levelOf levels) ∧
      (∀ x ∈ placed ++ order, levelOf'[x]? = some (g.depth levelOf' x)) ∧
      ∀ l ∈ g.levelsLoop order levelOf levels, l ≠ [] := by
  induction order generalizing placed levelOf levels with
  | nil => exact ⟨levelOf, by rw [List.append_nil]; exact ⟨h, hdepth, hne⟩⟩
  | cons id order ih =>
    obtain ⟨hid, hnew, hbefore, hnext⟩ := horder.next hwf
    rw [List.append_cons]
    exact ih (h.place hid hnew hbefore) (h.place_depth hid hnew hbefore hdepth) (h.place_ne_nil hbefore hne) hnext

/-- The nodes are placed on the levels, each at its depth, and no level is empty. -/
theorem WellFormed.levels_depth {g : BuildGraph T} (h : g.WellFormed) :
    ∃ levelOf, LevelsInv g g.topologicalOrder levelOf g.levels ∧
      (∀ x ∈ g.topologicalOrder, levelOf[x]? = some (g.depth levelOf x)) ∧ ∀ l ∈ g.levels, l ≠ [] := by
  have hstart : LevelsInv g [] (List.replicate g.len 0) [] :=
    { length := List.length_replicate
      perm := List.Perm.nil
      level := fun k l hk => absurd hk (by simp)
      below := fun id hid => absurd hid List.not_mem_nil }
  exact levelsLoop_inv h hstart (fun x hx => absurd hx List.not_mem_nil) (fun l hl => absurd hl List.not_mem_nil)
    h.isTopological

/-- The nodes are placed on the levels, each above its dependencies. -/
theorem WellFormed.levels_inv {g : BuildGraph T} (h : g.WellFormed) :
    ∃ levelOf, LevelsInv g g.topologicalOrder levelOf g.levels := by
  obtain ⟨levelOf, hinv, -⟩ := h.levels_depth
  exact ⟨levelOf, hinv⟩

/-- The levels one after another list every node once. -/
theorem WellFormed.levels_perm {g : BuildGraph T} (h : g.WellFormed) : g.levels.flatten.Perm (List.range g.len) := by
  obtain ⟨levelOf, hinv⟩ := h.levels_inv
  exact hinv.perm.trans h.topologicalOrder_perm

/-- A node is on a level exactly when it is in the graph. -/
theorem WellFormed.mem_levels_iff {g : BuildGraph T} (h : g.WellFormed) {id : ℕ} :
    id ∈ g.levels.flatten ↔ id < g.len := by
  rw [h.levels_perm.mem_iff, List.mem_range]

/-- The levels one after another are a topological order. -/
theorem WellFormed.levels_isTopological {g : BuildGraph T} (h : g.WellFormed) : g.IsTopological g.levels.flatten := by
  obtain ⟨levelOf, hinv⟩ := h.levels_inv
  have hlevel : ∀ {a b j k : ℕ}, levelOf[a]? = some j → levelOf[b]? = some k → j ≤ k → ¬ g.Edge b a := by
    intro a b j k ha hb hle hedge
    have hplaced : a ∈ g.topologicalOrder := (h.mem_topologicalOrder a).mpr (h.inRange b a hedge)
    obtain ⟨-, j', k', hj', hk', hlt⟩ := hinv.below a hplaced b (h.mem_depList_iff.mpr hedge)
    rw [hb] at hj'
    rw [ha] at hk'
    obtain rfl := Option.some.inj hj'
    obtain rfl := Option.some.inj hk'
    omega
  constructor
  · exact hinv.perm.nodup_iff.mpr h.isTopological.nodup
  · rw [List.pairwise_flatten]
    constructor
    · intro l hl
      obtain ⟨k, hk⟩ := List.mem_iff_getElem?.mp hl
      refine List.pairwise_of_forall_mem_list fun a ha b hb => ?_
      exact hlevel (hinv.level k l hk a ha) (hinv.level k l hk b hb) le_rfl
    · refine List.pairwise_iff_getElem.mpr fun j k hj hk hlt a ha b hb => ?_
      exact hlevel (hinv.level j _ (List.getElem?_eq_getElem hj) a ha)
        (hinv.level k _ (List.getElem?_eq_getElem hk) b hb) (Nat.le_of_lt hlt)
  · intro id
    rw [h.mem_levels_iff]
    refine ⟨fun hid => ⟨hid, fun dep hdep => h.mem_levels_iff.mpr (h.depList_lt hdep)⟩, And.left⟩

end Forge.Graph.BuildGraph
