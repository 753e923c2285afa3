import Forge.Common.LongestChains
import Forge.Graph.Built
import Forge.Graph.Levels

/-!
# The order and the levels of a built graph

The sort counts down the indegree of each node. Parallel edges are counted with their
multiplicity in both directions, so no counter is decremented below zero: the sort that
stops there does the same. The level at which a node is placed is the number of edges on
the longest dependency chain that ends at it.
-/

namespace Forge.Graph.BuildGraph

open Relation Forge.Common

variable {T : Type*}

/-! ## The counters of the sort -/

/-- Decrement the indegree of each listed dependent. `none` is an index out of range or a counter that would
pass below zero. -/
def releaseDependentsChecked : List NodeId → List ℕ → List NodeId → Option (List ℕ × List NodeId)
  | [], indegree, ready => some (indegree, ready)
  | dependent :: rest, indegree, ready =>
    match indegree[dependent]? with
    | none => none
    | some 0 => none
    | some (count + 1) =>
      releaseDependentsChecked rest (indegree.set dependent count) (if count = 0 then ready ++ [dependent] else ready)

/-- The main loop of the topological sort with checked counters. -/
def topologicalLoopChecked (g : BuildGraph T) : ℕ → List ℕ → List NodeId → List NodeId → Option (List NodeId)
  | 0, _, _, order => some order
  | _ + 1, _, [], order => some order
  | fuel + 1, indegree, id :: ready, order =>
    (releaseDependentsChecked (g.dependentList id) indegree ready).bind fun (indegree, ready) =>
      topologicalLoopChecked g fuel indegree ready (order ++ [id])

/-- The topological order, computed with checked counters. -/
def topologicalOrderChecked (g : BuildGraph T) : Option (List NodeId) :=
  let indegree := g.deps.map List.length
  let ready := (g.deps.zipIdx.filter fun (deps, _) => deps.isEmpty).map Prod.snd
  topologicalLoopChecked g (g.len + 1) indegree ready []

/-- A counter that is not zero is decremented alike in both ways. -/
theorem modify_pred_eq_set {indegree : List ℕ} {id count : ℕ} (h : indegree[id]? = some (count + 1)) :
    indegree.modify id (· - 1) = indegree.set id count := by
  apply List.ext_getElem?
  intro i
  rw [List.getElem?_modify, List.getElem?_set]
  by_cases hi : id = i
  · subst hi
    have hlt : id < indegree.length := (List.getElem?_eq_some_iff.mp h).1
    rw [h]
    simp [hlt]
  · simp [hi]

/-- Releasing the dependents of the last ordered node decrements no counter below zero. -/
theorem releaseDependentsChecked_eq {g : BuildGraph T} {order : List ℕ} (rest indegree ready : List ℕ)
    (h : TopologicalInv g indegree ready order rest) (hrest : ∀ id ∈ rest, id < g.len) :
    releaseDependentsChecked rest indegree ready = some (releaseDependents rest indegree ready) := by
  induction rest generalizing indegree ready with
  | nil => rfl
  | cons dependent rest ih =>
    have hlt := hrest dependent List.mem_cons_self
    have hlater : ∀ id ∈ rest, id < g.len := fun id hid => hrest id (List.mem_cons_of_mem _ hid)
    have hcount := h.counted dependent hlt
    rw [List.count_cons_self, ← Nat.add_assoc] at hcount
    have hnext := h.release hlt
    rw [modify_pred_eq_set hcount] at hnext
    have hself := List.getElem?_set_self (a := (g.depList dependent).countP (· ∉ order) + rest.count dependent)
      (List.getElem?_eq_some_iff.mp hcount).1
    rw [hself] at hnext
    simp only [releaseDependentsChecked, hcount]
    rw [releaseDependents, modify_pred_eq_set hcount, hself]
    simp only [Option.some.injEq] at hnext ⊢
    split
    · rename_i hzero
      rw [if_pos hzero] at hnext
      exact ih _ _ hnext hlater
    · rename_i hzero
      rw [if_neg hzero] at hnext
      exact ih _ _ hnext hlater

/-- The loop decrements no counter below zero. -/
theorem topologicalLoopChecked_eq {g : BuildGraph T} (hwf : g.WellFormed) (fuel : ℕ) (indegree ready order : List ℕ)
    (h : TopologicalInv g indegree ready order []) :
    topologicalLoopChecked g fuel indegree ready order = some (topologicalLoop g fuel indegree ready order) := by
  induction fuel generalizing indegree ready order with
  | zero => rfl
  | succ fuel ih =>
    cases ready with
    | nil => rfl
    | cons id ready =>
      have hpop := h.pop hwf
      have hrange : ∀ x ∈ g.dependentList id, x < g.len := fun x hx => hwf.inRange id x hx
      simp only [topologicalLoopChecked, topologicalLoop, releaseDependentsChecked_eq _ _ _ hpop hrange, Option.bind_some]
      exact ih _ _ _ (releaseDependents_inv _ _ _ hpop hrange)

/-- The sort decrements no counter below zero. -/
theorem WellFormed.topologicalOrderChecked {g : BuildGraph T} (h : g.WellFormed) :
    g.topologicalOrderChecked = some g.topologicalOrder :=
  topologicalLoopChecked_eq h _ _ _ _ (topologicalInv_start h)

/-! ## The depth of a node -/

/-- The level of a node, counted from one, is built up along the edges. -/
theorem WellFormed.longest_level {g : BuildGraph T} (h : g.WellFormed) {levelOf : List ℕ}
    (hdepth : ∀ x < g.len, levelOf[x]? = some (g.depth levelOf x)) :
    Longest g.Edge (fun _ => 1) (fun x => levelOf[x]?.getD 0 + 1) {x | x < g.len} where
  closed := fun a b _ hab => h.edge_left hab
  single := fun b _ => Nat.le_add_left 1 _
  growing := by
    intro a b hb hab
    have hmem : levelOf[a]?.getD 0 + 1 ∈ (g.depList b).map fun dep => levelOf[dep]?.getD 0 + 1 :=
      List.mem_map.mpr ⟨a, h.mem_depList_iff.mpr hab, rfl⟩
    rw [hdepth b hb, Option.getD_some]
    exact Nat.add_le_add_right (le_max?_getD hmem) 1
  attained := by
    intro b hb
    rw [hdepth b hb, Option.getD_some, depth]
    cases hmax : ((g.depList b).map fun dep => levelOf[dep]?.getD 0 + 1).max? with
    | none => exact Or.inl rfl
    | some greatest =>
      obtain ⟨dep, hdep, rfl⟩ := List.mem_map.mp (List.max?_eq_some_iff.mp hmax).1
      exact Or.inr ⟨dep, h.mem_depList_iff.mp hdep, rfl⟩

/-- Counting a chain by its vertices. -/
theorem weightOf_one (l : List ℕ) : weightOf (fun _ => 1) l = l.length := by
  rw [weightOf, List.map_const', List.sum_replicate, Nat.nsmul_eq_mul, Nat.mul_one]

/-- A node of the graph sits on the level that counts the edges on the longest chain that ends at it. -/
theorem WellFormed.mem_level_iff {g : BuildGraph T} (h : g.WellFormed) (k id : ℕ) :
    id ∈ g.levels[k]?.getD [] ↔ id < g.len ∧
      IsGreatest {n | ∃ l : List ℕ, l.IsChain g.Edge ∧ l.getLast? = some id ∧ l.length = n + 1} k := by
  obtain ⟨levelOf, hinv, hdepth, -⟩ := h.levels_depth
  have hlongest := h.longest_level fun x hx => hdepth x ((h.mem_topologicalOrder x).mpr hx)
  have hlevel : ∀ j, id ∈ g.levels[j]?.getD [] → levelOf[id]? = some j := by
    intro j hmem
    cases hj : g.levels[j]? with
    | none => rw [hj] at hmem; exact absurd hmem List.not_mem_nil
    | some l => rw [hj] at hmem; exact hinv.level j l hj id hmem
  have hgreatest : ∀ j, id < g.len → levelOf[id]? = some j →
      IsGreatest {n | ∃ l : List ℕ, l.IsChain g.Edge ∧ l.getLast? = some id ∧ l.length = n + 1} j := by
    intro j hid hj
    have hmax := hlongest.isGreatest h.edge_wf hid
    simp only [hj, Option.getD_some, weightOf_one, chainTo_iff, and_assoc] at hmax
    exact ⟨hmax.1, fun n hn => Nat.le_of_succ_le_succ (hmax.2 hn)⟩
  constructor
  · intro hmem
    have hj := hlevel k hmem
    have hid : id < g.len := by
      rw [← hinv.length]
      exact (List.getElem?_eq_some_iff.mp hj).1
    exact ⟨hid, hgreatest k hid hj⟩
  · rintro ⟨hid, hk⟩
    obtain ⟨l, hl, hmem⟩ := List.mem_flatten.mp (h.mem_levels_iff.mpr hid)
    obtain ⟨j, hj⟩ := List.mem_iff_getElem?.mp hl
    have hmem : id ∈ g.levels[j]?.getD [] := by
      rw [hj]
      exact hmem
    rw [hk.unique (hgreatest j hid (hlevel j hmem))]
    exact hmem

/-- On every built graph the sort lists each node once, behind its dependencies, without a counter passing below
zero, and the levels part the nodes by the number of edges on the longest chain that ends at them. -/
theorem topologicalOrder_levels_correct (g : BuildGraph T) (h : g.Built) :
    g.topologicalOrderChecked = some g.topologicalOrder ∧ g.topologicalOrder.Perm (List.range g.len) ∧
      (∀ before id after, g.topologicalOrder = before ++ id :: after → ∀ dep ∈ g.depList id, dep ∈ before) ∧
      g.levels.flatten.Perm (List.range g.len) ∧ (∀ l ∈ g.levels, l ≠ []) ∧
      ∀ k id, id ∈ g.levels[k]?.getD [] ↔ id < g.len ∧
        IsGreatest {n | ∃ l : List ℕ, l.IsChain g.Edge ∧ l.getLast? = some id ∧ l.length = n + 1} k := by
  have hwf := h.wellFormed
  obtain ⟨-, -, -, hne⟩ := hwf.levels_depth
  refine ⟨hwf.topologicalOrderChecked, hwf.topologicalOrder_perm, ?_, hwf.levels_perm, hne, hwf.mem_level_iff⟩
  intro before id after heq
  have horder := hwf.isTopological
  rw [heq] at horder
  exact horder.deps_before hwf

/-- The chain has one node on each level, whatever its parallel edges. -/
theorem topologicalOrder_levels_correct_chain :
    chain.topologicalOrderChecked = some [0, 1, 2] ∧ (2 : ℕ) ∈ chain.levels[2]?.getD [] ∧
      IsGreatest {n | ∃ l : List ℕ, l.IsChain chain.Edge ∧ l.getLast? = some 2 ∧ l.length = n + 1} 2 := by
  have h := topologicalOrder_levels_correct chain chain_built
  have hmem : (2 : ℕ) ∈ chain.levels[2]?.getD [] := by decide
  exact ⟨h.1.trans (by decide), hmem, ((h.2.2.2.2.2 2 2).mp hmem).2⟩

end Forge.Graph.BuildGraph
