import Mathlib.Data.List.AList
import Mathlib.Data.List.Induction
import Mathlib.Data.Nat.Notation
import Mathlib.Logic.Basic

/-!
# The graph of named nodes

A graph that is built by naming each node with its dependencies, in any order and as often
as one likes. A node that was only named as a dependency has none of its own. Every node
also lists the nodes that depend on it; inserting a node again takes back what its last
version entered there. Weights are exact.
-/

namespace Forge.Graph.Lockless

/-! ## The graph -/

/-- A node with its dependencies, the nodes that depend on it, and its weight. -/
structure LocklessGraphNode where
  id : String
  dependencies : List String
  reverseDependencies : List String
  executionWeight : ℕ
  deriving DecidableEq, Repr

/-- A node of which nothing is known. -/
def LocklessGraphNode.default : LocklessGraphNode := ⟨"", [], [], 0⟩

/-- The nodes by their names. -/
structure LocklessDependencyGraph where
  nodes : AList fun _ : String => LocklessGraphNode

namespace LocklessDependencyGraph

/-- The empty graph. -/
def new : LocklessDependencyGraph := ⟨∅⟩

/-- The node of a name. -/
def getNode (g : LocklessDependencyGraph) (id : String) : Option LocklessGraphNode := g.nodes.lookup id

end LocklessDependencyGraph

/-- Take a node out of the reverse dependencies of one that it used to depend on. -/
def dropReverse (id : String) (nodes : AList fun _ : String => LocklessGraphNode) (oldDep : String) :
    AList fun _ : String => LocklessGraphNode :=
  match nodes.lookup oldDep with
  | none => nodes
  | some node =>
    nodes.insert oldDep { node with reverseDependencies := node.reverseDependencies.filter (· ≠ id) }

/-- Enter a node into the reverse dependencies of one that it depends on. -/
def addReverse (id : String) (nodes : AList fun _ : String => LocklessGraphNode) (dep : String) :
    AList fun _ : String => LocklessGraphNode :=
  let node := (nodes.lookup dep).getD .default
  let node := { node with id := dep }
  nodes.insert dep
    (if id ∈ node.reverseDependencies then node
    else { node with reverseDependencies := node.reverseDependencies ++ [id] })

/-- The nodes without what the previous version of a node entered into its dependencies. -/
def LocklessDependencyGraph.retract (g : LocklessDependencyGraph) (id : String) :
    AList fun _ : String => LocklessGraphNode :=
  match (g.getNode id).map (·.dependencies) with
  | none => g.nodes
  | some previousDeps => previousDeps.foldl (dropReverse id) g.nodes

/-- Insert a node with its dependencies and its weight, over a previous version of it. -/
def LocklessDependencyGraph.insertNode (g : LocklessDependencyGraph) (id : String) (dependencies : List String)
    (weight : ℕ) : LocklessDependencyGraph :=
  let nodes := g.retract id
  let node := (nodes.lookup id).getD .default
  let nodes := nodes.insert id { node with id := id, dependencies := dependencies, executionWeight := weight }
  ⟨dependencies.foldl (addReverse id) nodes⟩

/-- A call that inserts a node. -/
structure Insertion where
  id : String
  dependencies : List String
  weight : ℕ
  deriving DecidableEq, Repr

/-- The graph after a sequence of insertions. -/
def insertAll (insertions : List Insertion) : LocklessDependencyGraph :=
  insertions.foldl (fun g i => g.insertNode i.id i.dependencies i.weight) .new

namespace LocklessDependencyGraph

/-- The dependencies of a node, none for an unknown name. -/
def dependenciesOf (g : LocklessDependencyGraph) (id : String) : List String :=
  ((g.getNode id).map (·.dependencies)).getD []

/-- The nodes that depend on a node, none for an unknown name. -/
def reverseOf (g : LocklessDependencyGraph) (id : String) : List String :=
  ((g.getNode id).map (·.reverseDependencies)).getD []

/-- The weight of a node, zero for an unknown name. -/
def weight (g : LocklessDependencyGraph) (id : String) : ℕ :=
  ((g.getNode id).map (·.executionWeight)).getD 0

end LocklessDependencyGraph

/-! ## What an insertion does to one node -/

/-- What dropping a node from the reverse dependencies of several others does to each node. -/
theorem lookup_foldl_dropReverse (id : String) (deps : List String) (nodes : AList fun _ : String => LocklessGraphNode)
    (x : String) :
    (deps.foldl (dropReverse id) nodes).lookup x = (nodes.lookup x).map fun node =>
      if x ∈ deps then { node with reverseDependencies := node.reverseDependencies.filter (· ≠ id) } else node := by
  induction deps generalizing nodes with
  | nil => simp
  | cons dep deps ih =>
    rw [List.foldl_cons, ih]
    have hfirst : (dropReverse id nodes dep).lookup x = (nodes.lookup x).map fun node =>
        if x = dep then { node with reverseDependencies := node.reverseDependencies.filter (· ≠ id) } else node := by
      rw [dropReverse]
      by_cases hx : x = dep
      · subst hx
        cases hnode : nodes.lookup x with
        | none => simp [hnode]
        | some node => simp [AList.lookup_insert]
      · cases hnode : nodes.lookup dep with
        | none => simp [hx]
        | some node => simp [AList.lookup_insert_ne hx, hx]
    rw [hfirst, Option.map_map]
    refine congrArg (fun f => (nodes.lookup x).map f) (funext fun node => ?_)
    by_cases hx : x = dep
    · by_cases hmem : x ∈ deps
      · simp [hx, hx ▸ hmem, List.filter_filter]
      · simp [hx, hx ▸ hmem]
    · simp [hx]

/-- A node with another one entered into its reverse dependencies. -/
def withReverse (id x : String) (node : LocklessGraphNode) : LocklessGraphNode :=
  { node with
    id := x
    reverseDependencies :=
      if id ∈ node.reverseDependencies then node.reverseDependencies else node.reverseDependencies ++ [id] }

/-- Entering a node twice enters it once. -/
theorem withReverse_withReverse (id x : String) (node : LocklessGraphNode) :
    withReverse id x (withReverse id x node) = withReverse id x node := by
  have hmem : id ∈ (withReverse id x node).reverseDependencies := by
    rw [withReverse]
    by_cases hid : id ∈ node.reverseDependencies
    · simp [hid]
    · simp [hid]
  rw [withReverse, if_pos hmem]
  rfl

/-- What entering a node into the reverse dependencies of one other does to each node. -/
theorem lookup_addReverse (id dep : String) (nodes : AList fun _ : String => LocklessGraphNode) (x : String) :
    (addReverse id nodes dep).lookup x =
      if x = dep then some (withReverse id x ((nodes.lookup x).getD .default)) else nodes.lookup x := by
  by_cases hx : x = dep
  · subst hx
    rw [if_pos rfl, addReverse, AList.lookup_insert, withReverse]
    simp only
    split <;> rfl
  · rw [if_neg hx, addReverse, AList.lookup_insert_ne hx]

/-- What entering a node into the reverse dependencies of several others does to each node. -/
theorem lookup_foldl_addReverse (id : String) (deps : List String) (nodes : AList fun _ : String => LocklessGraphNode)
    (x : String) :
    (deps.foldl (addReverse id) nodes).lookup x =
      if x ∈ deps then some (withReverse id x ((nodes.lookup x).getD .default)) else nodes.lookup x := by
  induction deps generalizing nodes with
  | nil => rw [if_neg List.not_mem_nil]; rfl
  | cons dep deps ih =>
    rw [List.foldl_cons, ih, lookup_addReverse]
    by_cases hx : x = dep
    · rw [if_pos hx, if_pos (List.mem_cons.mpr (Or.inl hx)), Option.getD_some, withReverse_withReverse, ite_self]
    · rw [if_neg hx]
      by_cases hmem : x ∈ deps
      · rw [if_pos hmem, if_pos (List.mem_cons_of_mem _ hmem)]
      · rw [if_neg hmem, if_neg (by simp [hx, hmem])]

/-- What retracting a node does to each node. -/
theorem lookup_retract (g : LocklessDependencyGraph) (id x : String) :
    (g.retract id).lookup x = (g.getNode x).map fun node =>
      if x ∈ g.dependenciesOf id then { node with reverseDependencies := node.reverseDependencies.filter (· ≠ id) }
      else node := by
  rw [LocklessDependencyGraph.retract, LocklessDependencyGraph.dependenciesOf]
  cases (g.getNode id).map (·.dependencies) with
  | none => simp [LocklessDependencyGraph.getNode]
  | some previousDeps => exact lookup_foldl_dropReverse id previousDeps g.nodes x

/-- What an insertion leaves of a node. -/
theorem getNode_insertNode (g : LocklessDependencyGraph) (id : String) (deps : List String) (weight : ℕ) (x : String) :
    (g.insertNode id deps weight).getNode x =
      let inserted := if x = id then
          some { ((g.retract id).lookup x).getD .default with id := id, dependencies := deps, executionWeight := weight }
        else (g.retract id).lookup x
      if x ∈ deps then some (withReverse id x (inserted.getD .default)) else inserted := by
  simp only [LocklessDependencyGraph.insertNode]
  rw [LocklessDependencyGraph.getNode, lookup_foldl_addReverse]
  by_cases hx : x = id
  · subst hx
    rw [AList.lookup_insert, if_pos rfl]
  · rw [AList.lookup_insert_ne hx, if_neg hx]

/-- A part of a node that retracting and entering leave alone is set by an insertion, for its node and for no other. -/
theorem part_insertNode {β : Type*} (part : LocklessGraphNode → β) (none : β)
    (hpart : ∀ node id reverse, part { node with id := id, reverseDependencies := reverse } = part node)
    (hnone : part .default = none) (g : LocklessDependencyGraph) (id : String) (deps : List String) (weight : ℕ)
    (x : String) :
    (((g.insertNode id deps weight).getNode x).map part).getD none =
      if x = id then part ⟨id, deps, [], weight⟩ else ((g.getNode x).map part).getD none := by
  have hretract : (((g.retract id).lookup x).map part).getD none = ((g.getNode x).map part).getD none := by
    rw [lookup_retract, Option.map_map]
    refine congrArg (fun f => ((g.getNode x).map f).getD none) (funext fun node => ?_)
    simp only [Function.comp_apply]
    split
    · exact hpart node node.id _
    · rfl
  have hdefault : ∀ found : Option LocklessGraphNode, part (found.getD .default) = (found.map part).getD none := by
    intro found
    cases found with
    | none => exact hnone
    | some node => rfl
  have hset : ∀ node : LocklessGraphNode, part { node with id := id, dependencies := deps, executionWeight := weight } =
      part ⟨id, deps, [], weight⟩ := fun node => (hpart ⟨id, deps, [], weight⟩ id node.reverseDependencies)
  rw [getNode_insertNode]
  by_cases hx : x = id
  · rw [if_pos hx, if_pos hx]
    split
    · exact (hpart _ x _).trans (hset _)
    · exact hset _
  · rw [if_neg hx, if_neg hx, ← hretract]
    split
    · exact (hpart _ x _).trans (hdefault _)
    · rfl

namespace LocklessDependencyGraph

/-- An insertion sets the dependencies of its node, and of no other. -/
theorem dependenciesOf_insertNode (g : LocklessDependencyGraph) (id : String) (deps : List String) (weight : ℕ)
    (x : String) : (g.insertNode id deps weight).dependenciesOf x = if x = id then deps else g.dependenciesOf x :=
  part_insertNode (·.dependencies) [] (fun _ _ _ => rfl) rfl g id deps weight x

/-- An insertion sets the weight of its node, and of no other. -/
theorem weight_insertNode (g : LocklessDependencyGraph) (id : String) (deps : List String) (weight : ℕ) (x : String) :
    (g.insertNode id deps weight).weight x = if x = id then weight else g.weight x :=
  part_insertNode (·.executionWeight) 0 (fun _ _ _ => rfl) rfl g id deps weight x

/-- Retracting a node takes it out of the reverse dependencies of what it depends on. -/
theorem reverseDependencies_retract (g : LocklessDependencyGraph) (id x : String) :
    (((g.retract id).lookup x).map (·.reverseDependencies)).getD [] =
      if x ∈ g.dependenciesOf id then (g.reverseOf x).filter (· ≠ id) else g.reverseOf x := by
  rw [lookup_retract, reverseOf]
  cases g.getNode x with
  | none => simp
  | some node =>
    simp only [Option.map_some, Option.getD_some]
    split <;> rfl

/-- An insertion enters its node into the reverse dependencies of what the node depends on, and of nothing else. -/
theorem reverseOf_insertNode (g : LocklessDependencyGraph) (id : String) (deps : List String) (weight : ℕ) (x : String) :
    (g.insertNode id deps weight).reverseOf x =
      let kept := if x ∈ g.dependenciesOf id then (g.reverseOf x).filter (· ≠ id) else g.reverseOf x
      if x ∈ deps then if id ∈ kept then kept else kept ++ [id] else kept := by
  have hdefault : ∀ found : Option LocklessGraphNode,
      (found.getD .default).reverseDependencies = (found.map (·.reverseDependencies)).getD [] := by
    intro found
    cases found <;> rfl
  rw [← reverseDependencies_retract, reverseOf, getNode_insertNode]
  by_cases hx : x = id
  · subst hx
    simp only [if_pos]
    split
    · simp only [Option.map_some, Option.getD_some, withReverse, hdefault]
    · simp only [Option.map_some, Option.getD_some, hdefault]
  · simp only [if_neg hx]
    split
    · simp only [Option.map_some, Option.getD_some, withReverse, hdefault]
    · rfl

/-! ## Consistency -/

/-- The two directions of the edges agree, every mentioned node is there, and each is filed under its name. -/
structure Consistent (g : LocklessDependencyGraph) : Prop where
  mirror : ∀ a b, b ∈ g.reverseOf a ↔ a ∈ g.dependenciesOf b
  nodup : ∀ a, (g.reverseOf a).Nodup
  present : ∀ a b, a ∈ g.dependenciesOf b → (g.getNode a).isSome = true
  ids : ∀ id node, g.getNode id = some node → node.id = id

/-- The empty graph is consistent. -/
theorem Consistent.new : LocklessDependencyGraph.new.Consistent where
  mirror := fun a b => iff_of_false List.not_mem_nil List.not_mem_nil
  nodup := fun a => List.nodup_nil
  present := fun a b ha => absurd ha List.not_mem_nil
  ids := fun id node hnode => absurd hnode (by simp [getNode, LocklessDependencyGraph.new])

/-- In a consistent graph an insertion moves its node to where it now belongs. -/
theorem Consistent.reverseOf_insertNode {g : LocklessDependencyGraph} (h : g.Consistent) (id : String)
    (deps : List String) (weight : ℕ) (x : String) :
    (g.insertNode id deps weight).reverseOf x =
      (g.reverseOf x).filter (· ≠ id) ++ if x ∈ deps then [id] else [] := by
  have hkept : (if x ∈ g.dependenciesOf id then (g.reverseOf x).filter (· ≠ id) else g.reverseOf x) =
      (g.reverseOf x).filter (· ≠ id) := by
    by_cases hx : x ∈ g.dependenciesOf id
    · rw [if_pos hx]
    · rw [if_neg hx, List.filter_eq_self.mpr]
      intro b hb
      refine decide_eq_true fun heq => hx ?_
      subst heq
      exact (h.mirror x b).mp hb
  have hnotmem : id ∉ (g.reverseOf x).filter (· ≠ id) := by
    intro hmem
    exact of_decide_eq_true (List.mem_filter.mp hmem).2 rfl
  rw [LocklessDependencyGraph.reverseOf_insertNode]
  simp only [hkept, if_neg hnotmem]
  split
  · rfl
  · rw [List.append_nil]

/-- A node is there after an insertion when it was there before, is inserted, or is named as a dependency. -/
theorem isSome_getNode_insertNode {g : LocklessDependencyGraph} {id x : String} {deps : List String} (weight : ℕ)
    (h : (g.getNode x).isSome = true ∨ x = id ∨ x ∈ deps) :
    ((g.insertNode id deps weight).getNode x).isSome = true := by
  rw [getNode_insertNode]
  simp only
  split
  · rfl
  · rename_i hmem
    split
    · rfl
    · rename_i hx
      rw [lookup_retract, Option.isSome_map]
      exact h.resolve_right fun hor => hor.elim hx hmem

/-- An insertion keeps the graph consistent. -/
theorem Consistent.insertNode {g : LocklessDependencyGraph} (h : g.Consistent) (id : String) (deps : List String)
    (weight : ℕ) : (g.insertNode id deps weight).Consistent where
  mirror := by
    intro a b
    rw [h.reverseOf_insertNode, dependenciesOf_insertNode, List.mem_append, List.mem_filter, h.mirror a b]
    by_cases hb : b = id
    · by_cases ha : a ∈ deps <;> simp [hb, ha]
    · by_cases ha : a ∈ deps <;> simp [hb, ha]
  nodup := by
    intro a
    rw [h.reverseOf_insertNode]
    refine List.nodup_append.mpr ⟨(h.nodup a).filter _, ?_, fun x hx y hy heq => ?_⟩
    · split
      · exact List.nodup_singleton id
      · exact List.nodup_nil
    · have hid : y = id := by
        split at hy
        · exact List.mem_singleton.mp hy
        · exact absurd hy List.not_mem_nil
      exact of_decide_eq_true (List.mem_filter.mp hx).2 (heq.trans hid)
  present := by
    intro a b ha
    rw [dependenciesOf_insertNode] at ha
    refine isSome_getNode_insertNode weight ?_
    split at ha
    · exact Or.inr (Or.inr ha)
    · exact Or.inl (h.present a b ha)
  ids := by
    intro x node hnode
    rw [getNode_insertNode] at hnode
    simp only at hnode
    split at hnode
    · rw [← Option.some.inj hnode]
      rfl
    · split at hnode
      · rename_i hx
        rw [← Option.some.inj hnode]
        exact hx.symm
      · rw [lookup_retract, Option.map_eq_some_iff] at hnode
        obtain ⟨old, hold, rfl⟩ := hnode
        split
        · exact h.ids x old hold
        · exact h.ids x old hold

end LocklessDependencyGraph

open LocklessDependencyGraph

/-- The last insertion of a node, if there is one. -/
def lastInsertion (insertions : List Insertion) (id : String) : Option Insertion :=
  (insertions.filter fun i => i.id = id).getLast?

/-- After one more insertion, that one is the last of its node. -/
theorem lastInsertion_concat (insertions : List Insertion) (i : Insertion) (id : String) :
    lastInsertion (insertions ++ [i]) id = if id = i.id then some i else lastInsertion insertions id := by
  rw [lastInsertion, List.filter_append, List.filter_singleton]
  by_cases hid : id = i.id
  · rw [decide_eq_true hid.symm, cond_true, List.getLast?_concat, if_pos hid]
  · rw [decide_eq_false (Ne.symm hid), cond_false, List.append_nil, if_neg hid]
    rfl

/-- The graph after one more insertion. -/
theorem insertAll_concat (insertions : List Insertion) (i : Insertion) :
    insertAll (insertions ++ [i]) = (insertAll insertions).insertNode i.id i.dependencies i.weight := by
  rw [insertAll, List.foldl_append]
  rfl

/-- Every sequence of insertions leaves a consistent graph. -/
theorem consistent_insertAll (insertions : List Insertion) : (insertAll insertions).Consistent := by
  induction insertions using List.reverseRecOn with
  | nil => exact Consistent.new
  | append_singleton insertions i ih =>
    rw [insertAll_concat]
    exact ih.insertNode i.id i.dependencies i.weight

/-- Every node has what its last insertion gave it, and nothing without one. -/
theorem insertAll_latest (insertions : List Insertion) (id : String) :
    (insertAll insertions).dependenciesOf id = ((lastInsertion insertions id).map (·.dependencies)).getD [] ∧
      (insertAll insertions).weight id = ((lastInsertion insertions id).map (·.weight)).getD 0 ∧
      ((lastInsertion insertions id).isSome = true → ((insertAll insertions).getNode id).isSome = true) := by
  induction insertions using List.reverseRecOn with
  | nil => exact ⟨rfl, rfl, fun h => absurd h (by simp [lastInsertion])⟩
  | append_singleton insertions i ih =>
    obtain ⟨hdeps, hweight, hpresent⟩ := ih
    rw [insertAll_concat, lastInsertion_concat, dependenciesOf_insertNode, weight_insertNode]
    by_cases hid : id = i.id
    · rw [if_pos hid, if_pos hid, if_pos hid]
      exact ⟨rfl, rfl, fun _ => isSome_getNode_insertNode i.weight (Or.inr (Or.inl hid))⟩
    · rw [if_neg hid, if_neg hid, if_neg hid]
      exact ⟨hdeps, hweight, fun h => isSome_getNode_insertNode i.weight (Or.inl (hpresent h))⟩

/-- A node that was mentioned as a dependency stays, whatever is inserted later. -/
theorem isSome_getNode_of_mentioned {i : Insertion} {dep : String} (hdep : dep ∈ i.dependencies)
    (before after : List Insertion) : ((insertAll (before ++ i :: after)).getNode dep).isSome = true := by
  induction after using List.reverseRecOn with
  | nil =>
    rw [insertAll_concat]
    exact isSome_getNode_insertNode i.weight (Or.inr (Or.inr hdep))
  | append_singleton after j ih =>
    rw [← List.cons_append, ← List.append_assoc, insertAll_concat]
    exact isSome_getNode_insertNode j.weight (Or.inl ih)

/-- A node that is inserted has a last insertion. -/
theorem isSome_lastInsertion {insertions : List Insertion} {i : Insertion} (hi : i ∈ insertions) :
    (lastInsertion insertions i.id).isSome = true := by
  rw [lastInsertion, List.getLast?_isSome]
  exact List.ne_nil_of_mem (List.mem_filter.mpr ⟨hi, decide_eq_true rfl⟩)

/-- After any sequence of insertions the two directions of the edges agree, without repetitions in the reverse one;
what was inserted and what was mentioned as a dependency has a node; and each node holds what its last insertion
gave it. -/
theorem insertAll_consistent (insertions : List Insertion) :
    (∀ a b, b ∈ (insertAll insertions).reverseOf a ↔ a ∈ (insertAll insertions).dependenciesOf b) ∧
      (∀ a, ((insertAll insertions).reverseOf a).Nodup) ∧
      (∀ i ∈ insertions, ((insertAll insertions).getNode i.id).isSome = true ∧
        ∀ dep ∈ i.dependencies, ((insertAll insertions).getNode dep).isSome = true) ∧
      ∀ id node, (insertAll insertions).getNode id = some node → node.id = id ∧
        node.dependencies = ((lastInsertion insertions id).map (·.dependencies)).getD [] ∧
        node.executionWeight = ((lastInsertion insertions id).map (·.weight)).getD 0 := by
  have h := consistent_insertAll insertions
  refine ⟨h.mirror, h.nodup, fun i hi => ⟨?_, ?_⟩, fun id node hnode => ⟨h.ids id node hnode, ?_, ?_⟩⟩
  · exact (insertAll_latest insertions i.id).2.2 (isSome_lastInsertion hi)
  · obtain ⟨before, after, rfl⟩ := List.append_of_mem hi
    intro dep hdep
    exact isSome_getNode_of_mentioned hdep before after
  · rw [← (insertAll_latest insertions id).1, dependenciesOf, hnode]
    rfl
  · rw [← (insertAll_latest insertions id).2.1, LocklessDependencyGraph.weight, hnode]
    rfl

end Forge.Graph.Lockless
