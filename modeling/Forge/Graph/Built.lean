import Forge.Graph.Cancellation
import Forge.Graph.Topological

/-!
# Graphs reached by the graph operations

`Built` collects the graphs that node insertion, dependency requests, merging, dynamic
expansion and state changes can produce from an empty graph, whatever their arguments and
whether or not they succeed. All of them satisfy the invariant, and merging one into another
never runs past the renumbering it has just computed.
-/

namespace Forge.Graph.BuildGraph

open Relation Forge.Common

variable {T : Type*}

/-- Merging the nodes keeps the invariant and numbers every merged node. -/
theorem mergeNodes_spec (nodes : List (Node T)) (newIds : List ℕ) (g : BuildGraph T)
    (h : g.WellFormed) :
    (mergeNodes nodes newIds g).2.WellFormed ∧
      (mergeNodes nodes newIds g).1.length = newIds.length + nodes.length := by
  induction nodes generalizing newIds g with
  | nil => exact ⟨h, rfl⟩
  | cons node nodes ih =>
    have hnext := ih (newIds ++ [g.len]) (g.addNode node.payload).2 (h.addNode node.payload)
    refine ⟨hnext.1, ?_⟩
    have hlength := hnext.2
    simp only [List.length_append, List.length_singleton] at hlength
    rw [List.length_cons]
    exact hlength.trans (by omega)

/-- Re-adding dependencies that were renumbered keeps the invariant. -/
theorem mergeDeps_spec (newIds : List ℕ) (dependent : ℕ) (deps : List ℕ) (g : BuildGraph T)
    (h : g.WellFormed) (hdeps : ∀ dep ∈ deps, dep < newIds.length) :
    ∃ g', mergeDeps newIds dependent deps g = some g' ∧ g'.WellFormed := by
  induction deps generalizing g with
  | nil => exact ⟨g, rfl, h⟩
  | cons dep deps ih =>
    have hdep := hdeps dep List.mem_cons_self
    simp only [mergeDeps, List.getElem?_eq_getElem hdep]
    exact ih _ (h.addDependency _ _) fun d hd => hdeps d (List.mem_cons_of_mem _ hd)

/-- Re-adding the dependencies of all merged nodes keeps the invariant. -/
theorem mergeEdges_spec (newIds : List ℕ) (entries : List (List ℕ × ℕ)) (g : BuildGraph T)
    (h : g.WellFormed) (hentries : ∀ entry ∈ entries,
      entry.2 < newIds.length ∧ ∀ dep ∈ entry.1, dep < newIds.length) :
    ∃ g', mergeEdges newIds entries g = some g' ∧ g'.WellFormed := by
  induction entries generalizing g with
  | nil => exact ⟨g, rfl, h⟩
  | cons entry entries ih =>
    obtain ⟨deps, depIdx⟩ := entry
    obtain ⟨hidx, hdeps⟩ := hentries _ List.mem_cons_self
    obtain ⟨g₁, heq, hwf⟩ := mergeDeps_spec newIds newIds[depIdx] deps g h hdeps
    simp only [mergeEdges, List.getElem?_eq_getElem hidx, heq, Option.bind_some]
    exact ih g₁ hwf fun e he => hentries e (List.mem_cons_of_mem _ he)

/-- Merging two graphs that satisfy the invariant succeeds and keeps it. -/
theorem WellFormed.mergeSubgraph {g other : BuildGraph T} (h : g.WellFormed)
    (hother : other.WellFormed) :
    ∃ idMap g', g.mergeSubgraph other = some (idMap, g') ∧ g'.WellFormed := by
  obtain ⟨hwf, hlength⟩ := mergeNodes_spec other.nodes [] g h
  rw [List.length_nil, Nat.zero_add] at hlength
  have hentries : ∀ entry ∈ other.deps.zipIdx,
      entry.2 < (mergeNodes other.nodes [] g).1.length ∧
        ∀ dep ∈ entry.1, dep < (mergeNodes other.nodes [] g).1.length := by
    intro entry hentry
    rw [List.mem_zipIdx_iff_getElem?] at hentry
    have hidx := (List.getElem?_eq_some_iff.mp hentry).1
    rw [hlength]
    refine ⟨by rw [← hother.depsLength]; exact hidx, ?_⟩
    intro dep hdep
    exact hother.depList_lt (b := entry.2) (by simpa [depList, hentry] using hdep)
  obtain ⟨g', heq, hwf'⟩ := mergeEdges_spec _ _ _ hwf hentries
  have hmerge : g.mergeSubgraph other =
      some ((mergeNodes other.nodes [] g).1.zipIdx.map Prod.swap, g') := by
    simp only [BuildGraph.mergeSubgraph, heq, Option.map_some]
    rfl
  exact ⟨_, g', hmerge, hwf'⟩

/-- Adding several dependencies keeps the invariant, wherever the first rejection stops it. -/
theorem WellFormed.addDependencies {g : BuildGraph T} (h : g.WellFormed) (child : ℕ)
    (deps : List ℕ) : (BuildGraph.addDependencies child deps g).2.WellFormed := by
  induction deps generalizing g with
  | nil => exact h
  | cons dep deps ih =>
    have hnext := h.addDependency dep child
    rw [BuildGraph.addDependencies]
    split <;> rename_i heq <;> rw [heq] at hnext
    · exact hnext
    · exact ih hnext

/-- A node without dependents may depend on every other node. -/
theorem WellFormed.addDependency_sink {g : BuildGraph T} (h : g.WellFormed) {child dep : ℕ} (hchild : child < g.len)
    (hsink : g.dependentList child = []) (hdep : dep < g.len) (hne : dep ≠ child) :
    g.addDependency dep child = (.ok (), g.pushEdge dep child) := by
  rcases g.addDependency_cases dep child with ⟨e, heq, -⟩ | ⟨-, -, -, -, heq⟩
  · have herror : ∃ e, (g.addDependency dep child).1 = .error e := ⟨e, by rw [heq]⟩
    rcases (h.addDependency_error_iff dep child).mp herror with hlen | hlen | hself | hpath
    · omega
    · omega
    · exact absurd hself hne
    · rcases Relation.ReflTransGen.cases_head hpath with hself | ⟨next, hedge, -⟩
      · exact absurd hself.symm hne
      · rw [Edge, hsink] at hedge
        exact absurd hedge List.not_mem_nil
  · exact heq

/-- Adding dependencies to a node without dependents adds all of them, in their order. -/
theorem WellFormed.addDependencies_sink {g : BuildGraph T} (h : g.WellFormed) {child : ℕ} {deps : List ℕ}
    (hchild : child < g.len) (hsink : g.dependentList child = []) (hdeps : ∀ dep ∈ deps, dep < g.len ∧ dep ≠ child) :
    ∃ g', BuildGraph.addDependencies child deps g = (.ok (), g') ∧ g'.nodes = g.nodes ∧
      g'.depList child = g.depList child ++ deps ∧ ∀ id ≠ child, g'.depList id = g.depList id := by
  induction deps generalizing g with
  | nil => exact ⟨g, rfl, rfl, (List.append_nil _).symm, fun _ _ => rfl⟩
  | cons dep deps ih =>
    obtain ⟨⟨hlt, hne⟩, hrest⟩ := List.forall_mem_cons.mp hdeps
    have hok := h.addDependency_sink hchild hsink hlt hne
    have hwf : (g.pushEdge dep child).WellFormed := by
      have hnext := h.addDependency dep child
      rw [hok] at hnext
      exact hnext
    have hkept : (g.pushEdge dep child).dependentList child = [] := by
      rw [dependentList_pushEdge g (by rw [h.dependentsLength]; exact hlt), if_neg hne.symm, hsink]
    have hpushed := @depList_pushEdge _ g dep child (by rw [h.depsLength]; exact hchild)
    obtain ⟨g', hadded, hnodes, hself, hothers⟩ := ih hwf hchild hkept hrest
    refine ⟨g', ?_, hnodes, ?_, ?_⟩
    · rw [BuildGraph.addDependencies, hok]
      exact hadded
    · rw [hself, hpushed, if_pos rfl, List.append_assoc, List.singleton_append]
    · intro id hid
      rw [hothers id hid, hpushed, if_neg hid]

/-- Expanding a node keeps the invariant, wherever the first rejection stops it. -/
theorem WellFormed.expandNode {g : BuildGraph T} (h : g.WellFormed) (parent : ℕ)
    (tasks : List (DynamicTaskSpec T)) (createdIds : List ℕ) :
    (BuildGraph.expandNode parent tasks createdIds g).2.WellFormed := by
  induction tasks generalizing g createdIds with
  | nil => exact h
  | cons task tasks ih =>
    have hparent := (h.addNode task.payload).addDependency parent (g.addNode task.payload).1
    simp only [BuildGraph.expandNode]
    split <;> rename_i heq <;> rw [heq] at hparent
    · exact hparent
    · have hdeps := hparent.addDependencies (g.addNode task.payload).1 task.dependencies
      split <;> rename_i heq' <;> rw [heq'] at hdeps
      · exact hdeps
      · exact ih hdeps _

/-- The graphs reached from an empty one by the graph operations. -/
inductive Built : BuildGraph T → Prop where
  | new : Built BuildGraph.new
  | addNode {g : BuildGraph T} (payload : T) : Built g → Built (g.addNode payload).2
  | addDependency {g : BuildGraph T} (dependency dependent : NodeId) :
      Built g → Built (g.addDependency dependency dependent).2
  | mergeSubgraph {g other g' : BuildGraph T} {idMap : List (NodeId × NodeId)} :
      Built g → Built other → g.mergeSubgraph other = some (idMap, g') → Built g'
  | expandNode {g : BuildGraph T} (parent : NodeId) (tasks : List (DynamicTaskSpec T)) :
      Built g → Built (BuildGraph.expandNode parent tasks [] g).2
  | setState {g : BuildGraph T} (id : NodeId) (state : TaskState) :
      Built g → Built (g.setState id state).2
  | markFailed {g : BuildGraph T} (id : NodeId) : Built g → Built (g.markFailed id).2
  | resetStates {g : BuildGraph T} : Built g → Built g.resetStates

/-- Every operation keeps the invariant, so every graph they reach satisfies it. -/
theorem Built.wellFormed {g : BuildGraph T} (h : g.Built) : g.WellFormed := by
  induction h with
  | new => exact WellFormed.new
  | addNode payload _ ih => exact ih.addNode payload
  | addDependency dependency dependent _ ih => exact ih.addDependency dependency dependent
  | mergeSubgraph _ _ heq ih ihOther =>
    obtain ⟨_, g', hmerge, hwf⟩ := ih.mergeSubgraph ihOther
    rw [hmerge, Option.some.injEq, Prod.mk.injEq] at heq
    exact heq.2 ▸ hwf
  | expandNode parent tasks _ ih => exact ih.expandNode parent tasks []
  | setState id state _ ih => exact (sameShape_setState _ id state).wellFormed ih
  | markFailed id _ ih => exact (ih.sameShape_markFailed id).wellFormed ih
  | resetStates _ ih => exact (sameShape_resetStates _).wellFormed ih

/-- Merging graphs that were built by the operations never panics. -/
theorem Built.mergeSubgraph_isSome {g other : BuildGraph T} (h : g.Built) (hother : other.Built) :
    (g.mergeSubgraph other).isSome = true := by
  obtain ⟨_, _, heq, _⟩ := h.wellFormed.mergeSubgraph hother.wellFormed
  rw [heq]
  rfl

/-- Every graph reached by the operations satisfies the invariant, has no self edge and
passes `validate`; a dependency request on it fails exactly for an unknown endpoint, a self
edge or a dependent that already reaches the dependency, and then changes nothing. -/
theorem built_graph_invariant (g : BuildGraph T) (h : g.Built) :
    g.WellFormed ∧ (∀ a, a ∉ g.depList a ∧ a ∉ g.dependentList a) ∧ g.validate = .ok () ∧
      ∀ dependency dependent : NodeId,
        ((∃ e, (g.addDependency dependency dependent).1 = .error e) ↔
          g.len ≤ dependency ∨ g.len ≤ dependent ∨ dependency = dependent ∨
            ReflTransGen g.Edge dependent dependency) ∧
        ((∃ e, (g.addDependency dependency dependent).1 = .error e) →
          (g.addDependency dependency dependent).2 = g) := by
  have hwf := h.wellFormed
  refine ⟨hwf, ?_, hwf.validate_ok, ?_⟩
  · intro a
    have hloop : ¬ g.Edge a a := fun hedge => hwf.acyclic.irrefl hedge rfl
    exact ⟨fun hmem => hloop (hwf.mem_depList_iff.mp hmem), hloop⟩
  · intro dependency dependent
    refine ⟨hwf.addDependency_error_iff dependency dependent, ?_⟩
    intro herror
    rcases g.addDependency_cases dependency dependent with ⟨e, heq, _⟩ | ⟨_, _, _, _, heq⟩
    · rw [heq]
    · rw [heq] at herror
      obtain ⟨e, he⟩ := herror
      contradiction

/-- Three nodes in a chain, with a parallel copy of the second edge. -/
def chain : BuildGraph ℕ :=
  let g := (BuildGraph.new.addNode 10).2
  let g := (g.addNode 20).2
  let g := (g.addNode 30).2
  let g := (g.addDependency 0 1).2
  let g := (g.addDependency 1 2).2
  (g.addDependency 1 2).2

/-- The chain is reached by the operations. -/
theorem chain_built : chain.Built :=
  (((((Built.new.addNode 10).addNode 20).addNode 30).addDependency 0 1).addDependency 1 2)
    |>.addDependency 1 2

/-- On the chain, closing the cycle is refused and leaves the graph as it was. -/
theorem built_graph_invariant_chain :
    chain.validate = .ok () ∧ (chain.addDependency 2 0).2 = chain := by
  have h := built_graph_invariant chain chain_built
  have hcycle : ∃ e, (chain.addDependency 2 0).1 = .error e := ⟨.cycle 2 0, by decide⟩
  exact ⟨h.2.2.1, (h.2.2.2 2 0).2 hcycle⟩

end Forge.Graph.BuildGraph
