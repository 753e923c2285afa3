import Forge.Graph.Built
import Forge.Graph.Merging
import Forge.Graph.Subgraph

/-!
# The induced part of a build graph

The part that is kept has a node for each kept one, in their order, and between two of them
as many edges as there were. The edges are requested again one after the other. No request
is refused, as a cycle of the part would be one of the graph.
-/

namespace Forge.Graph.BuildGraph

open Relation Forge.Common

variable {T : Type*}

/-- The kept dependencies of a node, with their new numbers. -/
def keptDeps (renumber : List (NodeId × NodeId)) (newId : NodeId) (deps : List NodeId) : List (NodeId × NodeId) :=
  (deps.filterMap fun dep => renumber.lookup dep).map fun newDep => (newDep, newId)

/-- The edges between the kept nodes, with their new numbers, in the order in which they are requested. -/
def keptEdges (g : BuildGraph T) (renumber : List (NodeId × NodeId)) (keep : List NodeId) : List (NodeId × NodeId) :=
  keep.flatMap fun id => ((renumber.lookup id).map fun newId => keptDeps renumber newId (g.depList id)).getD []

/-- A graph is the part of another one that consists of some of its nodes, numbered in their order. -/
structure InducedBy (g : BuildGraph T) (keep : List NodeId) (out : BuildGraph T) : Prop where
  len : out.len = keep.length
  ids : ∀ i node, out.node i = some node → node.id = i
  payload : ∀ i id : ℕ, keep[i]? = some id → out.payloadOf i = g.payloadOf id
  edges : ∀ i j a b : ℕ, keep[i]? = some a → keep[j]? = some b →
    (out.dependentList i).count j = (g.dependentList a).count b ∧ (out.depList j).count i = (g.depList b).count a
  inRange : ∀ i j : ℕ, j ∈ out.dependentList i ∨ i ∈ out.depList j → i < out.len ∧ j < out.len
  mirror : ∀ i j : ℕ, (out.depList j).count i = (out.dependentList i).count j

/-! ## The nodes -/

/-- A new node has its payload, and the others keep theirs. -/
theorem payloadOf_addNode (g : BuildGraph T) (payload : T) (i : ℕ) :
    (g.addNode payload).2.payloadOf i = if i = g.len then some payload else g.payloadOf i := by
  rw [payloadOf, node, addNode, len]
  by_cases hi : i < g.nodes.length
  · rw [List.getElem?_append_left hi, if_neg hi.ne]
    rfl
  · rw [List.getElem?_append_right (Nat.le_of_not_lt hi), List.getElem?_singleton]
    have hnone : g.payloadOf i = none := by
      rw [payloadOf, node, List.getElem?_eq_none (Nat.le_of_not_lt hi)]
      rfl
    rw [hnone]
    by_cases heq : i = g.nodes.length
    · rw [if_pos heq, if_pos (by omega)]
      rfl
    · rw [if_neg heq, if_neg (by omega)]
      rfl

/-- The copies of the kept nodes come behind those that are there, and no edge is added. -/
theorem keepNodes_eq {g : BuildGraph T} {keep : List ℕ} (hkeep : ∀ id ∈ keep, id < g.len) (hnodup : keep.Nodup)
    (renumber : List (ℕ × ℕ)) (out : BuildGraph T) :
    (∀ i id, keep[i]? = some id → (g.keepNodes keep renumber out).1.lookup id = some (out.len + i)) ∧
      (∀ id ∉ keep, (g.keepNodes keep renumber out).1.lookup id = renumber.lookup id) ∧
      (g.keepNodes keep renumber out).2.len = out.len + keep.length ∧
      (∀ i id, keep[i]? = some id → (g.keepNodes keep renumber out).2.payloadOf (out.len + i) = g.payloadOf id) ∧
      (∀ i < out.len, (g.keepNodes keep renumber out).2.payloadOf i = out.payloadOf i) ∧
      (g.keepNodes keep renumber out).2.depList = out.depList ∧
      (g.keepNodes keep renumber out).2.dependentList = out.dependentList := by
  induction keep generalizing renumber out with
  | nil => exact ⟨nofun, fun _ _ => rfl, rfl, nofun, fun _ _ => rfl, rfl, rfl⟩
  | cons id keep ih =>
    obtain ⟨hid, hrest⟩ := List.forall_mem_cons.mp hkeep
    obtain ⟨hnew, hnodup⟩ := List.nodup_cons.mp hnodup
    obtain ⟨node, hnode⟩ : ∃ node, g.node id = some node := ⟨_, List.getElem?_eq_getElem hid⟩
    have hstep : g.keepNodes (id :: keep) renumber out =
        g.keepNodes keep ((id, out.len) :: renumber) (out.addNode node.payload).2 := by
      rw [keepNodes, hnode]
      rfl
    obtain ⟨hlookup, hother, hlen, hpayload, hold, hdeps, hdependents⟩ :=
      ih hrest hnodup ((id, out.len) :: renumber) (out.addNode node.payload).2
    rw [len_addNode] at hlookup hlen hpayload hold
    rw [hstep]
    refine ⟨?_, ?_, ?_, ?_, ?_, ?_, ?_⟩
    · intro i x hx
      cases i with
      | zero =>
        obtain rfl := Option.some.inj hx
        rw [hother id hnew, List.lookup_cons, beq_self_eq_true]
        rfl
      | succ i =>
        rw [← Nat.add_assoc, Nat.add_right_comm]
        exact hlookup i x hx
    · intro x hx
      rw [List.mem_cons, not_or] at hx
      rw [hother x hx.2, List.lookup_cons, beq_false_of_ne hx.1]
    · rw [List.length_cons]
      exact hlen.trans (by omega)
    · intro i x hx
      cases i with
      | zero =>
        obtain rfl := Option.some.inj hx
        refine (hold out.len (Nat.lt_succ_self _)).trans ?_
        rw [payloadOf_addNode, if_pos rfl, payloadOf, hnode]
        rfl
      | succ i =>
        rw [← Nat.add_assoc, Nat.add_right_comm]
        exact hpayload i x hx
    · intro i hi
      refine (hold i (Nat.lt_succ_of_lt hi)).trans ?_
      rw [payloadOf_addNode, if_neg hi.ne]
    · exact hdeps.trans (funext (out.depList_addNode _))
    · exact hdependents.trans (funext (out.dependentList_addNode _))

/-! ## The edges -/

/-- When all requests of a node are granted, its kept dependencies are added. -/
theorem keepDeps_eq {renumber : List (ℕ × ℕ)} {newId : ℕ} {deps : List ℕ} {out : BuildGraph T}
    (hok : ∀ result ∈ edgeResults (keptDeps renumber newId deps) out, result = .ok ()) :
    keepDeps renumber newId deps out = some (addEdges (keptDeps renumber newId deps) out) := by
  induction deps generalizing out with
  | nil => rfl
  | cons dep deps ih =>
    rw [keepDeps]
    cases hdep : renumber.lookup dep with
    | none =>
      have hskip : keptDeps renumber newId (dep :: deps) = keptDeps renumber newId deps := by
        rw [keptDeps, List.filterMap_cons, hdep]
        rfl
      rw [hskip] at hok ⊢
      exact ih hok
    | some newDep =>
      have hfirst : keptDeps renumber newId (dep :: deps) = (newDep, newId) :: keptDeps renumber newId deps := by
        rw [keptDeps, List.filterMap_cons, hdep]
        rfl
      rw [hfirst, edgeResults, List.forall_mem_cons] at hok
      rw [hfirst, addEdges, List.foldl_cons, ← addEdges]
      have hnext := ih hok.2
      dsimp only
      revert hnext
      cases hadded : out.addDependency newDep newId with
      | mk result next =>
        rw [hadded] at hok
        obtain rfl : result = .ok () := hok.1
        exact id

/-- When all requests are granted, the kept edges are added. -/
theorem keepEdges_eq {g : BuildGraph T} {renumber : List (ℕ × ℕ)} {keep : List ℕ} {out : BuildGraph T}
    (hok : ∀ result ∈ edgeResults (g.keptEdges renumber keep) out, result = .ok ()) :
    g.keepEdges renumber keep out = some (addEdges (g.keptEdges renumber keep) out) := by
  induction keep generalizing out with
  | nil => rfl
  | cons id keep ih =>
    rw [keepEdges]
    rw [keptEdges, List.flatMap_cons, ← keptEdges] at hok ⊢
    cases hid : renumber.lookup id with
    | none =>
      rw [hid] at hok
      exact ih hok
    | some newId =>
      rw [hid, Option.map_some, Option.getD_some, edgeResults_append, List.forall_mem_append] at hok
      rw [Option.map_some, Option.getD_some, addEdges_append]
      dsimp only
      rw [keepDeps_eq hok.1, Option.bind_some]
      exact ih hok.2

/-! ## The induced part -/

/-- An edge between kept nodes, by their positions. -/
def KeptEdge (g : BuildGraph T) (keep : List ℕ) (i j : ℕ) : Prop :=
  ∃ a b, keep[i]? = some a ∧ keep[j]? = some b ∧ g.Edge a b

/-- The edges between kept nodes have no cycle. -/
theorem WellFormed.acyclic_keptEdge {g : BuildGraph T} (h : g.WellFormed) (keep : List ℕ) : Acyclic (g.KeptEdge keep) := by
  intro i hcycle
  refine h.acyclic (keep[i]?.getD 0) (TransGen.lift (fun i => keep[i]?.getD 0) ?_ i i hcycle)
  rintro i j ⟨a, b, ha, hb, hedge⟩
  change g.Edge (keep[i]?.getD 0) (keep[j]?.getD 0)
  rw [ha, hb]
  exact hedge

/-- Whether an identifier is that of a kept node, and which. -/
structure Numbers (keep : List ℕ) (renumber : List (ℕ × ℕ)) : Prop where
  kept : ∀ i id, keep[i]? = some id → renumber.lookup id = some i
  other : ∀ id ∉ keep, renumber.lookup id = none

/-- The new number of an identifier is its position. -/
theorem Numbers.lookup_iff {keep : List ℕ} {renumber : List (ℕ × ℕ)} (h : Numbers keep renumber) {id i : ℕ} :
    renumber.lookup id = some i ↔ keep[i]? = some id := by
  refine ⟨fun hlookup => ?_, h.kept i id⟩
  by_cases hid : id ∈ keep
  · obtain ⟨j, hj⟩ := List.mem_iff_getElem?.mp hid
    obtain rfl : i = j := Option.some.inj (hlookup.symm.trans (h.kept j id hj))
    exact hj
  · rw [h.other id hid] at hlookup
    cases hlookup

/-- As many dependencies are kept as there were on a kept node. -/
theorem Numbers.count_keptDeps {keep : List ℕ} {renumber : List (ℕ × ℕ)} (h : Numbers keep renumber) (deps : List ℕ)
    (newId : ℕ) {i a : ℕ} (ha : keep[i]? = some a) :
    ((keptDeps renumber newId deps).map Prod.fst).count i = deps.count a := by
  have hid : (Prod.fst ∘ fun newDep : ℕ => (newDep, newId)) = id := rfl
  rw [keptDeps, List.map_map, hid, List.map_id, List.count, List.countP_filterMap, List.count]
  refine List.countP_congr fun dep _ => ?_
  cases hdep : renumber.lookup dep with
  | none =>
    refine iff_of_false Bool.false_ne_true fun heq => ?_
    obtain rfl := beq_iff_eq.mp heq
    rw [h.kept i dep ha] at hdep
    cases hdep
  | some j =>
    rw [Option.map_some, Option.getD_some, beq_iff_eq, beq_iff_eq]
    constructor
    · rintro rfl
      exact Option.some.inj ((h.lookup_iff.mp hdep).symm.trans ha)
    · rintro rfl
      exact Option.some.inj (hdep.symm.trans (h.kept i dep ha))

/-- The kept dependencies of a node are edges to it. -/
theorem filter_keptDeps (renumber : List (ℕ × ℕ)) (newId j : ℕ) (deps : List ℕ) :
    (keptDeps renumber newId deps).filter (fun edge => edge.2 = j) =
      if newId = j then keptDeps renumber newId deps else [] := by
  have hall : ∀ edge ∈ keptDeps renumber newId deps, edge.2 = newId := by
    intro edge hedge
    obtain ⟨newDep, -, rfl⟩ := List.mem_map.mp hedge
    rfl
  split
  · rename_i heq
    exact List.filter_eq_self.mpr fun edge hedge => decide_eq_true ((hall edge hedge).trans heq)
  · rename_i hne
    exact List.filter_eq_nil_iff.mpr fun edge hedge heq => hne ((hall edge hedge).symm.trans (of_decide_eq_true heq))

/-- The kept edges to a kept node are those for its dependencies. -/
theorem Numbers.filter_keptEdges {keep : List ℕ} {renumber : List (ℕ × ℕ)} (h : Numbers keep renumber)
    (hnodup : keep.Nodup) (g : BuildGraph T) {j b : ℕ} (hb : keep[j]? = some b) :
    (g.keptEdges renumber keep).filter (fun edge => edge.2 = j) = keptDeps renumber j (g.depList b) := by
  have hpart : ∀ id ∈ keep,
      (((renumber.lookup id).map fun newId => keptDeps renumber newId (g.depList id)).getD []).filter
        (fun edge => edge.2 = j) = if id = b then keptDeps renumber j (g.depList b) else [] := by
    intro id hid
    obtain ⟨newId, hnewId⟩ := List.mem_iff_getElem?.mp hid
    rw [h.kept newId id hnewId, Option.map_some, Option.getD_some, filter_keptDeps]
    by_cases heq : newId = j
    · subst heq
      obtain rfl := Option.some.inj (hnewId.symm.trans hb)
      rw [if_pos rfl, if_pos rfl]
    · rw [if_neg heq, if_neg]
      rintro rfl
      exact heq (Option.some.inj ((h.kept newId id hnewId).symm.trans (h.kept j id hb)))
  obtain ⟨earlier, later, rfl⟩ := List.append_of_mem (List.mem_of_getElem? hb)
  obtain ⟨-, hrest, hdisjoint⟩ := List.nodup_append.mp hnodup
  have hnone : ∀ part : List ℕ, (∀ id ∈ part, id ≠ b) →
      part.flatMap (fun id => if id = b then keptDeps renumber j (g.depList b) else []) = [] := fun part hpart =>
    List.flatMap_eq_nil_iff.mpr fun id hid => if_neg (hpart id hid)
  rw [keptEdges, List.filter_flatMap, List.flatMap_congr hpart, List.flatMap_append, List.flatMap_cons,
    hnone earlier fun id hid heq => hdisjoint id hid b List.mem_cons_self heq,
    hnone later fun id hid heq => (List.nodup_cons.mp hrest).1 (heq ▸ hid), if_pos rfl, List.append_nil, List.nil_append]

/-- Keeping different nodes of the graph makes the induced part. -/
theorem WellFormed.subgraph_inducedBy {g : BuildGraph T} (h : g.WellFormed) {keep : List ℕ} (hnodup : keep.Nodup)
    (hkeep : ∀ id ∈ keep, id < g.len) : ∃ out, g.subgraph keep = some out ∧ g.InducedBy keep out := by
  have hkept := keepNodes_eq hkeep hnodup [] BuildGraph.new
  have hwf := @keepNodes_wellFormed T g _ keep [] (WellFormed.new : (BuildGraph.new : BuildGraph T).WellFormed)
  obtain ⟨renumber, out, hmade⟩ : ∃ renumber out, g.keepNodes keep [] BuildGraph.new = (renumber, out) := ⟨_, _, rfl⟩
  have hzero : (BuildGraph.new : BuildGraph T).len = 0 := rfl
  simp only [hmade, hzero, Nat.zero_add] at hkept hwf
  obtain ⟨hlookup, hother, hlen, hpayload, -, hdeps, -⟩ := hkept
  have hnumbers : Numbers keep renumber := ⟨hlookup, hother⟩
  have hnoDeps : ∀ id, out.depList id = [] := fun id => congrFun hdeps id
  have hnone : ∀ i j, out.Edge i j → g.KeptEdge keep i j := by
    intro i j hedge
    rw [← hwf.mem_depList_iff, hnoDeps] at hedge
    cases hedge
  have hrequests : ∀ edge ∈ g.keptEdges renumber keep,
      edge.1 < out.len ∧ edge.2 < out.len ∧ g.KeptEdge keep edge.1 edge.2 := by
    intro edge hedge
    obtain ⟨b, hmem, hedge⟩ := List.mem_flatMap.mp hedge
    obtain ⟨j, hj⟩ := List.mem_iff_getElem?.mp hmem
    rw [hlookup j b hj, Option.map_some, Option.getD_some] at hedge
    obtain ⟨i, hi, rfl⟩ := List.mem_map.mp hedge
    obtain ⟨a, hdep, ha⟩ := List.mem_filterMap.mp hi
    rw [hnumbers.lookup_iff] at ha
    rw [hlen]
    exact ⟨(List.getElem?_eq_some_iff.mp ha).1, (List.getElem?_eq_some_iff.mp hj).1, a, b, ha, hj,
      h.mem_depList_iff.mp hdep⟩
  obtain ⟨hadds, hok⟩ := hwf.addEdges (h.acyclic_keptEdge keep) hnone hrequests
  have hsubgraph : g.subgraph keep = some (BuildGraph.addEdges (g.keptEdges renumber keep) out) := by
    rw [subgraph, hmade]
    exact keepEdges_eq hok
  refine ⟨_, hsubgraph, ?_⟩
  obtain ⟨part, hpart⟩ : ∃ part, part = BuildGraph.addEdges (g.keptEdges renumber keep) out := ⟨_, rfl⟩
  rw [← hpart] at hadds ⊢
  have hwf' := hadds.wellFormed
  have hcount : ∀ i j a b : ℕ, keep[i]? = some a → keep[j]? = some b →
      (part.depList j).count i = (g.depList b).count a := by
    intro i j a b ha hb
    rw [hadds.deps, hnoDeps, List.nil_append, hnumbers.filter_keptEdges hnodup g hb, hnumbers.count_keptDeps _ _ ha]
  refine ⟨hadds.len_eq.trans hlen, hwf'.ids, fun i id hid => ?_, fun i j a b ha hb => ⟨?_, hcount i j a b ha hb⟩,
    fun i j hedge => ?_, hwf'.mirror⟩
  · rw [payloadOf, node, hadds.nodes]
    exact hpayload i id hid
  · rw [← hwf'.mirror, hcount i j a b ha hb, h.mirror]
  · have hedge : part.Edge i j := hedge.elim id hwf'.mem_depList_iff.mp
    exact ⟨hwf'.edge_left hedge, hwf'.inRange i j hedge⟩

/-- What changes affect is the downstream closure of the nodes that changed, and what is kept of a graph is the part
of it that the kept nodes induce. -/
theorem affectedNodes_subgraph_exact (g : BuildGraph T) (h : g.Built) :
    (∀ changed : List NodeId, (g.affectedNodes changed).Nodup ∧
      ∀ id, id ∈ g.affectedNodes changed ↔ ∃ c ∈ changed, c < g.len ∧ ReflTransGen g.Edge c id) ∧
      ∀ keep : List NodeId, keep.Nodup → (∀ id ∈ keep, id < g.len) →
        ∃ out, g.subgraph keep = some out ∧ g.InducedBy keep out :=
  ⟨fun changed => ⟨(h.wellFormed.affectedNodes_spec changed).1, fun _ => h.wellFormed.mem_affectedNodes_iff⟩,
    fun _ => h.wellFormed.subgraph_inducedBy⟩

/-- The end of the chain, turned round, keeps both parallel edges. -/
theorem affectedNodes_subgraph_exact_chain :
    (∀ id, id ∈ chain.affectedNodes [1] ↔ ReflTransGen chain.Edge 1 id) ∧
      ∃ out, chain.subgraph [2, 1] = some out ∧ (out.dependentList 1).count 0 = 2 := by
  have hexact := affectedNodes_subgraph_exact chain chain_built
  constructor
  · intro id
    rw [(hexact.1 [1]).2 id]
    constructor
    · rintro ⟨c, hc, -, hpath⟩
      exact List.mem_singleton.mp hc ▸ hpath
    · exact fun hpath => ⟨1, List.mem_singleton_self 1, by decide, hpath⟩
  · obtain ⟨out, hout, hinduced⟩ := hexact.2 [2, 1] (by decide) (by decide)
    exact ⟨out, hout, (hinduced.edges 1 0 1 2 rfl rfl).1⟩

end Forge.Graph.BuildGraph
