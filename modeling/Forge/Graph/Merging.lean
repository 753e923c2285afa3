import Forge.Graph.Built

/-!
# What merging makes

Edges that keep within an acyclic relation are all accepted. A caller that adds edges up to
the first that is rejected therefore gets a graph exactly when all of them together close no
cycle, whatever their order. A graph that is merged into another is copied whole: its nodes
come behind those that are there, and every edge is kept with its ends renumbered.
-/

namespace Forge.Graph.BuildGraph

open Relation Forge.Common

variable {T : Type*}

/-- Two acyclic relations that keep within a set and outside of it are acyclic together. -/
theorem acyclic_or {α : Type*} {r s : α → α → Prop} (hr : Acyclic r) (hs : Acyclic s) {p : α → Prop}
    (hout : ∀ a b, r a b → ¬ p a ∧ ¬ p b) (hin : ∀ a b, s a b → p a ∧ p b) : Acyclic fun a b => r a b ∨ s a b := by
  -- A path stays on its side, and is a path of the relation there.
  have hpath : ∀ a b, TransGen (fun a b => r a b ∨ s a b) a b → TransGen r a b ∧ ¬ p b ∨ TransGen s a b ∧ p b := by
    intro a b h
    induction h with
    | single hab =>
      rcases hab with hab | hab
      · exact Or.inl ⟨.single hab, (hout _ _ hab).2⟩
      · exact Or.inr ⟨.single hab, (hin _ _ hab).2⟩
    | tail _ hbc ih =>
      rcases ih with ⟨hab, hb⟩ | ⟨hab, hb⟩ <;> rcases hbc with hbc | hbc
      · exact Or.inl ⟨hab.tail hbc, (hout _ _ hbc).2⟩
      · exact absurd (hin _ _ hbc).1 hb
      · exact absurd hb (hout _ _ hbc).1
      · exact Or.inr ⟨hab.tail hbc, (hin _ _ hbc).2⟩
  intro a hcycle
  rcases hpath a a hcycle with ⟨h, -⟩ | ⟨h, -⟩
  · exact hr a h
  · exact hs a h

/-- Edges into a set keep a relation acyclic that does not lead into or out of it. -/
theorem acyclic_or_into {α : Type*} {r : α → α → Prop} (hr : Acyclic r) {p : α → Prop} (hsame : ∀ a b, r a b → (p a ↔ p b)) :
    Acyclic fun a b => r a b ∨ ¬ p a ∧ p b := by
  -- A path never leaves the set, and one that does not enter it either is a path of the relation.
  have hpath : ∀ a b, TransGen (fun a b => r a b ∨ ¬ p a ∧ p b) a b → TransGen r a b ∧ (p a ↔ p b) ∨ ¬ p a ∧ p b := by
    intro a b h
    induction h with
    | single hab =>
      rcases hab with hab | hab
      · exact Or.inl ⟨.single hab, hsame _ _ hab⟩
      · exact Or.inr hab
    | tail _ hbc ih =>
      rcases ih with ⟨hab, hiff⟩ | ⟨ha, hb⟩ <;> rcases hbc with hbc | ⟨hnb, hc⟩
      · exact Or.inl ⟨hab.tail hbc, hiff.trans (hsame _ _ hbc)⟩
      · exact Or.inr ⟨fun ha => hnb (hiff.mp ha), hc⟩
      · exact Or.inr ⟨ha, (hsame _ _ hbc).mp hb⟩
      · exact absurd hb hnb
  intro a hcycle
  rcases hpath a a hcycle with ⟨h, -⟩ | ⟨ha, hself⟩
  · exact hr a h
  · exact ha hself

/-- Request several dependencies, and ignore which are rejected. -/
def addEdges (edges : List (NodeId × NodeId)) (g : BuildGraph T) : BuildGraph T :=
  edges.foldl (fun g edge => (g.addDependency edge.1 edge.2).2) g

/-- What the requests of several dependencies return, one after the other. -/
def edgeResults : List (NodeId × NodeId) → BuildGraph T → List (Except GraphError Unit)
  | [], _ => []
  | edge :: edges, g =>
    (g.addDependency edge.1 edge.2).1 :: edgeResults edges (g.addDependency edge.1 edge.2).2

/-- Edges are added one part after the other. -/
theorem addEdges_append (edges later : List (NodeId × NodeId)) (g : BuildGraph T) :
    addEdges (edges ++ later) g = addEdges later (addEdges edges g) := List.foldl_append

/-- The requests of two parts are answered one part after the other. -/
theorem edgeResults_append (edges later : List (NodeId × NodeId)) (g : BuildGraph T) :
    edgeResults (edges ++ later) g = edgeResults edges g ++ edgeResults later (addEdges edges g) := by
  induction edges generalizing g with
  | nil => rfl
  | cons edge edges ih =>
    rw [List.cons_append, edgeResults, edgeResults, ih, List.cons_append]
    rfl

/-- A graph with all of several edges added, behind those that were there. -/
structure AddsEdges (g : BuildGraph T) (edges : List (ℕ × ℕ)) (g' : BuildGraph T) : Prop where
  wellFormed : g'.WellFormed
  nodes : g'.nodes = g.nodes
  deps : ∀ id : ℕ, g'.depList id = g.depList id ++ (edges.filter fun edge => edge.2 = id).map Prod.fst
  dependents : ∀ id : ℕ, g'.dependentList id = g.dependentList id ++ (edges.filter fun edge => edge.1 = id).map Prod.snd

/-- The edges of a graph with edges added are those that it had and the new ones. -/
theorem AddsEdges.edge_iff {g g' : BuildGraph T} {edges : List (ℕ × ℕ)} (h : g.AddsEdges edges g') (a b : ℕ) :
    g'.Edge a b ↔ g.Edge a b ∨ (a, b) ∈ edges := by
  rw [Edge, h.dependents, List.mem_append, Edge]
  refine or_congr Iff.rfl ?_
  constructor
  · intro hb
    obtain ⟨edge, hedge, rfl⟩ := List.mem_map.mp hb
    obtain ⟨hmem, ha⟩ := List.mem_filter.mp hedge
    rwa [← of_decide_eq_true ha]
  · intro hmem
    exact List.mem_map.mpr ⟨(a, b), List.mem_filter.mpr ⟨hmem, decide_eq_true rfl⟩, rfl⟩

/-- Adding edges keeps the number of nodes. -/
theorem AddsEdges.len_eq {g g' : BuildGraph T} {edges : List (ℕ × ℕ)} (h : g.AddsEdges edges g') : g'.len = g.len := by
  rw [len, h.nodes, len]

/-- Adding edges of a relation to a graph with edges of that relation makes one with edges of that relation. -/
theorem AddsEdges.edges_subset {g g' : BuildGraph T} {edges : List (ℕ × ℕ)} (h : g.AddsEdges edges g')
    {r : ℕ → ℕ → Prop} (hgraph : ∀ a b, g.Edge a b → r a b) (hedges : ∀ edge ∈ edges, r edge.1 edge.2) (a b : ℕ)
    (hedge : g'.Edge a b) : r a b := by
  rcases (h.edge_iff a b).mp hedge with hold | hnew
  · exact hgraph a b hold
  · exact hedges (a, b) hnew

/-- What stands behind a list after one more edge, and then some more, were added there. -/
theorem append_filter_cons {l : List ℕ} {edge : ℕ × ℕ} {edges : List (ℕ × ℕ)} (key value : ℕ × ℕ → ℕ) (id : ℕ) :
    (if id = key edge then l ++ [value edge] else l) ++ (edges.filter fun edge => key edge = id).map value =
      l ++ ((edge :: edges).filter fun edge => key edge = id).map value := by
  by_cases hid : id = key edge
  · have hkept : decide (key edge = id) = true := decide_eq_true hid.symm
    rw [if_pos hid, List.filter_cons, if_pos hkept, List.map_cons, List.append_assoc, List.singleton_append]
  · have hskipped : ¬ decide (key edge = id) = true := fun h => hid (of_decide_eq_true h).symm
    rw [if_neg hid, List.filter_cons, if_neg hskipped]

/-- A graph with one more edge, and then further ones, has them all behind those that were there. -/
theorem AddsEdges.cons {g g' : BuildGraph T} (h : g.WellFormed) {edge : ℕ × ℕ} {edges : List (ℕ × ℕ)}
    (hdependency : edge.1 < g.len) (hdependent : edge.2 < g.len) (hadds : (g.pushEdge edge.1 edge.2).AddsEdges edges g') :
    g.AddsEdges (edge :: edges) g' where
  wellFormed := hadds.wellFormed
  nodes := hadds.nodes
  deps := by
    intro id
    rw [hadds.deps, depList_pushEdge g (by rw [h.depsLength]; exact hdependent)]
    exact append_filter_cons Prod.snd Prod.fst id
  dependents := by
    intro id
    rw [hadds.dependents, dependentList_pushEdge g (by rw [h.dependentsLength]; exact hdependency)]
    exact append_filter_cons Prod.fst Prod.snd id

/-- A graph without further edges is that graph. -/
theorem AddsEdges.nil {g : BuildGraph T} (h : g.WellFormed) : g.AddsEdges [] g where
  wellFormed := h
  nodes := rfl
  deps := fun _ => (List.append_nil _).symm
  dependents := fun _ => (List.append_nil _).symm

/-- A dependency request is granted when its edge belongs to an acyclic relation that has those of the graph. -/
theorem WellFormed.addDependency_ok {g : BuildGraph T} (h : g.WellFormed) {r : ℕ → ℕ → Prop} (hr : Acyclic r)
    (hgraph : ∀ a b, g.Edge a b → r a b) {dependency dependent : ℕ} (hdependency : dependency < g.len)
    (hdependent : dependent < g.len) (hedge : r dependency dependent) :
    g.addDependency dependency dependent = (.ok (), g.pushEdge dependency dependent) := by
  rcases g.addDependency_cases dependency dependent with ⟨e, heq, -⟩ | ⟨-, -, -, -, heq⟩
  · have herror : ∃ e, (g.addDependency dependency dependent).1 = .error e := ⟨e, by rw [heq]⟩
    rcases (h.addDependency_error_iff dependency dependent).mp herror with hlen | hlen | hself | hpath
    · exact absurd hdependency (Nat.not_lt_of_le hlen)
    · exact absurd hdependent (Nat.not_lt_of_le hlen)
    · exact absurd hself (hr.irrefl hedge)
    · exact absurd (TransGen.head' hedge (ReflTransGen.mono hgraph _ _ hpath)) (hr dependency)
  · exact heq

/-- Edges of an acyclic relation that has those of the graph are all accepted, in their order. -/
theorem WellFormed.addEdges {g : BuildGraph T} (h : g.WellFormed) {r : ℕ → ℕ → Prop} (hr : Acyclic r)
    (hgraph : ∀ a b, g.Edge a b → r a b) {edges : List (ℕ × ℕ)}
    (hedges : ∀ edge ∈ edges, edge.1 < g.len ∧ edge.2 < g.len ∧ r edge.1 edge.2) :
    g.AddsEdges edges (BuildGraph.addEdges edges g) ∧ ∀ result ∈ edgeResults edges g, result = .ok () := by
  induction edges generalizing g with
  | nil =>
    exact ⟨.nil h, fun result hmem => absurd hmem List.not_mem_nil⟩
  | cons edge edges ih =>
    obtain ⟨⟨hdependency, hdependent, hedge⟩, hrest⟩ := List.forall_mem_cons.mp hedges
    have hok := h.addDependency_ok hr hgraph hdependency hdependent hedge
    have hnext := h.addDependency edge.1 edge.2
    rw [hok] at hnext
    have hpushed := @edge_pushEdge _ g edge.1 edge.2 (by rw [h.dependentsLength]; exact hdependency)
    have hkept : ∀ a b, (g.pushEdge edge.1 edge.2).Edge a b → r a b := by
      rw [hpushed]
      rintro a b (hab | ⟨rfl, rfl⟩)
      · exact hgraph a b hab
      · exact hedge
    obtain ⟨hadds, hresults⟩ := ih hnext hkept hrest
    have hfirst : BuildGraph.addEdges (edge :: edges) g = BuildGraph.addEdges edges (g.pushEdge edge.1 edge.2) := by
      rw [BuildGraph.addEdges, List.foldl_cons, hok, ← BuildGraph.addEdges]
    rw [hfirst, edgeResults, hok]
    exact ⟨.cons h hdependency hdependent hadds, List.forall_mem_cons.mpr ⟨rfl, hresults⟩⟩

/-! ## Edges up to the first that is rejected -/

/-- Add dependencies one after the other, up to the first that is rejected. -/
def requestEdges : List (NodeId × NodeId) → BuildGraph T → Except GraphError (BuildGraph T)
  | [], g => .ok g
  | edge :: edges, g =>
    match g.addDependency edge.1 edge.2 with
    | (.error e, _) => .error e
    | (.ok (), g) => requestEdges edges g

/-- The dependencies of two parts are added one part after the other. -/
theorem requestEdges_append (edges later : List (ℕ × ℕ)) (g : BuildGraph T) :
    requestEdges (edges ++ later) g =
      match requestEdges edges g with
      | .error e => .error e
      | .ok g' => requestEdges later g' := by
  induction edges generalizing g with
  | nil => rfl
  | cons edge edges ih =>
    rw [List.cons_append, requestEdges, requestEdges]
    split
    · rfl
    · exact ih _

/-- When no dependency is rejected all of them were added. -/
theorem WellFormed.requestEdges_adds {g g' : BuildGraph T} (h : g.WellFormed) {edges : List (ℕ × ℕ)}
    (hok : requestEdges edges g = .ok g') : g.AddsEdges edges g' := by
  induction edges generalizing g with
  | nil =>
    obtain rfl := Except.ok.inj hok
    exact .nil h
  | cons edge edges ih =>
    rw [requestEdges] at hok
    rcases g.addDependency_cases edge.1 edge.2 with ⟨e, heq, -⟩ | ⟨hdependency, hdependent, -, hreach, heq⟩
    · rw [heq] at hok
      exact absurd hok nofun
    · rw [heq] at hok
      exact .cons h hdependency hdependent (ih (h.pushEdge hdependency hdependent hreach) hok)

/-- Dependencies of an acyclic relation that has the edges of the graph are not rejected. -/
theorem WellFormed.requestEdges_ok {g : BuildGraph T} (h : g.WellFormed) {r : ℕ → ℕ → Prop} (hr : Acyclic r)
    (hgraph : ∀ a b, g.Edge a b → r a b) {edges : List (ℕ × ℕ)}
    (hedges : ∀ edge ∈ edges, edge.1 < g.len ∧ edge.2 < g.len ∧ r edge.1 edge.2) :
    ∃ g', requestEdges edges g = .ok g' := by
  induction edges generalizing g with
  | nil => exact ⟨g, rfl⟩
  | cons edge edges ih =>
    obtain ⟨⟨hdependency, hdependent, hedge⟩, hrest⟩ := List.forall_mem_cons.mp hedges
    have hok := h.addDependency_ok hr hgraph hdependency hdependent hedge
    have hnext := h.addDependency edge.1 edge.2
    rw [hok] at hnext
    have hkept : ∀ a b, (g.pushEdge edge.1 edge.2).Edge a b → r a b := by
      rw [edge_pushEdge g (by rw [h.dependentsLength]; exact hdependency)]
      rintro a b (hab | ⟨rfl, rfl⟩)
      · exact hgraph a b hab
      · exact hedge
    rw [requestEdges, hok]
    exact ih hnext hkept hrest

/-- No dependency between nodes is rejected exactly when all of them and the edges that were there close no
cycle together. -/
theorem WellFormed.requestEdges_ok_iff {g : BuildGraph T} (h : g.WellFormed) {edges : List (ℕ × ℕ)}
    (hrange : ∀ edge ∈ edges, edge.1 < g.len ∧ edge.2 < g.len) :
    (∃ g', requestEdges edges g = .ok g') ↔ Acyclic fun a b => g.Edge a b ∨ (a, b) ∈ edges := by
  constructor
  · rintro ⟨g', hok⟩
    have hadds := h.requestEdges_adds hok
    exact hadds.wellFormed.acyclic.mono fun a b hedge => (hadds.edge_iff a b).mpr hedge
  · intro hacyclic
    refine h.requestEdges_ok hacyclic (fun a b hedge => Or.inl hedge) fun edge hmem => ?_
    exact ⟨(hrange edge hmem).1, (hrange edge hmem).2, Or.inr hmem⟩

/-! ## Merging as adding edges -/

/-- What the dependency requests of one merged node return. -/
def mergeDepsResults (newIds : List NodeId) (dependent : NodeId) :
    List NodeId → BuildGraph T → List (Except GraphError Unit)
  | [], _ => []
  | dep :: rest, g =>
    match newIds[dep]? with
    | none => []
    | some dependency =>
      (g.addDependency dependency dependent).1 ::
        mergeDepsResults newIds dependent rest (g.addDependency dependency dependent).2

/-- What the dependency requests of all merged nodes return. -/
def mergeEdgesResults (newIds : List NodeId) :
    List (List NodeId × ℕ) → BuildGraph T → List (Except GraphError Unit)
  | [], _ => []
  | (deps, depIdx) :: rest, g =>
    match newIds[depIdx]? with
    | none => []
    | some dependent =>
      mergeDepsResults newIds dependent deps g ++
        match mergeDeps newIds dependent deps g with
        | none => []
        | some g => mergeEdgesResults newIds rest g

/-- The results of the dependency requests of a merge, which the merge itself discards. -/
def mergeResults (g other : BuildGraph T) : List (Except GraphError Unit) :=
  let (newIds, g) := mergeNodes other.nodes [] g
  mergeEdgesResults newIds other.deps.zipIdx g

/-- The copied nodes come behind those that are there, and are numbered on. -/
theorem mergeNodes_eq (nodes : List (Node T)) (newIds : List ℕ) (g : BuildGraph T) :
    (mergeNodes nodes newIds g).1 = newIds ++ List.range' g.len nodes.length ∧
      (mergeNodes nodes newIds g).2.nodes =
        g.nodes ++ nodes.mapIdx (fun i node => ⟨g.len + i, node.payload, .pending⟩) ∧
      (∀ id, (mergeNodes nodes newIds g).2.depList id = g.depList id) ∧
      ∀ id, (mergeNodes nodes newIds g).2.dependentList id = g.dependentList id := by
  induction nodes generalizing newIds g with
  | nil => exact ⟨(List.append_nil _).symm, (List.append_nil _).symm, fun _ => rfl, fun _ => rfl⟩
  | cons node nodes ih =>
    obtain ⟨hids, hnodes, hdeps, hdependents⟩ := ih (newIds ++ [g.len]) (g.addNode node.payload).2
    rw [len_addNode] at hids hnodes
    refine ⟨?_, ?_, fun id => ?_, fun id => ?_⟩
    · rw [List.length_cons, List.range'_succ]
      rw [List.append_assoc, List.singleton_append] at hids
      exact hids
    · rw [List.mapIdx_cons]
      refine hnodes.trans ?_
      simp only [addNode, List.append_assoc, List.singleton_append, Nat.add_assoc, Nat.add_comm 1]
      rfl
    · exact (hdeps id).trans (g.depList_addNode node.payload id)
    · exact (hdependents id).trans (g.dependentList_addNode node.payload id)

/-- Re-adding the dependencies of a node requests its renumbered edges. -/
theorem mergeDeps_eq {newIds : List ℕ} {rename : ℕ → ℕ} (dependent : ℕ) {deps : List ℕ} (g : BuildGraph T)
    (hdeps : ∀ dep ∈ deps, newIds[dep]? = some (rename dep)) :
    mergeDeps newIds dependent deps g = some (BuildGraph.addEdges (deps.map fun dep => (rename dep, dependent)) g) ∧
      mergeDepsResults newIds dependent deps g = edgeResults (deps.map fun dep => (rename dep, dependent)) g := by
  induction deps generalizing g with
  | nil => exact ⟨rfl, rfl⟩
  | cons dep deps ih =>
    obtain ⟨hdep, hrest⟩ := List.forall_mem_cons.mp hdeps
    obtain ⟨hmerged, hresults⟩ := ih (g.addDependency (rename dep) dependent).2 hrest
    constructor
    · rw [mergeDeps, hdep]
      exact hmerged
    · rw [mergeDepsResults, hdep, List.map_cons, edgeResults]
      exact congrArg _ hresults

/-- The renumbered edges of several nodes, in the order in which a merge requests them. -/
def renamedEdges (rename : ℕ → ℕ) (entries : List (List ℕ × ℕ)) : List (ℕ × ℕ) :=
  entries.flatMap fun entry => entry.1.map fun dep => (rename dep, rename entry.2)

/-- Re-adding the dependencies of all nodes requests their renumbered edges. -/
theorem mergeEdges_eq {newIds : List ℕ} {rename : ℕ → ℕ} {entries : List (List ℕ × ℕ)} (g : BuildGraph T)
    (hentries : ∀ entry ∈ entries,
      newIds[entry.2]? = some (rename entry.2) ∧ ∀ dep ∈ entry.1, newIds[dep]? = some (rename dep)) :
    mergeEdges newIds entries g = some (BuildGraph.addEdges (renamedEdges rename entries) g) ∧
      mergeEdgesResults newIds entries g = edgeResults (renamedEdges rename entries) g := by
  induction entries generalizing g with
  | nil => exact ⟨rfl, rfl⟩
  | cons entry entries ih =>
    obtain ⟨deps, depIdx⟩ := entry
    obtain ⟨⟨hidx, hdeps⟩, hrest⟩ := List.forall_mem_cons.mp hentries
    obtain ⟨hmerged, hresults⟩ := mergeDeps_eq (rename depIdx) g hdeps
    obtain ⟨hmergedRest, hresultsRest⟩ :=
      ih (BuildGraph.addEdges (deps.map fun dep => (rename dep, rename depIdx)) g) hrest
    rw [renamedEdges, List.flatMap_cons, ← renamedEdges]
    constructor
    · rw [mergeEdges, hidx]
      simp only [hmerged, Option.bind_some]
      rw [hmergedRest, addEdges_append]
    · rw [mergeEdgesResults, hidx, edgeResults_append]
      simp only [hmerged, hresults, hresultsRest]

/-! ## The merged graph -/

/-- Among edges that were renumbered by an offset, those into a node come from its dependencies. -/
theorem filter_renamedEdges (n : ℕ) (deps : List (List ℕ)) (k id : ℕ) :
    ((renamedEdges (n + ·) (deps.zipIdx k)).filter fun edge => edge.2 = id).map Prod.fst =
      if n + k ≤ id then (deps[id - (n + k)]?.getD []).map (n + ·) else [] := by
  induction deps generalizing k with
  | nil => simp [renamedEdges]
  | cons entry deps ih =>
    rw [List.zipIdx_cons, renamedEdges, List.flatMap_cons, ← renamedEdges, List.filter_append, List.map_append, ih]
    by_cases hid : id = n + k
    · have hlater : ¬ n + (k + 1) ≤ id := by omega
      rw [if_neg hlater, if_pos hid.ge, hid, Nat.sub_self]
      simp [List.filter_map, Function.comp_def]
    · have hskipped : ((entry.map fun dep => (n + dep, n + k)).filter fun edge => edge.2 = id) = [] := by
        simp [Ne.symm hid]
      rw [hskipped, List.map_nil, List.nil_append]
      by_cases hle : n + (k + 1) ≤ id
      · have hsub : id - (n + k) = id - (n + (k + 1)) + 1 := by omega
        rw [if_pos hle, if_pos (by omega), hsub, List.getElem?_cons_succ]
      · rw [if_neg hle, if_neg (by omega)]

/-- The disjoint union of two graphs: the nodes and edges of the first as they were, and behind them
fresh pending copies of the nodes of the second with its edges. -/
structure DisjointUnion (g other g' : BuildGraph T) : Prop where
  len : g'.len = g.len + other.len
  kept : ∀ id < g.len, g'.node id = g.node id ∧ g'.depList id = g.depList id ∧ g'.dependentList id = g.dependentList id
  copied : ∀ id < other.len, g'.payloadOf (g.len + id) = other.payloadOf id ∧
    g'.stateOf (g.len + id) = some .pending
  deps : ∀ id : ℕ, g'.depList (g.len + id) = (other.depList id).map (g.len + ·)
  dependents : ∀ id : ℕ, (g'.dependentList (g.len + id)).Perm ((other.dependentList id).map (g.len + ·))

/-- The edges of two graphs side by side. -/
def Beside (g other : BuildGraph T) (a b : ℕ) : Prop :=
  g.Edge a b ∨ (g.len ≤ a ∧ g.len ≤ b ∧ other.Edge (a - g.len) (b - g.len))

/-- Two graphs side by side have no cycle. -/
theorem WellFormed.acyclic_beside {g other : BuildGraph T} (h : g.WellFormed) (hother : other.WellFormed) :
    Acyclic (g.Beside other) := by
  have hshifted : Acyclic fun a b => g.len ≤ a ∧ g.len ≤ b ∧ other.Edge (a - g.len) (b - g.len) := by
    intro a hcycle
    refine hother.acyclic (a - g.len) ?_
    exact TransGen.lift (· - g.len) (fun _ _ hedge => hedge.2.2) _ _ hcycle
  refine @acyclic_or ℕ _ _ h.acyclic hshifted (g.len ≤ ·) (fun a b hedge => ?_) fun a b hedge => ⟨hedge.1, hedge.2.1⟩
  exact ⟨Nat.not_le_of_lt (h.edge_left hedge), Nat.not_le_of_lt (h.inRange a b hedge)⟩

/-- The edges a merge requests are those of the other graph, renumbered. -/
theorem WellFormed.mem_renamedEdges {other : BuildGraph T} (hother : other.WellFormed) {n : ℕ} {edge : ℕ × ℕ}
    (hmem : edge ∈ renamedEdges (n + ·) other.deps.zipIdx) :
    ∃ dep id : ℕ, edge = (n + dep, n + id) ∧ dep < other.len ∧ id < other.len ∧ other.Edge dep id := by
  obtain ⟨⟨deps, id⟩, hentry, hdep⟩ := List.mem_flatMap.mp hmem
  obtain ⟨dep, hin, rfl⟩ := List.mem_map.mp hdep
  rw [List.mem_zipIdx_iff_getElem?] at hentry
  have hedge : other.Edge dep id := by
    rw [← hother.mem_depList_iff, depList, hentry, Option.getD_some]
    exact hin
  exact ⟨dep, id, rfl, hother.edge_left hedge, hother.inRange dep id hedge, hedge⟩


/-- The identifier a merge gives to a node. -/
theorem getElem?_newIds (n : ℕ) {size i : ℕ} (hi : i < size) : (List.range' n size)[i]? = some (n + i) := by
  rw [List.getElem?_range' hi, Nat.one_mul]

/-- The renumbering a merge returns. -/
theorem idMap_eq (n size : ℕ) :
    ((List.range' n size).zipIdx.map fun (newId, oldIdx) => (oldIdx, newId)) = (List.range size).map fun i => (i, n + i) := by
  apply List.ext_getElem?
  intro i
  rw [List.getElem?_map, List.getElem?_map, List.getElem?_zipIdx, Nat.zero_add]
  by_cases hi : i < size
  · rw [getElem?_newIds n hi, List.getElem?_range hi]
    rfl
  · have hge : size ≤ i := Nat.le_of_not_lt hi
    rw [List.getElem?_eq_none (by rw [List.length_range']; exact hge),
      List.getElem?_eq_none (by rw [List.length_range]; exact hge)]
    rfl

/-- What a merge adds to the copied nodes: every request is granted. -/
theorem WellFormed.mergeSubgraph_adds {g other : BuildGraph T} (h : g.WellFormed) (hother : other.WellFormed) :
    ∃ g', g.mergeSubgraph other = some ((List.range other.len).map fun i => (i, g.len + i), g') ∧
      (mergeNodes other.nodes [] g).2.AddsEdges (renamedEdges (g.len + ·) other.deps.zipIdx) g' ∧
      ∀ result ∈ g.mergeResults other, result = .ok () := by
  obtain ⟨hids, hnodes, hdeps, hdependents⟩ := mergeNodes_eq other.nodes [] g
  obtain ⟨hwf, -⟩ := mergeNodes_spec other.nodes [] g h
  rw [List.nil_append] at hids
  have hlen : (mergeNodes other.nodes [] g).2.len = g.len + other.len := by
    rw [len, hnodes, List.length_append, List.length_mapIdx]
    rfl
  have hentries : ∀ entry ∈ other.deps.zipIdx, (mergeNodes other.nodes [] g).1[entry.2]? = some (g.len + entry.2) ∧
      ∀ dep ∈ entry.1, (mergeNodes other.nodes [] g).1[dep]? = some (g.len + dep) := by
    intro entry hentry
    rw [List.mem_zipIdx_iff_getElem?] at hentry
    have hidx : entry.2 < other.nodes.length := by
      rw [← hother.depsLength]
      exact (List.getElem?_eq_some_iff.mp hentry).1
    rw [hids]
    refine ⟨getElem?_newIds g.len hidx, fun dep hdep => ?_⟩
    have hdep : dep < other.nodes.length :=
      hother.depList_lt (show dep ∈ other.depList entry.2 by rw [depList, hentry]; exact hdep)
    exact getElem?_newIds g.len hdep
  obtain ⟨hmerged, hresults⟩ := @mergeEdges_eq _ _ (g.len + ·) _ (mergeNodes other.nodes [] g).2 hentries
  have hrequests : ∀ edge ∈ renamedEdges (g.len + ·) other.deps.zipIdx,
      edge.1 < (mergeNodes other.nodes [] g).2.len ∧ edge.2 < (mergeNodes other.nodes [] g).2.len ∧
        g.Beside other edge.1 edge.2 := by
    intro edge hmem
    obtain ⟨dep, id, rfl, hdep, hid, hedge⟩ := hother.mem_renamedEdges hmem
    rw [hlen]
    refine ⟨Nat.add_lt_add_left hdep _, Nat.add_lt_add_left hid _, Or.inr ⟨Nat.le_add_right _ _, Nat.le_add_right _ _, ?_⟩⟩
    rw [Nat.add_sub_cancel_left, Nat.add_sub_cancel_left]
    exact hedge
  have hkept : ∀ a b, (mergeNodes other.nodes [] g).2.Edge a b → g.Beside other a b := by
    intro a b hedge
    rw [Edge, hdependents] at hedge
    exact Or.inl hedge
  obtain ⟨hadds, hok⟩ := hwf.addEdges (h.acyclic_beside hother) hkept hrequests
  refine ⟨_, ?_, hadds, ?_⟩
  · simp only [BuildGraph.mergeSubgraph, hmerged, Option.map_some]
    rw [hids, idMap_eq]
    rfl
  · simp only [mergeResults, hresults]
    exact hok

/-- Merging makes the disjoint union, and keeps the invariant. -/
theorem WellFormed.mergeSubgraph_union {g other : BuildGraph T} (h : g.WellFormed) (hother : other.WellFormed) :
    ∃ g', g.mergeSubgraph other = some ((List.range other.len).map fun i => (i, g.len + i), g') ∧
      g'.WellFormed ∧ DisjointUnion g other g' ∧ ∀ result ∈ g.mergeResults other, result = .ok () := by
  obtain ⟨g', hmerge, hadds, hok⟩ := h.mergeSubgraph_adds hother
  obtain ⟨-, hnodes, hdeps, hdependents⟩ := mergeNodes_eq other.nodes [] g
  have hnodes' := hadds.nodes.trans hnodes
  have hlen : g'.len = g.len + other.len := by
    rw [len, hnodes', List.length_append, List.length_mapIdx]
    rfl
  have hdepList : ∀ id : ℕ, g'.depList id =
      g.depList id ++ if g.len ≤ id then (other.depList (id - g.len)).map (g.len + ·) else [] := by
    intro id
    rw [hadds.deps, hdeps, filter_renamedEdges g.len other.deps 0 id]
    rfl
  have hcopied : ∀ id : ℕ, g'.depList (g.len + id) = (other.depList id).map (g.len + ·) := by
    intro id
    have hnone : g.depList (g.len + id) = [] := by
      rw [depList, List.getElem?_eq_none (by rw [h.depsLength]; exact Nat.le_add_right _ _)]
      rfl
    rw [hdepList, hnone, if_pos (Nat.le_add_right _ _), Nat.add_sub_cancel_left, List.nil_append]
  have hnode : ∀ id : ℕ, g'.node (g.len + id) =
      (other.node id).map fun node => ⟨g.len + id, node.payload, .pending⟩ := by
    intro id
    have hle : g.nodes.length ≤ g.len + id := Nat.le_add_right _ _
    have hsub : g.len + id - g.nodes.length = id := Nat.add_sub_cancel_left _ _
    rw [node, hnodes', List.getElem?_append_right hle, hsub, List.getElem?_mapIdx]
    rfl
  refine ⟨g', hmerge, hadds.wellFormed, ⟨hlen, fun id hid => ⟨?_, ?_, ?_⟩, fun id hid => ⟨?_, ?_⟩, hcopied, fun id => ?_⟩, hok⟩
  · rw [node, hnodes', List.getElem?_append_left hid]
    rfl
  · rw [hdepList, if_neg (Nat.not_le_of_lt hid), List.append_nil]
  · have hnone : (renamedEdges (g.len + ·) other.deps.zipIdx).filter (fun edge => edge.1 = id) = [] := by
      rw [List.filter_eq_nil_iff]
      intro edge hmem heq
      obtain ⟨dep, dependent, rfl, -⟩ := hother.mem_renamedEdges hmem
      exact absurd hid (Nat.not_lt_of_le (of_decide_eq_true heq ▸ Nat.le_add_right _ _))
    rw [hadds.dependents, hdependents, hnone, List.map_nil, List.append_nil]
  · rw [payloadOf, hnode, Option.map_map]
    rfl
  · have hget : other.node id = some other.nodes[id] := List.getElem?_eq_getElem hid
    rw [stateOf, hnode, hget]
    rfl
  · rw [List.perm_iff_count]
    intro b
    rw [← hadds.wellFormed.mirror]
    by_cases hb : g.len ≤ b
    · obtain ⟨dependent, rfl⟩ := Nat.exists_eq_add_of_le hb
      have hinj : Function.Injective (g.len + ·) := add_right_injective g.len
      rw [hcopied, List.count_map_of_injective _ _ hinj, List.count_map_of_injective _ _ hinj]
      exact hother.mirror id dependent
    · have hleft : g.len + id ∉ g'.depList b := by
        rw [hdepList, if_neg hb, List.append_nil]
        exact fun hmem => absurd (h.depList_lt hmem) (Nat.not_lt_of_le (Nat.le_add_right _ _))
      have hright : b ∉ (other.dependentList id).map (g.len + ·) := by
        intro hmem
        obtain ⟨dependent, -, rfl⟩ := List.mem_map.mp hmem
        exact hb (Nat.le_add_right _ _)
      rw [List.count_eq_zero_of_not_mem hleft, List.count_eq_zero_of_not_mem hright]

/-- Merging two graphs that the operations built makes their disjoint union, and none of the dependency requests
whose results it discards is refused. -/
theorem mergeSubgraph_disjointUnion (g other : BuildGraph T) (h : g.Built) (hother : other.Built) :
    ∃ g', g.mergeSubgraph other = some ((List.range other.len).map fun i => (i, g.len + i), g') ∧
      (∀ result ∈ g.mergeResults other, result = .ok ()) ∧ DisjointUnion g other g' := by
  obtain ⟨g', hmerge, -, hunion, hok⟩ := h.wellFormed.mergeSubgraph_union hother.wellFormed
  exact ⟨g', hmerge, hok, hunion⟩

/-- Merging a copy of the chain into the chain keeps both of its parallel edges. -/
theorem mergeSubgraph_disjointUnion_chain :
    ∃ g', chain.mergeSubgraph chain = some ([(0, 3), (1, 4), (2, 5)], g') ∧ g'.depList 2 = [1, 1] ∧
      g'.depList 5 = [4, 4] := by
  obtain ⟨g', hmerge, -, hunion⟩ := mergeSubgraph_disjointUnion chain chain chain_built chain_built
  have hold : chain.depList 2 = [1, 1] := by decide
  refine ⟨g', hmerge, ?_, ?_⟩
  · rw [(hunion.kept 2 (by decide)).2.1]
    exact hold
  · rw [show (5 : ℕ) = chain.len + 2 from rfl, hunion.deps 2, hold]
    rfl

end Forge.Graph.BuildGraph
