import Forge.Project.PackageGraph

/-!
# Which build-order edges survive

A dependency of a build is refused when dependencies for tests that were inserted before it
close a cycle with it. This happens exactly when a dependency for tests is accepted that
closes a cycle with the dependencies of the build, whether they are inserted already or
not. Without dependencies for tests nothing is refused.
-/

namespace Forge.Project

open Relation Forge.Common Forge.Graph BuildGraph

/-! ## One insertion -/

/-- An insertion between two different nodes of a graph. -/
def Insertion.Admissible (i : Insertion) (graph : BuildGraph PackageId) : Prop :=
  i.dependency < graph.len ∧ i.dependent < graph.len ∧ i.dependency ≠ i.dependent

/-- The graph after an insertion. -/
def Insertion.apply (i : Insertion) (graph : BuildGraph PackageId) : BuildGraph PackageId :=
  (graph.addDependency i.dependency i.dependent).2

/-- An insertion that closes a cycle is refused and changes nothing, any other adds its edge. -/
theorem Insertion.apply_cases {i : Insertion} {graph : BuildGraph PackageId} (h : graph.WellFormed)
    (hadmissible : i.Admissible graph) :
    (ReflTransGen graph.Edge i.dependent i.dependency ∧ i.apply graph = graph ∧
      ∃ e, graph.addDependency i.dependency i.dependent = (.error e, graph)) ∨
    (¬ ReflTransGen graph.Edge i.dependent i.dependency ∧
      (i.apply graph).Edge = (fun a b => graph.Edge a b ∨ (a = i.dependency ∧ b = i.dependent)) ∧
      graph.addDependency i.dependency i.dependent = (.ok (), i.apply graph)) := by
  obtain ⟨hdependency, hdependent, hne⟩ := hadmissible
  rcases graph.addDependency_cases i.dependency i.dependent with ⟨e, heq, hwhy⟩ | ⟨-, -, -, hreach, heq⟩
  · have hpath : graph.reaches i.dependent i.dependency = true := by
      rcases hwhy with hwhy | hwhy | hwhy | hwhy
      · exact absurd hdependency (Nat.not_lt.mpr hwhy)
      · exact absurd hdependent (Nat.not_lt.mpr hwhy)
      · exact absurd hwhy hne
      · exact hwhy
    exact .inl ⟨(h.reaches_iff hdependent _).mp hpath, congrArg Prod.snd heq, e, heq⟩
  · have happly : i.apply graph = graph.pushEdge i.dependency i.dependent := congrArg Prod.snd heq
    refine .inr ⟨fun hpath => ?_, ?_, ?_⟩
    · rw [(h.reaches_iff hdependent _).mpr hpath] at hreach
      exact absurd hreach nofun
    · rw [happly]
      exact edge_pushEdge graph (by rw [h.dependentsLength]; exact hdependency)
    · rw [happly]
      exact heq

/-- An insertion keeps the invariant of the graph. -/
theorem Insertion.wellFormed (i : Insertion) {graph : BuildGraph PackageId} (h : graph.WellFormed) :
    (i.apply graph).WellFormed :=
  h.addDependency i.dependency i.dependent

/-- An insertion keeps the nodes. -/
theorem Insertion.nodes (i : Insertion) (graph : BuildGraph PackageId) : (i.apply graph).nodes = graph.nodes :=
  nodes_addDependency graph i.dependency i.dependent

/-- An insertion keeps what is admissible. -/
theorem Insertion.Admissible.apply {j : Insertion} {graph : BuildGraph PackageId} (h : j.Admissible graph)
    (i : Insertion) : j.Admissible (i.apply graph) := by
  unfold Insertion.Admissible BuildGraph.len
  rw [i.nodes]
  exact h

/-- An insertion keeps the edges. -/
theorem Insertion.edge_mono {i : Insertion} {graph : BuildGraph PackageId} (h : graph.WellFormed)
    (hadmissible : i.Admissible graph) {a b : ℕ} (hedge : graph.Edge a b) : (i.apply graph).Edge a b := by
  rcases i.apply_cases h hadmissible with ⟨-, hsame, -⟩ | ⟨-, hadded, -⟩
  · rw [hsame]
    exact hedge
  · rw [hadded]
    exact .inl hedge

/-! ## All insertions -/

/-- What follows the first insertion starts from the graph it leaves. -/
theorem insertAll_cons_graph (i : Insertion) (insertions : List Insertion) (graph : BuildGraph PackageId) :
    (insertAll (i :: insertions) graph).2 = (insertAll insertions (i.apply graph)).2 := by
  rw [insertAll, Insertion.apply]
  cases graph.addDependency i.dependency i.dependent with
  | mk result graph => cases result <;> rfl

/-- The insertions keep the invariant of the graph. -/
theorem insertAll_wellFormed (insertions : List Insertion) {graph : BuildGraph PackageId} (h : graph.WellFormed) :
    (insertAll insertions graph).2.WellFormed := by
  induction insertions generalizing graph with
  | nil => exact h
  | cons i insertions ih =>
    rw [insertAll_cons_graph]
    exact ih (i.wellFormed h)

/-- The insertions keep the nodes. -/
theorem insertAll_nodes (insertions : List Insertion) (graph : BuildGraph PackageId) :
    (insertAll insertions graph).2.nodes = graph.nodes := by
  induction insertions generalizing graph with
  | nil => rfl
  | cons i insertions ih => rw [insertAll_cons_graph, ih, i.nodes]

/-- Every edge was there or was inserted. -/
theorem insertAll_edge_sound {insertions : List Insertion} {graph : BuildGraph PackageId} (h : graph.WellFormed)
    (hadmissible : ∀ i ∈ insertions, i.Admissible graph) {a b : ℕ} (hedge : (insertAll insertions graph).2.Edge a b) :
    graph.Edge a b ∨ ∃ i ∈ insertions, a = i.dependency ∧ b = i.dependent := by
  induction insertions generalizing graph with
  | nil => exact .inl hedge
  | cons i insertions ih =>
    obtain ⟨hfirst, hrest⟩ := List.forall_mem_cons.mp hadmissible
    rw [insertAll_cons_graph] at hedge
    rcases ih (i.wellFormed h) (fun j hj => (hrest j hj).apply i) hedge with hbefore | ⟨j, hj, hend⟩
    · rcases i.apply_cases h hfirst with ⟨-, hsame, -⟩ | ⟨-, hadded, -⟩
      · exact .inl (hsame ▸ hbefore)
      · rw [hadded] at hbefore
        exact hbefore.imp_right fun hend => ⟨i, List.mem_cons_self, hend⟩
    · exact .inr ⟨j, List.mem_cons_of_mem i hj, hend⟩

/-- The insertions keep the edges. -/
theorem insertAll_edge_mono {insertions : List Insertion} {graph : BuildGraph PackageId} (h : graph.WellFormed)
    (hadmissible : ∀ i ∈ insertions, i.Admissible graph) {a b : ℕ} (hedge : graph.Edge a b) :
    (insertAll insertions graph).2.Edge a b := by
  induction insertions generalizing graph with
  | nil => exact hedge
  | cons i insertions ih =>
    obtain ⟨hfirst, hrest⟩ := List.forall_mem_cons.mp hadmissible
    rw [insertAll_cons_graph]
    exact ih (i.wellFormed h) (fun j hj => (hrest j hj).apply i) (Insertion.edge_mono h hfirst hedge)

/-- What is refused was to be inserted. -/
theorem refused_mem {insertions : List Insertion} {graph : BuildGraph PackageId} {i : Insertion}
    (hi : i ∈ (insertAll insertions graph).1) : i ∈ insertions := by
  induction insertions generalizing graph with
  | nil => exact hi
  | cons j insertions ih =>
    rw [insertAll] at hi
    split at hi
    · exact List.mem_cons_of_mem j (ih hi)
    · rcases List.mem_cons.mp hi with rfl | hi
      · exact List.mem_cons_self
      · exact List.mem_cons_of_mem j (ih hi)

/-! ## Harmless dependencies for tests -/

/-- The edges of the build among the insertions. -/
def BuildEdge (insertions : List Insertion) (a b : ℕ) : Prop :=
  ∃ i ∈ insertions, i.isDevOnly = false ∧ a = i.dependency ∧ b = i.dependent

/-- Whenever a dependency for tests is inserted, it closes a cycle with the edges that are there already,
so that it is refused, or it closes none even with all the edges of the build. -/
def Harmless (build : ℕ → ℕ → Prop) : List Insertion → BuildGraph PackageId → Prop
  | [], _ => True
  | i :: insertions, graph =>
    (i.isDevOnly = true → ReflTransGen graph.Edge i.dependent i.dependency ∨
      ¬ ReflTransGen (fun a b => graph.Edge a b ∨ build a b) i.dependent i.dependency) ∧
    Harmless build insertions (i.apply graph)

/-- Without dependencies for tests nothing does harm. -/
theorem harmless_of_build (build : ℕ → ℕ → Prop) {insertions : List Insertion}
    (hbuild : ∀ i ∈ insertions, i.isDevOnly = false) (graph : BuildGraph PackageId) :
    Harmless build insertions graph := by
  induction insertions generalizing graph with
  | nil => exact trivial
  | cons i insertions ih =>
    obtain ⟨hfirst, hrest⟩ := List.forall_mem_cons.mp hbuild
    exact ⟨fun hdev => absurd (hfirst.symm.trans hdev) nofun, ih hrest (i.apply graph)⟩

/-- An insertion that does no harm leaves a graph that closes no cycle with the edges of the build. -/
theorem Insertion.apply_acyclic {i : Insertion} {graph : BuildGraph PackageId} {build : ℕ → ℕ → Prop}
    (h : graph.WellFormed) (hadmissible : i.Admissible graph)
    (hacyclic : Acyclic fun a b => graph.Edge a b ∨ build a b)
    (hbuild : i.isDevOnly = false → build i.dependency i.dependent)
    (hharmless : i.isDevOnly = true → ReflTransGen graph.Edge i.dependent i.dependency ∨
      ¬ ReflTransGen (fun a b => graph.Edge a b ∨ build a b) i.dependent i.dependency) :
    Acyclic fun a b => (i.apply graph).Edge a b ∨ build a b := by
  rcases i.apply_cases h hadmissible with ⟨-, hsame, -⟩ | ⟨hopen, hadded, -⟩
  · rw [hsame]
    exact hacyclic
  · cases hdev : i.isDevOnly with
    | false =>
      refine hacyclic.mono fun a b hedge => ?_
      rw [hadded] at hedge
      rcases hedge with (hedge | ⟨rfl, rfl⟩) | hedge
      · exact .inl hedge
      · exact .inr (hbuild hdev)
      · exact .inr hedge
    | true =>
      have hback := (hharmless hdev).resolve_left hopen
      refine (hacyclic.insert_edge hback).mono fun a b hedge => ?_
      rw [hadded] at hedge
      rcases hedge with (hedge | hnew) | hedge
      · exact .inl (.inl hedge)
      · exact .inr hnew
      · exact .inl (.inr hedge)

/-- An edge of the build is accepted as long as the graph closes no cycle with the build. -/
theorem Insertion.accepted {i : Insertion} {graph : BuildGraph PackageId} {build : ℕ → ℕ → Prop}
    (h : graph.WellFormed) (hadmissible : i.Admissible graph)
    (hacyclic : Acyclic fun a b => graph.Edge a b ∨ build a b) (hbuild : build i.dependency i.dependent) :
    (i.apply graph).Edge i.dependency i.dependent ∧
      graph.addDependency i.dependency i.dependent = (.ok (), i.apply graph) := by
  rcases i.apply_cases h hadmissible with ⟨hpath, -, -⟩ | ⟨-, hadded, hok⟩
  · have hcycle : TransGen (fun a b => graph.Edge a b ∨ build a b) i.dependency i.dependency :=
      TransGen.head' (.inr hbuild) (ReflTransGen.mono (fun _ _ h => Or.inl h) _ _ hpath)
    exact absurd hcycle (hacyclic i.dependency)
  · exact ⟨by rw [hadded]; exact .inr ⟨rfl, rfl⟩, hok⟩

/-- When nothing does harm every edge of the build is there at the end, and only dependencies for tests
are refused. -/
theorem insertAll_of_harmless {insertions : List Insertion} {graph : BuildGraph PackageId} {build : ℕ → ℕ → Prop}
    (h : graph.WellFormed) (hadmissible : ∀ i ∈ insertions, i.Admissible graph)
    (hacyclic : Acyclic fun a b => graph.Edge a b ∨ build a b)
    (hbuild : ∀ i ∈ insertions, i.isDevOnly = false → build i.dependency i.dependent)
    (hharmless : Harmless build insertions graph) :
    (∀ i ∈ insertions, i.isDevOnly = false → (insertAll insertions graph).2.Edge i.dependency i.dependent) ∧
      ∀ i ∈ (insertAll insertions graph).1, i.isDevOnly = true := by
  induction insertions generalizing graph with
  | nil => exact ⟨fun _ hi => absurd hi List.not_mem_nil, fun _ hi => absurd hi List.not_mem_nil⟩
  | cons i insertions ih =>
    obtain ⟨hfirst, hrest⟩ := List.forall_mem_cons.mp hadmissible
    obtain ⟨hbuildFirst, hbuildRest⟩ := List.forall_mem_cons.mp hbuild
    have hlater : ∀ j ∈ insertions, j.Admissible (i.apply graph) := fun j hj => (hrest j hj).apply i
    have hafter := Insertion.apply_acyclic h hfirst hacyclic hbuildFirst hharmless.1
    obtain ⟨hkept, hrefused⟩ := ih (i.wellFormed h) hlater hafter hbuildRest hharmless.2
    constructor
    · rw [insertAll_cons_graph]
      refine List.forall_mem_cons.mpr ⟨fun hdev => ?_, hkept⟩
      exact insertAll_edge_mono (i.wellFormed h) hlater
        (Insertion.accepted h hfirst hacyclic (hbuildFirst hdev)).1
    · rcases i.apply_cases h hfirst with ⟨-, hsame, e, herror⟩ | ⟨-, -, hok⟩
      · have hdev : i.isDevOnly = true := by
          by_contra hnot
          have haccepted := Insertion.accepted h hfirst hacyclic (hbuildFirst (by simpa using hnot))
          rw [herror] at haccepted
          exact absurd (congrArg Prod.fst haccepted.2) nofun
        rw [hsame] at hrefused
        rw [insertAll, herror]
        exact List.forall_mem_cons.mpr ⟨hdev, hrefused⟩
      · rw [insertAll, hok]
        exact hrefused

/-- When every edge of the build is there at the end nothing did harm. -/
theorem harmless_of_kept {insertions : List Insertion} {graph : BuildGraph PackageId} {build : ℕ → ℕ → Prop}
    (h : graph.WellFormed) (hadmissible : ∀ i ∈ insertions, i.Admissible graph)
    (hkept : ∀ a b, build a b → (insertAll insertions graph).2.Edge a b) : Harmless build insertions graph := by
  induction insertions generalizing graph with
  | nil => exact trivial
  | cons i insertions ih =>
    obtain ⟨hfirst, hrest⟩ := List.forall_mem_cons.mp hadmissible
    have hlater : ∀ j ∈ insertions, j.Admissible (i.apply graph) := fun j hj => (hrest j hj).apply i
    rw [insertAll_cons_graph] at hkept
    refine ⟨fun _ => ?_, ih (i.wellFormed h) hlater hkept⟩
    rcases i.apply_cases h hfirst with ⟨hpath, -, -⟩ | ⟨-, hadded, -⟩
    · exact .inl hpath
    · -- All the edges are among those of the final graph, which has no cycle.
      have hfinal : ∀ a b, (graph.Edge a b ∨ build a b) → (insertAll insertions (i.apply graph)).2.Edge a b :=
        fun a b hedge => hedge.elim
          (fun hold => insertAll_edge_mono (i.wellFormed h) hlater (Insertion.edge_mono h hfirst hold)) (hkept a b)
      have hnew : (insertAll insertions (i.apply graph)).2.Edge i.dependency i.dependent :=
        insertAll_edge_mono (i.wellFormed h) hlater (by rw [hadded]; exact .inr ⟨rfl, rfl⟩)
      refine .inr fun hpath => ?_
      exact (insertAll_wellFormed insertions (i.wellFormed h)).acyclic _
        (TransGen.head' hnew (ReflTransGen.mono hfinal _ _ hpath))

/-! ## The insertions of a workspace -/

/-- When a dependency of a member is inserted. -/
theorem insertion?_eq_some_iff {ids : MemberIds} {includeDev : Bool} {dependent : NodeId} {dep : NodeDep}
    {i : Insertion} :
    insertion? ids includeDev dependent dep = some i ↔
      ids.lookup dep.pkg = some i.dependency ∧ i.dependent = dependent ∧ i.dependency ≠ i.dependent ∧
        (!dep.isDevOnly || includeDev) = true ∧ i.isDevOnly = dep.isDevOnly := by
  unfold insertion?
  obtain ⟨dependency, dependent', isDevOnly⟩ := i
  cases hlookup : ids.lookup dep.pkg with
  | none => simp
  | some found =>
    cases hdev : dep.isDevOnly <;> cases includeDev <;>
      simp only [Option.some.injEq, Option.ite_none_left_eq_some, Insertion.mk.injEq, Bool.not_true, Bool.not_false,
        Bool.true_and, Bool.false_and, Bool.or_true, Bool.or_false, Bool.false_eq_true, if_true, if_false] <;>
      grind

namespace Metadata

/-- A dependency between two members, among those that are followed. -/
def Declared (m : Metadata) (followed : NodeDep → Bool) (dependency dependent : PackageId) : Prop :=
  dependency ∈ m.workspaceMembers ∧ dependent ∈ m.workspaceMembers ∧
    ∃ node ∈ m.resolvedNodes, node.id = dependent ∧
      ∃ dep ∈ node.deps, dep.pkg = dependency ∧ followed dep = true

/-- A dependency between two members that is not only declared for tests. -/
def BuildDependency (m : Metadata) : PackageId → PackageId → Prop :=
  m.Declared fun dep => !dep.isDevOnly

/-- What is inserted for a workspace. -/
theorem mem_insertions_iff {m : Metadata} {includeDev : Bool} {i : Insertion} :
    i ∈ m.insertions includeDev ↔
      ∃ node ∈ m.resolvedNodes, m.members.1.lookup node.id = some i.dependent ∧
        ∃ dep ∈ node.deps, m.members.1.lookup dep.pkg = some i.dependency ∧ i.dependency ≠ i.dependent ∧
          (!dep.isDevOnly || includeDev) = true ∧ i.isDevOnly = dep.isDevOnly := by
  unfold insertions
  rw [List.mem_flatMap]
  refine exists_congr fun node => and_congr_right fun _ => ?_
  unfold nodeInsertions
  cases hlookup : m.members.1.lookup node.id with
  | none => simp
  | some dependent =>
    simp only [List.mem_filterMap, insertion?_eq_some_iff, Option.some.injEq]
    constructor
    · rintro ⟨dep, hdep, hpkg, rfl, hrest⟩
      exact ⟨rfl, dep, hdep, hpkg, hrest⟩
    · rintro ⟨rfl, dep, hdep, hpkg, hrest⟩
      exact ⟨dep, hdep, hpkg, rfl, hrest⟩

/-- The nodes of two members are the same only for one member. -/
theorem lookup_inj {m : Metadata} {id id' : PackageId} {n : NodeId} (h : m.members.1.lookup id = some n)
    (h' : m.members.1.lookup id' = some n) : id = id' :=
  Option.some.inj ((m.numbered.payload id n h).symm.trans (m.numbered.payload id' n h'))

/-- The insertions are between two different nodes of the graph. -/
theorem insertions_admissible {m : Metadata} {includeDev : Bool} :
    ∀ i ∈ m.insertions includeDev, i.Admissible m.members.2 := by
  have hrange : ∀ id n, m.members.1.lookup id = some n → n < m.members.2.len := by
    intro id n hlookup
    have hpayload := m.numbered.payload id n hlookup
    by_contra hge
    simp [BuildGraph.node, List.getElem?_eq_none (Nat.le_of_not_lt hge)] at hpayload
  intro i hi
  obtain ⟨node, -, hdependent, dep, -, hdependency, hne, -⟩ := mem_insertions_iff.mp hi
  exact ⟨hrange _ _ hdependency, hrange _ _ hdependent, hne⟩

/-- The edges of the build among the insertions. -/
def buildEdge (m : Metadata) (includeDev : Bool) : ℕ → ℕ → Prop :=
  BuildEdge (m.insertions includeDev)

/-- The edges of the build close no cycle when the dependencies of the build do not. -/
theorem buildEdge_acyclic {m : Metadata} (hacyclic : Acyclic m.BuildDependency) (includeDev : Bool) :
    Acyclic fun a b => m.members.2.Edge a b ∨ m.buildEdge includeDev a b := by
  have hlift : ∀ a b, m.members.2.Edge a b ∨ m.buildEdge includeDev a b →
      m.BuildDependency (((m.members.2.node a).map (·.payload)).getD "")
        (((m.members.2.node b).map (·.payload)).getD "") := by
    rintro a b (hedge | ⟨i, hi, hdev, rfl, rfl⟩)
    · exact absurd hedge (m.numbered.edgeless a b)
    · obtain ⟨node, hnode, hdependent, dep, hdep, hdependency, -, -, hsame⟩ := mem_insertions_iff.mp hi
      rw [m.numbered.payload _ _ hdependency, m.numbered.payload _ _ hdependent]
      exact ⟨m.numbered.member _ _ hdependency, m.numbered.member _ _ hdependent, node, hnode, rfl, dep, hdep, rfl,
        by simp [← hsame, hdev]⟩
  exact fun a hcycle => hacyclic _ (hcycle.lift _ hlift)

/-- Dependencies for tests do no harm in the package graph. -/
def HarmlessDev (m : Metadata) (includeDev : Bool) : Prop :=
  Harmless (m.buildEdge includeDev) (m.insertions includeDev) m.members.2

end Metadata

/-- An edge between the nodes of two packages. -/
def EdgeBetween (graph : BuildGraph PackageId) (dependency dependent : PackageId) : Prop :=
  ∃ a b : ℕ, (graph.node a).map (·.payload) = some dependency ∧ (graph.node b).map (·.payload) = some dependent ∧
    graph.Edge a b

/-- A package graph has an edge for every dependency of the build between two members and none that is
not declared, and without dependencies for tests no insertion was refused. -/
structure KeepsBuildOrder (m : Metadata) (includeDev : Bool) : Prop where
  kept : ∀ dependency dependent, m.BuildDependency dependency dependent →
    EdgeBetween (m.buildGraphWith includeDev).2 dependency dependent
  declared : ∀ dependency dependent, EdgeBetween (m.buildGraphWith includeDev).2 dependency dependent →
    m.Declared (fun dep => !dep.isDevOnly || includeDev) dependency dependent
  accepted : includeDev = false → (m.buildGraphWith includeDev).1 = []

namespace Metadata

/-- The package graph has the nodes of the members. -/
theorem node_buildGraphWith (m : Metadata) (includeDev : Bool) (n : ℕ) :
    (m.buildGraphWith includeDev).2.node n = m.members.2.node n := by
  unfold buildGraphWith BuildGraph.node
  rw [insertAll_nodes]

/-- The nodes of the package graph carry members. -/
theorem payload_mem_workspaceMembers {m : Metadata} {includeDev : Bool} {n : ℕ} {node : Node PackageId}
    (hnode : (m.buildGraphWith includeDev).2.node n = some node) : node.payload ∈ m.workspaceMembers := by
  rw [node_buildGraphWith] at hnode
  have hpayloads : m.members.2.nodes.map (·.payload) = m.workspaceMembers :=
    addMembers_payloads m.workspaceMembers [] BuildGraph.new
  rw [← hpayloads]
  exact List.mem_map.mpr ⟨node, List.mem_of_getElem? hnode, rfl⟩

/-- Every edge of the package graph was inserted. -/
theorem edge_buildGraphWith {m : Metadata} {includeDev : Bool} {a b : ℕ}
    (hedge : (m.buildGraphWith includeDev).2.Edge a b) :
    ∃ i ∈ m.insertions includeDev, a = i.dependency ∧ b = i.dependent :=
  (insertAll_edge_sound m.numbered.wellFormed insertions_admissible hedge).resolve_left (m.numbered.edgeless a b)

/-- Every edge of the package graph is declared. -/
theorem declared_of_edgeBetween {m : Metadata} {includeDev : Bool} {dependency dependent : PackageId}
    (hedge : EdgeBetween (m.buildGraphWith includeDev).2 dependency dependent) :
    m.Declared (fun dep => !dep.isDevOnly || includeDev) dependency dependent := by
  obtain ⟨a, b, ha, hb, hedge⟩ := hedge
  obtain ⟨i, hi, rfl, rfl⟩ := edge_buildGraphWith hedge
  obtain ⟨node, hnode, hnodeId, dep, hdep, hpkg, -, hfollowed, -⟩ := mem_insertions_iff.mp hi
  rw [node_buildGraphWith, m.numbered.payload _ _ hpkg] at ha
  rw [node_buildGraphWith, m.numbered.payload _ _ hnodeId] at hb
  exact ⟨Option.some.inj ha ▸ m.numbered.member _ _ hpkg, Option.some.inj hb ▸ m.numbered.member _ _ hnodeId,
    node, hnode, Option.some.inj hb, dep, hdep, Option.some.inj ha, hfollowed⟩

/-- A dependency of the build is inserted. -/
theorem insertion_of_buildDependency {m : Metadata} (hacyclic : Acyclic m.BuildDependency) (includeDev : Bool)
    {dependency dependent : PackageId} (hneeded : m.BuildDependency dependency dependent) :
    ∃ i ∈ m.insertions includeDev, i.isDevOnly = false ∧ m.members.1.lookup dependency = some i.dependency ∧
      m.members.1.lookup dependent = some i.dependent := by
  have hne : dependency ≠ dependent := hacyclic.irrefl hneeded
  obtain ⟨hdependency, hdependent, node, hnode, rfl, dep, hdep, rfl, hbuild⟩ := hneeded
  obtain ⟨a, ha⟩ := Option.isSome_iff_exists.mp (m.numbered.found _ hdependency)
  obtain ⟨b, hb⟩ := Option.isSome_iff_exists.mp (m.numbered.found _ hdependent)
  have hdev : dep.isDevOnly = false := by simpa using hbuild
  have hnodes : a ≠ b := fun hsame => hne (lookup_inj ha (hsame ▸ hb))
  exact ⟨⟨a, b, dep.isDevOnly⟩, mem_insertions_iff.mpr ⟨node, hnode, hb, dep, hdep, ha, hnodes, by simp [hdev], rfl⟩,
    hdev, ha, hb⟩

/-- Every edge of the build is in the package graph exactly when no dependency for tests does harm. -/
theorem kept_iff {m : Metadata} (hacyclic : Acyclic m.BuildDependency) (includeDev : Bool) :
    (∀ dependency dependent, m.BuildDependency dependency dependent →
      EdgeBetween (m.buildGraphWith includeDev).2 dependency dependent) ↔ m.HarmlessDev includeDev := by
  constructor
  · intro hkept
    refine harmless_of_kept m.numbered.wellFormed insertions_admissible ?_
    rintro _ _ ⟨i, hi, hdev, rfl, rfl⟩
    obtain ⟨node, hnode, hnodeId, dep, hdep, hpkg, -, -, hsame⟩ := mem_insertions_iff.mp hi
    obtain ⟨a, b, ha, hb, hedge⟩ := hkept dep.pkg node.id
      ⟨m.numbered.member _ _ hpkg, m.numbered.member _ _ hnodeId, node, hnode, rfl, dep, hdep, rfl,
        by simp [← hsame, hdev]⟩
    -- The nodes of an edge are those of the members that they carry.
    obtain ⟨j, hj, rfl, rfl⟩ := edge_buildGraphWith hedge
    obtain ⟨node', -, hnodeId', dep', -, hpkg', -⟩ := mem_insertions_iff.mp hj
    rw [node_buildGraphWith, m.numbered.payload _ _ hpkg'] at ha
    rw [node_buildGraphWith, m.numbered.payload _ _ hnodeId'] at hb
    have hleft : i.dependency = j.dependency :=
      Option.some.inj (hpkg.symm.trans (Option.some.inj ha ▸ hpkg'))
    have hright : i.dependent = j.dependent :=
      Option.some.inj (hnodeId.symm.trans (Option.some.inj hb ▸ hnodeId'))
    rw [hleft, hright]
    exact hedge
  · intro hharmless dependency dependent hneeded
    obtain ⟨i, hi, hdev, hpkg, hnode⟩ := insertion_of_buildDependency hacyclic includeDev hneeded
    have hkept := (insertAll_of_harmless m.numbered.wellFormed insertions_admissible
      (buildEdge_acyclic hacyclic includeDev) (fun j hj hdev => ⟨j, hj, hdev, rfl, rfl⟩) hharmless).1 i hi hdev
    refine ⟨i.dependency, i.dependent, ?_, ?_, hkept⟩
    · rw [node_buildGraphWith, m.numbered.payload _ _ hpkg]
    · rw [node_buildGraphWith, m.numbered.payload _ _ hnode]

/-- Without dependencies for tests only edges of the build are inserted. -/
theorem insertions_build {m : Metadata} : ∀ i ∈ m.insertions false, i.isDevOnly = false := by
  intro i hi
  obtain ⟨node, -, -, dep, -, -, -, hfollowed, hsame⟩ := mem_insertions_iff.mp hi
  rw [hsame]
  simpa using hfollowed

/-- Without dependencies for tests nothing does harm. -/
theorem harmlessDev_false (m : Metadata) : m.HarmlessDev false :=
  harmless_of_build _ insertions_build _

/-- Without dependencies for tests nothing is refused. -/
theorem refused_false {m : Metadata} (hacyclic : Acyclic m.BuildDependency) : (m.buildGraphWith false).1 = [] := by
  have hrefused := (insertAll_of_harmless m.numbered.wellFormed insertions_admissible
    (buildEdge_acyclic hacyclic false) (fun j hj hdev => ⟨j, hj, hdev, rfl, rfl⟩) m.harmlessDev_false).2
  refine List.eq_nil_iff_forall_not_mem.mpr fun i hi => ?_
  exact absurd ((insertions_build i (refused_mem hi)).symm.trans (hrefused i hi)) nofun

/-- For a workspace whose dependencies of the build have no cycle, the package graph keeps the build
order exactly when no dependency for tests that is accepted closes a cycle with them. -/
theorem keepsBuildOrder_iff {m : Metadata} (hacyclic : Acyclic m.BuildDependency) (includeDev : Bool) :
    KeepsBuildOrder m includeDev ↔ m.HarmlessDev includeDev := by
  constructor
  · exact fun h => (kept_iff hacyclic includeDev).mp h.kept
  · intro hharmless
    exact
      { kept := (kept_iff hacyclic includeDev).mpr hharmless
        declared := fun _ _ => declared_of_edgeBetween
        accepted := fun hdev => by rw [hdev]; exact refused_false hacyclic }

end Metadata

/-! ## A workspace with a cycle for tests -/

/-- The tests of `core` use `util`, and `util` needs `core`. -/
def sampleNodes : List ResolveNode :=
  [⟨"core", [⟨"util", [.development]⟩]⟩, ⟨"util", [⟨"core", [.normal, .development]⟩]⟩]

/-- A workspace of two members with these dependencies. -/
def sampleMetadata (nodes : List ResolveNode) : Metadata where
  packages := [⟨"core", "core", ["ws", "core", "Cargo.toml"], []⟩, ⟨"util", "util", ["ws", "util", "Cargo.toml"], []⟩]
  workspaceMembers := ["core", "util"]
  resolve := some ⟨nodes⟩
  workspaceRoot := ["ws"]

/-- Only `util` depends on `core`. -/
theorem sampleMetadata_buildDependency {nodes : List ResolveNode} (hnodes : nodes ⊆ sampleNodes)
    {dependency dependent : PackageId} (h : (sampleMetadata nodes).BuildDependency dependency dependent) :
    dependency = "core" ∧ dependent = "util" := by
  obtain ⟨-, -, node, hnode, rfl, dep, hdep, rfl, hbuild⟩ := h
  have hlisted : node ∈ sampleNodes := hnodes hnode
  simp only [sampleNodes, List.mem_cons, List.not_mem_nil, or_false] at hlisted
  rcases hlisted with rfl | rfl
  · obtain rfl := List.mem_singleton.mp hdep
    exact absurd hbuild (by decide)
  · obtain rfl := List.mem_singleton.mp hdep
    exact ⟨rfl, rfl⟩

/-- The dependencies of the build have no cycle, in whatever order they are listed. -/
theorem sampleMetadata_acyclic {nodes : List ResolveNode} (hnodes : nodes ⊆ sampleNodes) :
    Acyclic (sampleMetadata nodes).BuildDependency := by
  intro id hcycle
  obtain ⟨_, hfirst, -⟩ := TransGen.head'_iff.mp hcycle
  obtain ⟨_, -, hlast⟩ := TransGen.tail'_iff.mp hcycle
  have hcore := (sampleMetadata_buildDependency hnodes hfirst).1
  have hutil := (sampleMetadata_buildDependency hnodes hlast).2
  exact absurd (hcore.symm.trans hutil) (by decide)

/-- When `util` is listed first its need is inserted, and the test dependency is refused. -/
theorem keepsBuildOrder_util_first : KeepsBuildOrder (sampleMetadata sampleNodes.reverse) true := by
  have hacyclic : Acyclic (sampleMetadata sampleNodes.reverse).BuildDependency :=
    sampleMetadata_acyclic fun _ => List.mem_reverse.mp
  have hinsertions : (sampleMetadata sampleNodes.reverse).insertions true = [⟨0, 1, false⟩, ⟨1, 0, true⟩] := by
    decide
  refine (Metadata.keepsBuildOrder_iff hacyclic true).mpr ?_
  unfold Metadata.HarmlessDev
  rw [hinsertions]
  exact ⟨nofun, fun _ => .inl (.single (by decide)), trivial⟩

/-- When `core` is listed first its test dependency is accepted, and the need of `util` is lost. -/
theorem not_keepsBuildOrder_core_first :
    Acyclic (sampleMetadata sampleNodes).BuildDependency ∧
      (sampleMetadata sampleNodes).BuildDependency "core" "util" ∧
      ¬ EdgeBetween (sampleMetadata sampleNodes).buildTestGraph "core" "util" ∧
      ¬ KeepsBuildOrder (sampleMetadata sampleNodes) true := by
  have hneeded : (sampleMetadata sampleNodes).BuildDependency "core" "util" :=
    ⟨by decide, by decide, ⟨"util", [⟨"core", [.normal, .development]⟩]⟩, by decide, rfl,
      ⟨"core", [.normal, .development]⟩, List.mem_singleton.mpr rfl, rfl, by decide⟩
  have hgraph : (sampleMetadata sampleNodes).buildTestGraph =
      ⟨[⟨0, "core", .pending⟩, ⟨1, "util", .pending⟩], [[1], []], [[], [0]]⟩ := by decide
  have hlost : ¬ EdgeBetween (sampleMetadata sampleNodes).buildTestGraph "core" "util" := by
    rw [hgraph]
    rintro ⟨a, b, ha, -, hedge⟩
    match a with
    | 0 => exact absurd hedge List.not_mem_nil
    | 1 => exact absurd (Option.some.inj ha) (by decide)
    | a + 2 => exact absurd ha nofun
  exact ⟨sampleMetadata_acyclic fun _ => id, hneeded, hlost, fun h => hlost (h.kept _ _ hneeded)⟩

end Forge.Project
