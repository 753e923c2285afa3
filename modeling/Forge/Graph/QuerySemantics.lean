import Forge.Graph.Built
import Forge.Graph.QueryTraversals
import Mathlib.Data.Finset.Sort

/-!
# The meaning of queries

`Denotes` gives every expression its meaning as a set of nodes, without reference to any
traversal. The meaning is a relation, since a query for some path may be answered by any
shortest path between any connected pair. Evaluation answers with a set the expression
denotes, in whatever order the hash sets are iterated.
-/

namespace Forge.Graph.GraphQueryEngine

open Relation Forge.Common BuildGraph

variable {T : Type*}

/-- `nodes` is what a query for some path from `sources` to `targets` may answer: nothing
exactly when no pair is connected, and else a shortest path of one pair. -/
def IsSomePath (g : BuildGraph T) (sources targets nodes : Set ℕ) : Prop :=
  (nodes = ∅ ↔ ∀ a ∈ sources, ∀ b ∈ targets, ¬ ReflTransGen g.DependsOn a b) ∧
    (nodes ≠ ∅ → ∃ a ∈ sources, ∃ b ∈ targets, ∃ path, IsShortestPath g.DependsOn a b path ∧
      nodes = {id | id ∈ path})

/-- The sets an expression denotes. -/
def Denotes (engine : GraphQueryEngine T) : QueryExpr → Set ℕ → Prop
  | .target name, nodes =>
    nodes = {id | ∃ node, engine.graph.node id = some node ∧ engine.nameResolver node.payload = name}
  | .all, nodes => nodes = {id | id < engine.graph.len}
  | .deps inner, nodes =>
    ∃ a, engine.Denotes inner a ∧ nodes = reachSet engine.graph.DependsOn a
  | .rdeps inner, nodes =>
    ∃ a, engine.Denotes inner a ∧ nodes = reachSet engine.graph.Edge a
  | .allPaths source target, nodes =>
    ∃ a b, engine.Denotes source a ∧ engine.Denotes target b ∧
      nodes = {n | ∃ x ∈ a, ∃ y ∈ b, ReflTransGen engine.graph.DependsOn x n ∧
        ReflTransGen engine.graph.DependsOn n y}
  | .somePath source target, nodes =>
    ∃ a b, engine.Denotes source a ∧ engine.Denotes target b ∧ IsSomePath engine.graph a b nodes
  | .filter pattern inner, nodes =>
    ∃ a, engine.Denotes inner a ∧ nodes = {id | id ∈ a ∧ ∃ node, engine.graph.node id = some node ∧
      pattern.toList <:+: (engine.nameResolver node.payload).toList}
  | .union left right, nodes =>
    ∃ a b, engine.Denotes left a ∧ engine.Denotes right b ∧ nodes = a ∪ b
  | .intersect left right, nodes =>
    ∃ a b, engine.Denotes left a ∧ engine.Denotes right b ∧ nodes = a ∩ b

/-- A set that is closed under a relation holds whatever its members reach. -/
theorem reachSet_subset {edge : ℕ → ℕ → Prop} {roots s : Set ℕ} (hroots : roots ⊆ s)
    (hclosed : ∀ a b, edge a b → b ∈ s) : reachSet edge roots ⊆ s := by
  intro b hb
  obtain ⟨a, ha, hpath⟩ := hb
  cases ReflTransGen.cases_tail hpath with
  | inl heq => exact heq ▸ hroots ha
  | inr hlast =>
    obtain ⟨c, _, hedge⟩ := hlast
    exact hclosed c b hedge

/-- A denoted set holds nodes of the graph only. -/
theorem Denotes.lt_len {engine : GraphQueryEngine T} (h : engine.graph.WellFormed) {expr : QueryExpr}
    {nodes : Set ℕ} (hdenotes : engine.Denotes expr nodes) : nodes ⊆ {id | id < engine.graph.len} := by
  induction expr generalizing nodes with
  | target name =>
    rw [hdenotes]
    intro id hid
    obtain ⟨node, hnode, _⟩ := hid
    exact (List.getElem?_eq_some_iff.mp hnode).1
  | all => exact hdenotes.subset
  | deps inner ih =>
    obtain ⟨a, ha, heq⟩ := hdenotes
    rw [heq]
    exact reachSet_subset (ih ha) fun _ _ hedge => h.depList_lt hedge
  | rdeps inner ih =>
    obtain ⟨a, ha, heq⟩ := hdenotes
    rw [heq]
    exact reachSet_subset (ih ha) fun _ _ hedge => h.inRange _ _ hedge
  | allPaths source target ihSource _ =>
    obtain ⟨a, b, ha, _, heq⟩ := hdenotes
    rw [heq]
    intro n hn
    obtain ⟨x, hx, _, _, hpath, _⟩ := hn
    exact reachSet_subset (ihSource ha) (fun _ _ hedge => h.depList_lt hedge) ⟨x, hx, hpath⟩
  | somePath source target ihSource _ =>
    obtain ⟨a, b, ha, _, _, hsome⟩ := hdenotes
    by_cases hempty : nodes = ∅
    · rw [hempty]
      exact Set.empty_subset _
    · obtain ⟨x, hx, _, _, path, hpath, heq⟩ := hsome hempty
      rw [heq]
      intro id hid
      exact reachSet_subset (ihSource ha) (fun _ _ hedge => h.depList_lt hedge)
        ⟨x, hx, hpath.1.reaches_mem hid⟩
  | filter pattern inner ih =>
    obtain ⟨a, ha, heq⟩ := hdenotes
    rw [heq]
    exact fun id hid => ih ha hid.1
  | union left right ihLeft ihRight =>
    obtain ⟨a, b, ha, hb, heq⟩ := hdenotes
    rw [heq]
    exact Set.union_subset (ihLeft ha) (ihRight hb)
  | intersect left right ihLeft _ =>
    obtain ⟨a, b, ha, _, heq⟩ := hdenotes
    rw [heq]
    exact fun id hid => ihLeft ha hid.1

/-- The first connected pair yields a shortest path, and without one nothing is found. -/
theorem isSomePath_findSome {g : BuildGraph T} (h : g.WellFormed) (sources targets : List ℕ)
    (hsources : ∀ id ∈ sources, id < g.len) :
    IsSomePath g {id | id ∈ sources} {id | id ∈ targets}
      ((match sources.findSome? fun source => targets.findSome? fun target =>
          g.findShortestPath source target with
        | some path => path.toFinset
        | none => ∅ : Finset ℕ) : Set ℕ) := by
  have hanswer : ∀ source ∈ sources, ∀ target, g.AnswersPath source target (g.findShortestPath source target) :=
    fun source hsource target => h.findShortestPath_answers (hsources source hsource) target
  cases hfind : sources.findSome? fun source => targets.findSome? fun target =>
    g.findShortestPath source target with
  | none =>
    have hnone : ∀ a ∈ sources, ∀ b ∈ targets, ¬ ReflTransGen g.DependsOn a b := by
      intro a ha b hb
      have hinner := List.findSome?_eq_none_iff.mp (List.findSome?_eq_none_iff.mp hfind a ha) b hb
      have hab := hanswer a ha b
      rw [hinner] at hab
      exact hab
    exact ⟨iff_of_true Finset.coe_empty hnone, fun hne => absurd Finset.coe_empty hne⟩
  | some path =>
    obtain ⟨a, ha, hinner⟩ := List.exists_of_findSome?_eq_some hfind
    obtain ⟨b, hb, hpath⟩ := List.exists_of_findSome?_eq_some hinner
    have hab := hanswer a ha b
    rw [hpath] at hab
    have hnonempty : ((path.toFinset : Finset ℕ) : Set ℕ) ≠ ∅ := by
      have hmem : a ∈ ((path.toFinset : Finset ℕ) : Set ℕ) := by simpa using hab.1.head_mem
      exact Set.Nonempty.ne_empty ⟨a, hmem⟩
    refine ⟨iff_of_false hnonempty fun hall => hall a ha b hb hab.1.reaches, fun _ => ?_⟩
    exact ⟨a, ha, b, hb, path, hab, by ext id; simp⟩

/-- Iterating over a set yields its members. -/
theorem setOf_visit (order : IterationOrder) (pos : List Bool) (nodes : Finset ℕ) :
    {id | id ∈ order.visit pos nodes} = (nodes : Set ℕ) := by
  ext id
  exact order.mem_visit pos nodes id

/-- The identifiers of the selected nodes are those under which they are found. -/
theorem coe_ids_filter {g : BuildGraph T} (h : g.WellFormed) (p : Node T → Bool) :
    ((((g.nodes.filter p).map (·.id)).toFinset : Finset ℕ) : Set ℕ) =
      {id | ∃ node, g.node id = some node ∧ p node = true} := by
  ext id
  simp only [Finset.mem_coe, List.mem_toFinset, List.mem_map, List.mem_filter]
  constructor
  · intro hid
    obtain ⟨node, ⟨hmem, hp⟩, heq⟩ := hid
    obtain ⟨i, hi⟩ := List.mem_iff_getElem?.mp hmem
    have hnode : node.id = i := h.ids i node hi
    exact ⟨node, by rw [← heq, hnode]; exact hi, hp⟩
  · intro hid
    obtain ⟨node, hnode, hp⟩ := hid
    exact ⟨node, ⟨List.mem_of_getElem? hnode, hp⟩, h.ids id node hnode⟩

/-- The pattern test accepts the nodes whose name contains the pattern. -/
theorem nameContains_iff (engine : GraphQueryEngine T) (pattern : String) (id : ℕ) :
    engine.nameContains pattern id = true ↔ ∃ node, engine.graph.node id = some node ∧
      pattern.toList <:+: (engine.nameResolver node.payload).toList := by
  rw [nameContains]
  cases engine.graph.node id with
  | none => simp
  | some node => simp

/-- Evaluation answers with a set the expression denotes, whatever the iteration orders. -/
theorem eval_denotes (engine : GraphQueryEngine T) (h : engine.graph.Built) (order : IterationOrder)
    (expr : QueryExpr) (pos : List Bool) : engine.Denotes expr (engine.eval order expr pos) := by
  have hwf := h.wellFormed
  have hrange : ∀ {e : QueryExpr} {p : List Bool}, engine.Denotes e (engine.eval order e p) →
      ∀ id ∈ order.visit p (engine.eval order e p), id < engine.graph.len := by
    intro e p hdenotes id hid
    exact hdenotes.lt_len hwf ((order.mem_visit p _ id).mp hid)
  induction expr generalizing pos with
  | target name =>
    have htarget := coe_ids_filter hwf fun n => engine.nameResolver n.payload == name
    simp only [beq_iff_eq] at htarget
    exact htarget
  | all =>
    have hall := coe_ids_filter hwf fun _ => true
    rw [List.filter_eq_self.mpr fun _ _ => rfl] at hall
    refine hall.trans ?_
    ext id
    simp [BuildGraph.node, len, List.getElem?_eq_some_iff]
  | deps inner ih =>
    refine ⟨_, ih (false :: pos), ?_⟩
    rw [eval, hwf.foldl_collectTransitiveDeps _ (hrange (ih _)), setOf_visit]
  | rdeps inner ih =>
    refine ⟨_, ih (false :: pos), ?_⟩
    rw [eval, hwf.foldl_collectTransitiveRdeps _ (hrange (ih _)), setOf_visit]
  | allPaths source target ihSource ihTarget =>
    refine ⟨_, _, ihSource (false :: pos), ihTarget (true :: pos), ?_⟩
    rw [eval, hwf.foldl_findAllPathNodes _ _ (hrange (ihSource _))]
    simp only [Finset.coe_empty, Set.empty_union, order.mem_visit]
    rfl
  | somePath source target ihSource ihTarget =>
    refine ⟨_, _, ihSource (false :: pos), ihTarget (true :: pos), ?_⟩
    have hsome := isSomePath_findSome hwf _ (order.visit (true :: pos) (engine.eval order target (true :: pos)))
      (hrange (ihSource (false :: pos)))
    rw [setOf_visit, setOf_visit] at hsome
    exact hsome
  | filter pattern inner ih =>
    refine ⟨_, ih (false :: pos), ?_⟩
    rw [eval, Finset.coe_filter]
    simp only [nameContains_iff, Finset.mem_coe]
  | union left right ihLeft ihRight =>
    exact ⟨_, _, ihLeft (false :: pos), ihRight (true :: pos), by rw [eval, Finset.coe_union]⟩
  | intersect left right ihLeft ihRight =>
    exact ⟨_, _, ihLeft (false :: pos), ihRight (true :: pos), by rw [eval, Finset.coe_inter]⟩

/-- Sets iterated in increasing order. -/
def ascending : IterationOrder where
  visit := fun _ nodes => nodes.sort
  mem_visit := fun _ _ _ => Finset.mem_sort _
  nodup_visit := fun _ nodes => nodes.sort_nodup _

/-- On the chain, a query that nests three traversals answers what it denotes. -/
theorem eval_denotes_chain :
    let engine : GraphQueryEngine ℕ := ⟨chain, fun payload => toString payload⟩
    let expr : QueryExpr :=
      .filter "0" (.union (.somePath (.target "30") (.target "10")) (.rdeps (.deps (.target "20"))))
    engine.Denotes expr (engine.eval ascending expr []) :=
  eval_denotes ⟨chain, fun payload => toString payload⟩ chain_built ascending _ []

end Forge.Graph.GraphQueryEngine
