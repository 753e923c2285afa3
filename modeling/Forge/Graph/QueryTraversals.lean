import Forge.Common.DepthFirst
import Forge.Graph.Query
import Forge.Graph.WellFormed

/-!
# What the traversals of the query engine compute

Each traversal gets one specification lemma. The depth-first visit adds what its start
reaches, the path marking adds exactly the nodes between its two ends, and the search for a
path answers with a shortest one. The fuel never runs out: a visit marks a new node at
every level, the path marking descends in the order of the dependencies, and the search
takes every node from its queue at most once.
-/

namespace Forge.Graph.BuildGraph

open Relation Forge.Common

variable {T : Type*}

/-- `node` lists `dep` among its dependencies. -/
def DependsOn (g : BuildGraph T) (node dep : ℕ) : Prop := dep ∈ g.depList node

/-- In a well-formed graph the dependencies are the edges read backwards. -/
theorem WellFormed.dependsOn_iff {g : BuildGraph T} (h : g.WellFormed) {node dep : ℕ} :
    g.DependsOn node dep ↔ g.Edge dep node :=
  h.mem_depList_iff

/-- A path along dependencies is a path along edges read backwards. -/
theorem WellFormed.dependsOn_path_iff {g : BuildGraph T} (h : g.WellFormed) {a b : ℕ} :
    ReflTransGen g.DependsOn a b ↔ ReflTransGen g.Edge b a := by
  have hswap : g.DependsOn = Function.swap g.Edge := by
    funext a b
    exact propext h.dependsOn_iff
  rw [hswap, reflTransGen_swap]

/-- The dependencies of a node of the graph are found. -/
theorem WellFormed.depsOf_eq {g : BuildGraph T} (h : g.WellFormed) {id : ℕ} (hid : id < g.len) :
    g.depsOf id = .ok (g.depList id) := by
  have hlt : id < g.deps.length := by rw [h.depsLength]; exact hid
  simp [depsOf, depList, List.getElem?_eq_getElem hlt]

/-- The dependents of a node of the graph are found. -/
theorem WellFormed.dependentsOf_eq {g : BuildGraph T} (h : g.WellFormed) {id : ℕ}
    (hid : id < g.len) : g.dependentsOf id = .ok (g.dependentList id) := by
  have hlt : id < g.dependents.length := by rw [h.dependentsLength]; exact hid
  simp [dependentsOf, dependentList, List.getElem?_eq_getElem hlt]

section DepthFirst

variable {neighbours : ℕ → Except GraphError (List ℕ)} {next : ℕ → List ℕ} {n : ℕ}

/-- The nodes a visit has not seen. -/
def unvisited (n : ℕ) (visited : Finset ℕ) : ℕ := (Finset.range n \ visited).card

/-- Visiting a new node leaves one node less to visit. -/
theorem unvisited_insert {visited : Finset ℕ} {id : ℕ} (hid : id < n) (hnew : id ∉ visited) :
    unvisited n (insert id visited) + 1 = unvisited n visited := by
  rw [unvisited, Finset.sdiff_insert]
  exact Finset.card_erase_add_one (by simp [hid, hnew])

/-- A larger visited set leaves fewer nodes to visit. -/
theorem unvisited_mono {visited visited' : Finset ℕ} (h : visited ⊆ visited') :
    unvisited n visited' ≤ unvisited n visited :=
  Finset.card_le_card (Finset.sdiff_subset_sdiff (le_refl _) h)

/-- A visit that starts inside the graph, with fuel for all unvisited nodes, visits its
start. -/
theorem collectTransitive_visit (hok : ∀ id < n, neighbours id = .ok (next id))
    (hrange : ∀ id < n, ∀ b ∈ next id, b < n) (fuel start : ℕ) (visited : Finset ℕ)
    (hstart : start < n) (hfuel : unvisited n visited ≤ fuel) :
    Visit (fun a b => b ∈ next a) (visited : Set ℕ)
      (collectTransitive neighbours fuel start visited) {start} := by
  induction fuel generalizing start visited with
  | zero =>
    have hmem : start ∈ visited := by
      by_contra hnot
      have hpos : 0 < unvisited n visited :=
        Finset.card_pos.mpr ⟨start, by simp [hstart, hnot]⟩
      omega
    exact Visit.skip hmem
  | succ fuel ih =>
    rw [collectTransitive]
    by_cases hmem : start ∈ visited
    · rw [if_pos hmem]
      exact Visit.skip hmem
    · rw [if_neg hmem, hok start hstart]
      have hless := unvisited_insert hstart hmem
      have hnext := Visit.foldl (fun a b => b ∈ next a)
        (fun visited id => collectTransitive neighbours fuel id visited) (fun s => (s : Set ℕ))
        (next start) (insert start visited) fun visited' hsub id hid => by
          apply ih id visited' (hrange start hstart id hid)
          have hmono : unvisited n visited' ≤ unvisited n (insert start visited) :=
            unvisited_mono (Finset.coe_subset.mp hsub)
          omega
      rw [Finset.coe_insert] at hnext
      exact hnext.expand

/-- The fold of visits over a list of roots collects what the roots reach. -/
theorem foldl_collectTransitive (hok : ∀ id < n, neighbours id = .ok (next id))
    (hrange : ∀ id < n, ∀ b ∈ next id, b < n) (roots : List ℕ) (hroots : ∀ id ∈ roots, id < n) :
    ((roots.foldl (fun result id => collectTransitive neighbours (n + 1) id result) ∅ :
      Finset ℕ) : Set ℕ) = reachSet (fun a b => b ∈ next a) {id | id ∈ roots} := by
  have hvisit := Visit.foldl (fun a b => b ∈ next a)
    (fun result id => collectTransitive neighbours (n + 1) id result) (fun s => (s : Set ℕ))
    roots ∅ fun visited' _ id hid => by
      apply collectTransitive_visit hok hrange _ _ _ (hroots id hid)
      have hle : unvisited n visited' ≤ (Finset.range n).card :=
        Finset.card_le_card Finset.sdiff_subset
      rw [Finset.card_range] at hle
      omega
  rw [Finset.coe_empty] at hvisit
  exact hvisit.complete

end DepthFirst

/-- Collecting dependencies from a list of roots gives their reflexive-transitive closure. -/
theorem WellFormed.foldl_collectTransitiveDeps {g : BuildGraph T} (h : g.WellFormed)
    (roots : List ℕ) (hroots : ∀ id ∈ roots, id < g.len) :
    ((roots.foldl (fun result id => g.collectTransitiveDeps id result) ∅ : Finset ℕ) : Set ℕ) =
      reachSet g.DependsOn {id | id ∈ roots} :=
  foldl_collectTransitive (fun _ hid => h.depsOf_eq hid) (fun _ _ _ hb => h.depList_lt hb) roots
    hroots

/-- Collecting dependents from a list of roots gives their reflexive-transitive closure. -/
theorem WellFormed.foldl_collectTransitiveRdeps {g : BuildGraph T} (h : g.WellFormed)
    (roots : List ℕ) (hroots : ∀ id ∈ roots, id < g.len) :
    ((roots.foldl (fun result id => g.collectTransitiveRdeps id result) ∅ : Finset ℕ) : Set ℕ) =
      reachSet g.Edge {id | id ∈ roots} :=
  foldl_collectTransitive (fun _ hid => h.dependentsOf_eq hid)
    (fun _ _ _ hb => h.inRange _ _ hb) roots hroots

/-- The nodes on dependency paths between two nodes. -/
def between (g : BuildGraph T) (source target : ℕ) : Set ℕ :=
  {id | ReflTransGen g.DependsOn source id ∧ ReflTransGen g.DependsOn id target}

/-- What one call of the path marking answers and adds. -/
structure MarksPaths (g : BuildGraph T) (source target : ℕ) (before : Finset ℕ)
    (outcome : Bool × Finset ℕ) : Prop where
  found : outcome.1 = true ↔ ReflTransGen g.DependsOn source target
  marked : (outcome.2 : Set ℕ) = (before : Set ℕ) ∪ g.between source target

/-- A node that does not reach the target has nothing in between. -/
theorem between_eq_empty (g : BuildGraph T) {source target : ℕ}
    (h : ¬ ReflTransGen g.DependsOn source target) : g.between source target = ∅ := by
  rw [Set.eq_empty_iff_forall_notMem]
  intro id hid
  exact h (hid.1.trans hid.2)

/-- The nodes between a node and another target are itself and those between its
dependencies and the target, as far as these reach it. -/
theorem between_step (g : BuildGraph T) {current target : ℕ} (hne : current ≠ target) :
    g.between current target = {id | ∃ dep ∈ g.depList current,
      ReflTransGen g.DependsOn dep target ∧ (id = current ∨ id ∈ g.between dep target)} := by
  ext id
  constructor
  · intro hid
    obtain ⟨hbefore, hafter⟩ := hid
    cases reflTransGen_iff_eq_or_head.mp hbefore with
    | inl heq =>
      cases reflTransGen_iff_eq_or_head.mp hafter with
      | inl heq' => exact absurd (heq.trans heq') hne
      | inr hstep =>
        obtain ⟨dep, hdep, hpath⟩ := hstep
        subst heq
        exact ⟨dep, hdep, hpath, Or.inl rfl⟩
    | inr hstep =>
      obtain ⟨dep, hdep, hpath⟩ := hstep
      exact ⟨dep, hdep, hpath.trans hafter, Or.inr ⟨hpath, hafter⟩⟩
  · intro hid
    obtain ⟨dep, hdep, hreach, hwhere⟩ := hid
    cases hwhere with
    | inl heq =>
      subst heq
      exact ⟨.refl, .head hdep hreach⟩
    | inr hbetween => exact ⟨.head hdep hbetween.1, hbetween.2⟩

/-- A union over a list takes its first member apart. -/
theorem setOf_exists_mem_cons (P : ℕ → ℕ → Prop) (a : ℕ) (l : List ℕ) :
    {id | ∃ b ∈ a :: l, P b id} = {id | P a id} ∪ {id | ∃ b ∈ l, P b id} := by
  ext id
  simp

/-- Marking along a list of dependencies adds up what each of them contributes. -/
theorem foldl_allPathNodesRec (g : BuildGraph T) (current target fuel : ℕ) (deps : List ℕ)
    (hdeps : ∀ dep ∈ deps, ∀ before,
      g.MarksPaths dep target before (allPathNodesRec g target fuel dep before))
    (onPath : Bool) (result : Finset ℕ) :
    let outcome := deps.foldl (fun (onPath, result) dep =>
      let (found, result) := allPathNodesRec g target fuel dep result
      if found then (true, insert current result) else (onPath, result)) (onPath, result)
    (outcome.1 = true ↔ onPath = true ∨ ∃ dep ∈ deps, ReflTransGen g.DependsOn dep target) ∧
      (outcome.2 : Set ℕ) = (result : Set ℕ) ∪ {id | ∃ dep ∈ deps,
        ReflTransGen g.DependsOn dep target ∧ (id = current ∨ id ∈ g.between dep target)} := by
  induction deps generalizing onPath result with
  | nil => simp
  | cons dep deps ih =>
    have hhead := hdeps dep List.mem_cons_self result
    have htail := ih fun d hd => hdeps d (List.mem_cons_of_mem _ hd)
    simp only [List.foldl_cons]
    by_cases hreach : ReflTransGen g.DependsOn dep target
    · rw [if_pos (hhead.found.mpr hreach)]
      obtain ⟨hfound, hmarked⟩ := htail true (insert current (allPathNodesRec g target fuel dep result).2)
      refine ⟨by simp [hfound, hreach], ?_⟩
      have hdep : {id | ReflTransGen g.DependsOn dep target ∧ (id = current ∨ id ∈ g.between dep target)} =
          insert current (g.between dep target) := by
        ext id
        simp [hreach]
      rw [hmarked, Finset.coe_insert, hhead.marked, setOf_exists_mem_cons, hdep, Set.insert_union,
        Set.insert_union, Set.union_insert, Set.union_assoc]
    · rw [if_neg (mt hhead.found.mp hreach)]
      obtain ⟨hfound, hmarked⟩ := htail onPath (allPathNodesRec g target fuel dep result).2
      refine ⟨by simp [hfound, hreach], ?_⟩
      rw [hmarked, hhead.marked, between_eq_empty g hreach, setOf_exists_mem_cons]
      simp [hreach]

/-- The path marking adds exactly the nodes between its ends. Its fuel covers the nodes
before the current one in the order of the dependencies. -/
theorem WellFormed.allPathNodesRec_marks {g : BuildGraph T} (h : g.WellFormed) (target fuel : ℕ)
    (current : ℕ) (result : Finset ℕ) (hcurrent : current < g.len)
    (hfuel : rank g.Edge (Finset.range g.len) current < fuel) :
    g.MarksPaths current target result (allPathNodesRec g target fuel current result) := by
  induction fuel generalizing current result with
  | zero => exact absurd hfuel (Nat.not_lt_zero _)
  | succ fuel ih =>
    rw [allPathNodesRec]
    by_cases heq : current = target
    · rw [if_pos heq]
      subst heq
      have hself : g.between current current = {current} := by
        ext id
        constructor
        · intro hid
          have hback : ReflTransGen g.Edge current id := h.dependsOn_path_iff.mp hid.2
          exact h.acyclic.antisymm (h.dependsOn_path_iff.mp hid.1) hback
        · intro hid
          rw [Set.mem_singleton_iff.mp hid]
          exact ⟨.refl, .refl⟩
      refine ⟨by simp [ReflTransGen.refl], ?_⟩
      rw [hself, Finset.coe_insert, Set.union_singleton]
    · rw [if_neg heq, h.depsOf_eq hcurrent]
      have hdeps : ∀ dep ∈ g.depList current, ∀ before,
          g.MarksPaths dep target before (allPathNodesRec g target fuel dep before) := by
        intro dep hdep before
        have hlt := h.depList_lt hdep
        have hrank := h.acyclic.rank_lt (Finset.mem_range.mpr hlt) (h.mem_depList_iff.mp hdep)
        exact ih dep before hlt (by omega)
      obtain ⟨hfound, hmarked⟩ := foldl_allPathNodesRec g current target fuel _ hdeps false result
      refine ⟨?_, ?_⟩
      · rw [hfound, reflTransGen_iff_eq_or_head]
        simp [heq, DependsOn]
      · rw [hmarked, between_step g heq]

/-- Path marking over all pairs of two lists collects the nodes between any of them. -/
theorem WellFormed.foldl_findAllPathNodes {g : BuildGraph T} (h : g.WellFormed)
    (sources targets : List ℕ) (hsources : ∀ id ∈ sources, id < g.len) (result : Finset ℕ) :
    ((sources.foldl (fun result source => targets.foldl (fun result target =>
        (g.findAllPathNodes source target result).2) result) result : Finset ℕ) : Set ℕ) =
      (result : Set ℕ) ∪ {id | ∃ source ∈ sources, ∃ target ∈ targets, id ∈ g.between source target} := by
  have hmarks : ∀ source < g.len, ∀ target result,
      ((g.findAllPathNodes source target result).2 : Set ℕ) =
        (result : Set ℕ) ∪ g.between source target := by
    intro source hsource target result
    have hrank := h.acyclic.rank_lt_card (Finset.mem_range.mpr hsource)
    rw [Finset.card_range] at hrank
    exact (h.allPathNodesRec_marks target _ source result hsource (by omega)).marked
  have hinner : ∀ source < g.len, ∀ result : Finset ℕ,
      ((targets.foldl (fun result target => (g.findAllPathNodes source target result).2) result :
        Finset ℕ) : Set ℕ) =
        (result : Set ℕ) ∪ {id | ∃ target ∈ targets, id ∈ g.between source target} := by
    intro source hsource result
    induction targets generalizing result with
    | nil => simp
    | cons target targets ih =>
      rw [List.foldl_cons, ih, hmarks source hsource, setOf_exists_mem_cons, ← Set.union_assoc]
      rfl
  induction sources generalizing result with
  | nil => simp
  | cons source sources ih =>
    rw [List.foldl_cons, ih fun id hid => hsources id (List.mem_cons_of_mem _ hid),
      hinner source (hsources source List.mem_cons_self), setOf_exists_mem_cons, ← Set.union_assoc]

section ShortestPath

/-- Scanning the dependencies of the current node keeps the search layered, and pays for
every queued node with an unvisited one. -/
theorem WellFormed.scanDeps_layered {g : BuildGraph T} (h : g.WellFormed) {root current : ℕ}
    (done : Finset ℕ) (deps : List ℕ) (depth : ℕ → ℕ) (search : PathSearch)
    (hlayered : Layered g.DependsOn root depth search.parent search.visited done search.queue current
      deps)
    (hcurrent : current ∈ search.visited) (hdeps : ∀ dep ∈ deps, g.DependsOn current dep) :
    (∃ depth', Layered g.DependsOn root depth' (scanDeps current deps search).parent
      (scanDeps current deps search).visited done (scanDeps current deps search).queue current []) ∧
      (scanDeps current deps search).queue.length +
        unvisited g.len (scanDeps current deps search).visited =
        search.queue.length + unvisited g.len search.visited := by
  induction deps generalizing depth search with
  | nil => exact ⟨⟨depth, hlayered⟩, rfl⟩
  | cons dep deps ih =>
    have hlater : ∀ d ∈ deps, g.DependsOn current d := fun d hd => hdeps d (List.mem_cons_of_mem _ hd)
    rw [scanDeps]
    by_cases hmem : dep ∈ search.visited
    · rw [if_pos hmem]
      exact ih depth search (hlayered.skip hmem) hcurrent hlater
    · rw [if_neg hmem]
      have hedge := hdeps dep List.mem_cons_self
      obtain ⟨hresult, hwork⟩ := ih _ { queue := search.queue ++ [dep]
                                        visited := insert dep search.visited
                                        parent := Function.update search.parent dep (some current) }
        (hlayered.push hcurrent hedge hmem) (Finset.mem_insert_of_mem hcurrent) hlater
      refine ⟨hresult, hwork.trans ?_⟩
      have hless := unvisited_insert (h.depList_lt hedge) hmem
      simp only [List.length_append, List.length_singleton]
      omega

/-- Scanning dependencies visits nodes of the graph only. -/
theorem WellFormed.scanDeps_lt {g : BuildGraph T} (h : g.WellFormed) {current : ℕ} (search : PathSearch)
    (hrange : ∀ id ∈ search.visited, id < g.len) (deps : List ℕ)
    (hdeps : ∀ dep ∈ deps, g.DependsOn current dep) :
    ∀ id ∈ (scanDeps current deps search).visited, id < g.len := by
  induction deps generalizing search with
  | nil => exact hrange
  | cons dep deps ih =>
    have hlater : ∀ d ∈ deps, g.DependsOn current d := fun d hd => hdeps d (List.mem_cons_of_mem _ hd)
    rw [scanDeps]
    split
    · exact ih search hrange hlater
    · apply ih _ _ hlater
      intro id hid
      cases Finset.mem_insert.mp hid with
      | inl heq => exact heq ▸ h.depList_lt (hdeps dep List.mem_cons_self)
      | inr hold => exact hrange id hold

/-- What the search answers: a shortest path, or nothing when there is none. -/
def AnswersPath (g : BuildGraph T) (source target : ℕ) : Option (List ℕ) → Prop
  | some path => IsShortestPath g.DependsOn source target path
  | none => ¬ ReflTransGen g.DependsOn source target

/-- Run from a layered state, with fuel for the queued and the unvisited nodes, the search
answers correctly. -/
theorem WellFormed.shortestPathLoop_answers {g : BuildGraph T} (h : g.WellFormed)
    {source target : ℕ} (fuel : ℕ) (depth : ℕ → ℕ) (done : Finset ℕ) (current : ℕ)
    (search : PathSearch)
    (hlayered : Layered g.DependsOn source depth search.parent search.visited done search.queue
      current [])
    (hmissed : target ∉ done) (hrange : ∀ id ∈ search.visited, id < g.len)
    (hfuel : search.queue.length + unvisited g.len search.visited ≤ fuel) :
    g.AnswersPath source target (shortestPathLoop g target fuel search) := by
  induction fuel generalizing depth done current search with
  | zero =>
    have hempty : search.queue = [] := List.eq_nil_of_length_eq_zero (by omega)
    rw [hempty] at hlayered
    exact fun hpath => hmissed (hlayered.exhausted hpath)
  | succ fuel ih =>
    obtain ⟨queue, visited, parent⟩ := search
    cases queue with
    | nil => exact fun hpath => hmissed (hlayered.exhausted hpath)
    | cons id queue =>
      simp only [shortestPathLoop]
      by_cases htarget : id = target
      · subst htarget
        rw [if_pos rfl]
        exact hlayered.isShortestPath (le_refl _)
      · have hid : id ∈ visited := hlayered.queued id List.mem_cons_self
        rw [if_neg htarget, h.depsOf_eq (hrange id hid)]
        have hpop := hlayered.pop (g.depList id) fun b hb => hb
        obtain ⟨⟨depth', hnext⟩, hwork⟩ :=
          h.scanDeps_layered (insert id done) (g.depList id) depth ⟨queue, visited, parent⟩ hpop hid
            fun b hb => hb
        apply ih depth' (insert id done) id _ hnext
        · simp [Ne.symm htarget, hmissed]
        · exact h.scanDeps_lt ⟨queue, visited, parent⟩ hrange _ fun b hb => hb
        · simp only [List.length_cons] at hfuel hwork
          omega

/-- The search for a path answers with a shortest one if there is any. -/
theorem WellFormed.findShortestPath_answers {g : BuildGraph T} (h : g.WellFormed)
    {source : ℕ} (hsource : source < g.len) (target : ℕ) :
    g.AnswersPath source target (g.findShortestPath source target) := by
  have hfuel := unvisited_insert hsource (Finset.notMem_empty source)
  have hall : unvisited g.len ∅ = g.len := by simp [unvisited]
  rw [insert_empty_eq] at hfuel
  have hwork : [source].length + unvisited g.len {source} ≤ g.len + 1 := by
    rw [List.length_singleton]
    omega
  exact h.shortestPathLoop_answers _ _ ∅ source ⟨[source], {source}, fun _ => none⟩
    (Layered.start g.DependsOn source) (by simp) (by simpa using hsource) hwork

end ShortestPath

end Forge.Graph.BuildGraph
