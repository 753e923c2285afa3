import Forge.Common.LongestChains
import Forge.Graph.Lockless
import Mathlib.Data.List.Sort

/-!
# The critical path of the graph of named nodes

The heaviest chain to each node is found by a depth-first search that remembers its results
and keeps the nodes it is still busy with. A node that is met while the search is busy with
it lies on a cycle. The search is called for every node in turn, so a search that never
meets such a node has seen that there is no cycle.
-/

namespace Forge.Graph.Lockless

open Relation Forge.Common

/-- Why there is no critical path. -/
inductive LocklessError where
  | cycle (id : String)
  deriving DecidableEq, Repr

/-- The results that are remembered. -/
abbrev Memo := AList fun _ : String => ℕ × List String

/-- What a search returns: nothing when it ran out of fuel, or an error, or its result with what it remembers and
the nodes it is busy with. -/
abbrev Search (α : Type) := Option (Except LocklessError (α × Memo × List String))

/-- The heaviest path to one of several dependencies, if one weighs more than what was found before. -/
def bestPrefix (visit : String → Memo → List String → Search (ℕ × List String)) :
    List String → ℕ × List String → Memo → List String → Search (ℕ × List String)
  | [], best, memo, visiting => some (.ok (best, memo, visiting))
  | dep :: deps, best, memo, visiting =>
    match visit dep memo visiting with
    | none => none
    | some (.error e) => some (.error e)
    | some (.ok (found, memo, visiting)) =>
      bestPrefix visit deps (if best.1 < found.1 then found else best) memo visiting

/-- The heaviest path to a node, with its weight. -/
def longestPath (nodes : AList fun _ : String => LocklessGraphNode) :
    ℕ → String → Memo → List String → Search (ℕ × List String)
  | 0, _, _, _ => none
  | fuel + 1, id, memo, visiting =>
    match memo.lookup id with
    | some cached => some (.ok (cached, memo, visiting))
    | none =>
      if id ∈ visiting then some (.error (.cycle id))
      else
        match nodes.lookup id with
        | none => some (.ok ((0, [id]), memo, (id :: visiting).erase id))
        | some node =>
          match bestPrefix (longestPath nodes fuel) node.dependencies (0, []) memo (id :: visiting) with
          | none => none
          | some (.error e) => some (.error e)
          | some (.ok (best, memo, visiting)) =>
            let result := (best.1 + node.executionWeight, best.2 ++ [id])
            some (.ok (result, memo.insert id result, visiting.erase id))

/-- The names of the nodes in order. -/
def LocklessDependencyGraph.sortedIds (g : LocklessDependencyGraph) : List String :=
  g.nodes.keys.mergeSort fun a b => decide (a ≤ b)

/-- The heaviest path of the graph, or the cycle that was met first. -/
def LocklessDependencyGraph.computeCriticalPath (g : LocklessDependencyGraph) :
    Option (Except LocklessError (List String)) :=
  match bestPrefix (longestPath g.nodes (g.nodes.keys.length + 1)) g.sortedIds (0, []) ∅ [] with
  | none => none
  | some (.error e) => some (.error e)
  | some (.ok (best, _, _)) => some (.ok best.2)

/-- One node is a dependency of another. -/
def LocklessDependencyGraph.Edge (g : LocklessDependencyGraph) (dependency dependent : String) : Prop :=
  dependency ∈ g.dependenciesOf dependent

open LocklessDependencyGraph

/-! ## The search -/

/-- What is remembered is right, and nothing leads to what is remembered from a cycle. -/
def Remembers (g : LocklessDependencyGraph) (memo : Memo) : Prop :=
  ∀ id found, memo.lookup id = some found → Heaviest g.Edge g.weight id found ∧ Acc g.Edge id

/-- A search meets a cycle, or it comes back with what it was to find. -/
def Outcome {α : Type} (g : LocklessDependencyGraph) (visiting : List String) (good : α → Prop) (result : Search α) :
    Prop :=
  (∃ e, result = some (.error e) ∧ ∃ a, TransGen g.Edge a a) ∨
    ∃ found memo, result = some (.ok (found, memo, visiting)) ∧ Remembers g memo ∧ good found

/-- A search along several nodes finds the heaviest path to one of them. -/
theorem bestPrefix_outcome {g : LocklessDependencyGraph} {visiting : List String}
    {visit : String → Memo → List String → Search (ℕ × List String)} {deps : List String}
    (hvisit : ∀ dep ∈ deps, ∀ memo, Remembers g memo →
      Outcome g visiting (fun found => Heaviest g.Edge g.weight dep found ∧ Acc g.Edge dep) (visit dep memo visiting))
    {before : List String} {best : ℕ × List String} {memo : Memo} (hmemo : Remembers g memo)
    (hbest : HeaviestAmong g.Edge g.weight before best) (hbefore : ∀ dep ∈ before, Acc g.Edge dep) :
    Outcome g visiting
      (fun found => HeaviestAmong g.Edge g.weight (before ++ deps) found ∧ ∀ dep ∈ before ++ deps, Acc g.Edge dep)
      (bestPrefix visit deps best memo visiting) := by
  induction deps generalizing before best memo with
  | nil =>
    rw [List.append_nil]
    exact Or.inr ⟨best, memo, rfl, hmemo, hbest, hbefore⟩
  | cons dep deps ih =>
    obtain ⟨hfirst, hrest⟩ := List.forall_mem_cons.mp hvisit
    rcases hfirst memo hmemo with ⟨e, heq, hcycle⟩ | ⟨found, memo', heq, hmemo', hfound, hacc⟩
    · exact Or.inl ⟨e, by rw [bestPrefix, heq], hcycle⟩
    · have hacc : ∀ x ∈ before ++ [dep], Acc g.Edge x := by
        intro x hx
        rcases List.mem_append.mp hx with hx | hx
        · exact hbefore x hx
        · exact List.mem_singleton.mp hx ▸ hacc
      have hlater := ih hrest hmemo' (hbest.concat hfound) hacc
      rw [List.append_assoc, List.singleton_append] at hlater
      rw [bestPrefix, heq]
      exact hlater

/-- Remembering one more right result. -/
theorem Remembers.insert {g : LocklessDependencyGraph} {memo : Memo} (h : Remembers g memo) {id : String}
    {found : ℕ × List String} (hfound : Heaviest g.Edge g.weight id found) (hacc : Acc g.Edge id) :
    Remembers g (memo.insert id found) := by
  intro x other hx
  by_cases heq : x = id
  · subst heq
    rw [AList.lookup_insert, Option.some.injEq] at hx
    exact hx ▸ ⟨hfound, hacc⟩
  · rw [AList.lookup_insert_ne heq] at hx
    exact h x other hx

/-- The search from a node that leads to all nodes it is busy with finds the heaviest path to the node, or a cycle. -/
theorem longestPath_outcome {g : LocklessDependencyGraph} (fuel : ℕ) (id : String) (memo : Memo)
    (visiting : List String) (hmemo : Remembers g memo) (hvisiting : ∀ v ∈ visiting, TransGen g.Edge id v)
    (hfuel : (g.nodes.keys.filter (· ∉ visiting)).length < fuel) :
    Outcome g visiting (fun found => Heaviest g.Edge g.weight id found ∧ Acc g.Edge id)
      (longestPath g.nodes fuel id memo visiting) := by
  induction fuel generalizing id memo visiting with
  | zero => exact absurd hfuel (Nat.not_lt_zero _)
  | succ fuel ih =>
    rw [longestPath]
    cases hcached : memo.lookup id with
    | some cached => exact Or.inr ⟨cached, memo, rfl, hmemo, hmemo id cached hcached⟩
    | none =>
      by_cases hbusy : id ∈ visiting
      · exact Or.inl ⟨.cycle id, by rw [if_pos hbusy], id, hvisiting id hbusy⟩
      · simp only [if_neg hbusy]
        have herase : (id :: visiting).erase id = visiting := List.erase_cons_head id visiting
        cases hnode : g.nodes.lookup id with
        | none =>
          have hnone : g.getNode id = none := hnode
          have hnodeps : ∀ a, a ∈ ([] : List String) ↔ g.Edge a id := by
            intro a
            rw [Edge, dependenciesOf, hnone]
            rfl
          have hweight : g.weight id = 0 := by
            rw [LocklessDependencyGraph.weight, hnone]
            rfl
          have hheaviest := (HeaviestAmong.nil g.Edge g.weight).snoc hnodeps
          rw [hweight] at hheaviest
          refine Or.inr ⟨(0, [id]), memo, by rw [herase], hmemo, hheaviest, Acc.intro id fun a ha => ?_⟩
          exact absurd ((hnodeps a).mpr ha) List.not_mem_nil
        | some node =>
          have hsome : g.getNode id = some node := hnode
          have hdeps : ∀ a, a ∈ node.dependencies ↔ g.Edge a id := by
            intro a
            rw [Edge, dependenciesOf, hsome]
            rfl
          have hweight : node.executionWeight = g.weight id := by
            rw [LocklessDependencyGraph.weight, hsome]
            rfl
          have hkey : id ∈ g.nodes.keys := AList.lookup_isSome.mp (by rw [hnode]; rfl)
          have hless := length_filter_notMem_lt hkey hbusy
          have hvisit : ∀ dep ∈ node.dependencies, ∀ memo, Remembers g memo →
              Outcome g (id :: visiting) (fun found => Heaviest g.Edge g.weight dep found ∧ Acc g.Edge dep)
                (longestPath g.nodes fuel dep memo (id :: visiting)) := by
            intro dep hdep memo' hmemo'
            have hedge := (hdeps dep).mp hdep
            refine ih dep memo' (id :: visiting) hmemo' ?_ (by omega)
            exact List.forall_mem_cons.mpr ⟨.single hedge, fun v hv => .head hedge (hvisiting v hv)⟩
          have hall := bestPrefix_outcome hvisit hmemo (HeaviestAmong.nil g.Edge g.weight)
            fun dep hdep => absurd hdep List.not_mem_nil
          rw [List.nil_append] at hall
          rcases hall with ⟨e, heq, hcycle⟩ | ⟨best, memo', heq, hmemo', hbest, haccs⟩
          · exact Or.inl ⟨e, by simp only [heq], hcycle⟩
          · have hfound := hbest.snoc hdeps
            have hacc : Acc g.Edge id := Acc.intro id fun a ha => haccs a ((hdeps a).mpr ha)
            refine Or.inr ⟨_, _, by simp only [heq, herase]; rfl, ?_, ?_, hacc⟩
            · rw [hweight]
              exact hmemo'.insert hfound hacc
            · rw [hweight]
              exact hfound

/-! ## The whole graph -/

/-- The search over the whole graph finds a heaviest chain, or there is a cycle. -/
theorem LocklessDependencyGraph.computeCriticalPath_outcome (g : LocklessDependencyGraph) :
    (∃ e, g.computeCriticalPath = some (.error e) ∧ ∃ a, TransGen g.Edge a a) ∨
      ∃ best, g.computeCriticalPath = some (.ok best.2) ∧ HeaviestAmong g.Edge g.weight g.sortedIds best ∧
        ∀ id ∈ g.sortedIds, Acc g.Edge id := by
  have hvisit : ∀ id ∈ g.sortedIds, ∀ memo, Remembers g memo →
      Outcome g [] (fun found => Heaviest g.Edge g.weight id found ∧ Acc g.Edge id)
        (longestPath g.nodes (g.nodes.keys.length + 1) id memo []) := by
    intro id _ memo hmemo
    refine longestPath_outcome _ id memo [] hmemo (fun v hv => absurd hv List.not_mem_nil) ?_
    exact Nat.lt_succ_of_le (List.length_filter_le _ _)
  have hempty : Remembers g ∅ := by
    intro id found hfound
    rw [AList.lookup_empty] at hfound
    exact absurd hfound (by simp)
  have hall := bestPrefix_outcome hvisit hempty (HeaviestAmong.nil g.Edge g.weight)
    fun id hid => absurd hid List.not_mem_nil
  rw [List.nil_append] at hall
  rcases hall with ⟨e, heq, hcycle⟩ | ⟨best, memo, heq, -, hbest, haccs⟩
  · exact Or.inl ⟨e, by rw [computeCriticalPath, heq], hcycle⟩
  · exact Or.inr ⟨best, by rw [computeCriticalPath, heq], hbest, haccs⟩

/-- A name that is not listed has no node. -/
theorem LocklessDependencyGraph.getNode_of_notMem {g : LocklessDependencyGraph} {id : String} (h : id ∉ g.sortedIds) :
    g.getNode id = none := by
  rw [sortedIds, List.mem_mergeSort] at h
  exact AList.lookup_eq_none.mpr h

/-- A node on a dependency edge, at its head, is listed. -/
theorem LocklessDependencyGraph.mem_sortedIds_of_edge {g : LocklessDependencyGraph} {a b : String} (h : g.Edge a b) :
    b ∈ g.sortedIds := by
  by_contra hnot
  have hnone := getNode_of_notMem hnot
  rw [Edge, dependenciesOf, hnone] at h
  exact absurd h List.not_mem_nil

/-- The critical path of every graph that insertions make is refused exactly when the dependencies have a cycle, and
else is a dependency chain that no other one outweighs. -/
theorem computeCriticalPath_optimal (insertions : List Insertion) :
    ∃ result, (insertAll insertions).computeCriticalPath = some result ∧
      ((∃ id, result = .error (.cycle id)) ↔ ∃ a, TransGen (insertAll insertions).Edge a a) ∧
      ∀ path, result = .ok path → path.IsChain (insertAll insertions).Edge ∧
        ∀ l : List String, l.IsChain (insertAll insertions).Edge →
          (l.map (insertAll insertions).weight).sum ≤ (path.map (insertAll insertions).weight).sum := by
  generalize insertAll insertions = g
  rcases g.computeCriticalPath_outcome with ⟨e, heq, hcycle⟩ | ⟨best, heq, hbest, haccs⟩
  · cases e with
    | cycle id => exact ⟨_, heq, iff_of_true ⟨id, rfl⟩ hcycle, fun path hpath => absurd hpath (by simp)⟩
  · refine ⟨_, heq, iff_of_false (fun ⟨id, herror⟩ => absurd herror (by simp)) ?_, fun path hpath => ?_⟩
    · rintro ⟨a, hcycle⟩
      obtain ⟨b, -, hedge⟩ := TransGen.tail'_iff.mp hcycle
      exact not_rel_self_of_acc (haccs a (mem_sortedIds_of_edge hedge)).transGen hcycle
    · obtain rfl := Except.ok.inj hpath
      constructor
      · rcases hbest.chain with hnil | ⟨a, -, hchain⟩
        · rw [hnil]
          exact List.isChain_nil
        · exact (chainTo_iff.mp hchain).1
      · intro l hl
        have hgreatest : weightOf g.weight l ≤ weightOf g.weight best.2 := by
          rw [hbest.weight]
          by_cases hne : l = []
          · subst hne
            exact Nat.zero_le _
          · obtain ⟨b, -, hto⟩ := exists_chainTo hl hne
            by_cases hb : b ∈ g.sortedIds
            · exact hbest.greatest b hb l hto
            · rcases hto.cases_last with rfl | ⟨a, _, hedge, -⟩
              · rw [weightOf_singleton, LocklessDependencyGraph.weight, getNode_of_notMem hb]
                exact Nat.zero_le _
              · exact absurd (mem_sortedIds_of_edge hedge) hb
        exact hgreatest

/-! ## Transitive dependencies -/

/-- Note the dependencies of a node that are new, and put them on the stack. -/
def visitDependencies : List String → List String → List String → List String × List String
  | [], visited, stack => (visited, stack)
  | dep :: deps, visited, stack =>
    if dep ∈ visited then visitDependencies deps visited stack
    else visitDependencies deps (dep :: visited) (dep :: stack)

/-- Note the dependencies of the nodes on a stack, and of those that are put there. -/
def LocklessDependencyGraph.closeDependencies (g : LocklessDependencyGraph) : ℕ → List String → List String → Option (List String)
  | _, [], visited => some visited
  | 0, _ :: _, _ => none
  | fuel + 1, current :: stack, visited =>
    let (visited, stack) := visitDependencies (g.dependenciesOf current) visited stack
    g.closeDependencies fuel stack visited

/-- The nodes that a node depends on, in order. -/
def LocklessDependencyGraph.transitiveDependencies (g : LocklessDependencyGraph) (id : String) : Option (List String) :=
  (g.closeDependencies ((g.sortedIds.flatMap g.dependenciesOf).length + 1) [id] []).map
    (·.mergeSort fun a b => decide (a ≤ b))

/-- What is noted and put on the stack are the new dependencies. -/
theorem visitDependencies_spec (deps visited stack : List String) (hnodup : visited.Nodup) :
    ∃ new, visitDependencies deps visited stack = (new ++ visited, new ++ stack) ∧ (new ++ visited).Nodup ∧
      ∀ a, a ∈ new ++ visited ↔ a ∈ visited ∨ a ∈ deps := by
  induction deps generalizing visited stack with
  | nil => exact ⟨[], rfl, hnodup, by simp⟩
  | cons dep deps ih =>
    rw [visitDependencies]
    split
    · rename_i hdep
      obtain ⟨new, heq, hnew, hmem⟩ := ih visited stack hnodup
      refine ⟨new, heq, hnew, fun a => (hmem a).trans ?_⟩
      by_cases ha : a = dep
      · simp [ha, hdep]
      · simp [ha]
    · rename_i hdep
      obtain ⟨new, heq, hnew, hmem⟩ := ih (dep :: visited) (dep :: stack) (List.nodup_cons.mpr ⟨hdep, hnodup⟩)
      refine ⟨new ++ [dep], by simp [heq], by simpa using hnew, fun a => ?_⟩
      have hiff := hmem a
      simp only [List.mem_append, List.mem_cons, List.not_mem_nil, or_false] at hiff ⊢
      tauto

/-- What is noted leads to the node, and so far only what is on the stack has dependencies that are not noted. -/
structure Closing (g : LocklessDependencyGraph) (id : String) (stack visited : List String) : Prop where
  nodup : visited.Nodup
  sound : ∀ a ∈ visited, TransGen g.Edge a id
  stacked : ∀ a ∈ stack, a = id ∨ a ∈ visited
  closed : ∀ a, a = id ∨ a ∈ visited → a ∈ stack ∨ ∀ b, g.Edge b a → b ∈ visited

/-- With fuel for every dependency the search ends and has noted what the node depends on. -/
theorem Closing.run {g : LocklessDependencyGraph} {id : String} (fuel : ℕ) {stack visited : List String}
    (h : Closing g id stack visited)
    (hfuel : stack.length + (g.sortedIds.flatMap g.dependenciesOf).length ≤ fuel + visited.length) :
    ∃ all, g.closeDependencies fuel stack visited = some all ∧ Closing g id [] all := by
  induction fuel generalizing stack visited with
  | zero =>
    cases stack with
    | nil => exact ⟨visited, rfl, h⟩
    | cons current stack =>
      have hknown : visited ⊆ g.sortedIds.flatMap g.dependenciesOf := by
        intro a ha
        obtain ⟨b, hedge, -⟩ := TransGen.head'_iff.mp (h.sound a ha)
        exact List.mem_flatMap.mpr ⟨b, mem_sortedIds_of_edge hedge, hedge⟩
      have hlength := (h.nodup.subperm hknown).length_le
      simp only [List.length_cons] at hfuel
      omega
  | succ fuel ih =>
    cases stack with
    | nil => exact ⟨visited, rfl, h⟩
    | cons current stack =>
      obtain ⟨new, heq, hnodup, hmem⟩ := visitDependencies_spec (g.dependenciesOf current) visited stack h.nodup
      rw [closeDependencies, heq]
      apply ih
      · have hcurrent := h.stacked current List.mem_cons_self
        constructor
        · exact hnodup
        · intro a ha
          rcases (hmem a).mp ha with hbefore | hdep
          · exact h.sound a hbefore
          · rcases hcurrent with rfl | hvisited
            · exact .single hdep
            · exact .head hdep (h.sound current hvisited)
        · intro a ha
          rcases List.mem_append.mp ha with hnew | hold
          · exact .inr (List.mem_append_left visited hnew)
          · exact (h.stacked a (List.mem_cons_of_mem current hold)).imp_right fun hvisited => (hmem a).mpr (.inl hvisited)
        · intro a ha
          by_cases hcurrent : a = current
          · exact .inr fun b hedge => (hmem b).mpr (.inr (hcurrent ▸ hedge))
          · by_cases hnew : a ∈ new
            · exact .inl (List.mem_append_left stack hnew)
            · have hbefore : a = id ∨ a ∈ visited := ha.imp_right fun hall => (List.mem_append.mp hall).resolve_left hnew
              rcases h.closed a hbefore with hstack | hclosed
              · exact .inl (List.mem_append_right new ((List.mem_cons.mp hstack).resolve_left hcurrent))
              · exact .inr fun b hedge => (hmem b).mpr (.inl (hclosed b hedge))
      · simp only [List.length_append, List.length_cons] at hfuel ⊢
        omega

/-- In every graph, whether it has cycles or not, the transitive dependencies of a node are found, and they are the
nodes from which dependencies lead to it, each of them once. -/
theorem transitiveDependencies_exact (g : LocklessDependencyGraph) (id : String) :
    ∃ deps, g.transitiveDependencies id = some deps ∧ deps.Nodup ∧ ∀ a, a ∈ deps ↔ TransGen g.Edge a id := by
  have hstart : Closing g id [id] [] :=
    ⟨List.nodup_nil, by simp, by simp, fun a ha => .inl (by simpa using ha)⟩
  obtain ⟨all, hall, h⟩ := hstart.run ((g.sortedIds.flatMap g.dependenciesOf).length + 1) (by simp [Nat.add_comm])
  refine ⟨_, by rw [transitiveDependencies, hall, Option.map_some], (List.mergeSort_perm ..).nodup_iff.mpr h.nodup, ?_⟩
  intro a
  rw [List.mem_mergeSort]
  constructor
  · exact h.sound a
  · intro hpath
    induction hpath using TransGen.head_induction_on with
    | single hedge => exact ((h.closed id (.inl rfl)).resolve_left List.not_mem_nil) _ hedge
    | head hedge _ ih => exact ((h.closed _ (.inr ih)).resolve_left List.not_mem_nil) _ hedge

end Forge.Graph.Lockless
