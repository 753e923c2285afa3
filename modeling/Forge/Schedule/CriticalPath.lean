import Forge.Common.LongestChains
import Forge.Graph.Built
import Forge.Graph.Levels
import Forge.Schedule.Ledger

/-!
# The critical path of a build

The critical path is found along the topological order: each node takes over the greatest
total among its dependencies, and remembers which of them it was. The path is then read
backwards from the node with the greatest total. Durations are exact.
-/

namespace Forge.Schedule

open Relation Forge.Common Forge.Graph Forge.Graph.BuildGraph Forge.Executor

/-! ## The computation -/

/-- The last entry with the greatest cost. -/
def maxByCost (entries : List (Option NodeId × ℕ)) : Option (Option NodeId × ℕ) :=
  entries.foldl (fun best entry =>
    match best with
    | none => some entry
    | some best => if entry.2 < best.2 then some best else some entry) none

/-- The duration recorded for each node; a later timing overwrites an earlier one. -/
def timingVec (timings : List TaskTiming) (n : ℕ) : List ℕ :=
  timings.foldl (fun vec timing => if timing.nodeId < n then vec.set timing.nodeId timing.duration else vec)
    (List.replicate n 0)

/-- The dependency with the greatest total, and this total. -/
def bestPredecessor (g : BuildGraph Task) (longestTo : List ℕ) (id : NodeId) : Option NodeId × ℕ :=
  (maxByCost ((g.depList id).map fun dep => (some dep, longestTo[dep]?.getD 0))).getD (none, 0)

/-- Compute the total and the predecessor of one node. -/
def relax (g : BuildGraph Task) (timing : List ℕ) (found : List ℕ × List (Option NodeId)) (id : NodeId) :
    List ℕ × List (Option NodeId) :=
  let own := timing[id]?.getD 0
  let (bestPred, bestCost) := bestPredecessor g found.1 id
  (found.1.set id (bestCost + own), found.2.set id bestPred)

/-- The first greatest total that is positive, and the node it belongs to. -/
def heaviest (longestTo : List ℕ) : ℕ × NodeId :=
  longestTo.zipIdx.foldl (fun found entry => if found.1 < entry.1 then entry else found) (0, 0)

/-- The labels from a node back to where its path starts. -/
def tracePath (g : BuildGraph Task) (predecessor : List (Option NodeId)) : ℕ → Option NodeId → List String
  | 0, _ => []
  | _ + 1, none => []
  | fuel + 1, some id =>
    ((g.node id).map (·.payload.label)).toList ++
      tracePath g predecessor fuel (if id < g.len then predecessor[id]?.getD none else none)

/-- The longest total of durations along a dependency chain, with the labels of a chain that has it. -/
def BuildSummary.criticalPath (summary : BuildSummary) (g : BuildGraph Task) : ℕ × List String :=
  let n := g.len
  let found := g.topologicalOrder.foldl (relax g (timingVec summary.timings n)) (List.replicate n 0, List.replicate n none)
  let (total, last) := heaviest found.1
  (total, (tracePath g found.2 (n + 1) (some last)).reverse)

/-- The duration that counts for a node: that of its last timing, or zero. -/
def lastDuration (timings : List TaskTiming) (id : NodeId) : ℕ :=
  ((timings.filter fun timing => timing.nodeId = id).getLast?.map (·.duration)).getD 0

/-- The label of a node, if there is one. -/
def labelOf (g : BuildGraph Task) (id : NodeId) : Option String := (g.payloadOf id).map (·.label)

/-! ## Its parts -/

/-- The durations of the nodes of a graph are those of their last timings. -/
theorem timingVec_getElem? (timings : List TaskTiming) {n id : ℕ} (hid : id < n) :
    (timingVec timings n)[id]? = some (lastDuration timings id) ∧ (timingVec timings n).length = n := by
  induction timings using List.reverseRecOn with
  | nil => exact ⟨by rw [timingVec, List.foldl_nil, List.getElem?_replicate, if_pos hid]; rfl, List.length_replicate⟩
  | append_singleton timings timing ih =>
    obtain ⟨hget, hlength⟩ := ih
    have hlast : timingVec (timings ++ [timing]) n =
        if timing.nodeId < n then (timingVec timings n).set timing.nodeId timing.duration else timingVec timings n := by
      rw [timingVec, List.foldl_append]
      rfl
    rw [hlast, lastDuration, List.filter_append, List.filter_singleton]
    by_cases hself : timing.nodeId = id
    · have hlt : timing.nodeId < n := hself ▸ hid
      rw [if_pos hlt, decide_eq_true hself, cond_true, List.getLast?_concat, List.length_set, hself,
        List.getElem?_set_self (by rw [hlength]; exact hid)]
      exact ⟨rfl, hlength⟩
    · rw [decide_eq_false hself, cond_false, List.append_nil]
      split
      · rw [List.getElem?_set_ne hself, List.length_set]
        exact ⟨hget, hlength⟩
      · exact ⟨hget, hlength⟩

/-- The greatest entry of a list is in it, and there is one unless the list is empty. -/
theorem maxByCost_spec (entries : List (Option NodeId × ℕ)) :
    match maxByCost entries with
    | none => entries = []
    | some best => best ∈ entries ∧ ∀ entry ∈ entries, entry.2 ≤ best.2 := by
  induction entries using List.reverseRecOn with
  | nil => rfl
  | append_singleton entries entry ih =>
    have hlast : maxByCost (entries ++ [entry]) = match maxByCost entries with
        | none => some entry
        | some best => if entry.2 < best.2 then some best else some entry := by
      rw [maxByCost, List.foldl_append]
      rfl
    rw [hlast]
    cases hbest : maxByCost entries with
    | none =>
      rw [hbest] at ih
      subst ih
      exact ⟨List.mem_singleton_self entry, fun other hother => by rw [List.mem_singleton.mp hother]⟩
    | some best =>
      rw [hbest] at ih
      obtain ⟨hmem, hmax⟩ := ih
      simp only
      split
      · rename_i h
        split at h <;> rename_i hlt <;> simp at h
      · rename_i found h
        split at h <;> rename_i hlt <;> obtain rfl := Option.some.inj h
        · refine ⟨List.mem_append_left _ hmem, fun other hother => ?_⟩
          rcases List.mem_append.mp hother with hother | hother
          · exact hmax other hother
          · rw [List.mem_singleton.mp hother]
            exact Nat.le_of_lt hlt
        · refine ⟨List.mem_append_right _ (List.mem_singleton_self _), fun other hother => ?_⟩
          rcases List.mem_append.mp hother with hother | hother
          · exact (hmax other hother).trans (Nat.le_of_not_lt hlt)
          · rw [List.mem_singleton.mp hother]

/-- The greatest total bounds all of them, and belongs to its node unless everything is zero. -/
theorem heaviest_spec (longestTo : List ℕ) :
    (∀ id cost : ℕ, longestTo[id]? = some cost → cost ≤ (heaviest longestTo).1) ∧
      (heaviest longestTo = (0, 0) ∨ longestTo[(heaviest longestTo).2]? = some (heaviest longestTo).1) := by
  induction longestTo using List.reverseRecOn with
  | nil => exact ⟨fun id cost h => absurd h (by simp), Or.inl rfl⟩
  | append_singleton longestTo last ih =>
    obtain ⟨hmax, hfound⟩ := ih
    have hlast : heaviest (longestTo ++ [last]) =
        if (heaviest longestTo).1 < last then (last, longestTo.length) else heaviest longestTo := by
      rw [heaviest, List.zipIdx_append, List.foldl_append, ← heaviest]
      simp only [List.zipIdx_singleton, List.foldl_cons, List.foldl_nil, Nat.zero_add]
    have hcost : ∀ id cost : ℕ, (longestTo ++ [last])[id]? = some cost → longestTo[id]? = some cost ∨ cost = last := by
      intro id cost hget
      rw [List.getElem?_append] at hget
      split at hget
      · exact Or.inl hget
      · exact Or.inr (List.mem_singleton.mp (List.mem_of_getElem? hget))
    rw [hlast]
    split
    · rename_i hlt
      refine ⟨fun id cost hget => ?_, Or.inr List.getElem?_concat_length⟩
      rcases hcost id cost hget with hold | rfl
      · exact (hmax id cost hold).trans (Nat.le_of_lt hlt)
      · exact le_rfl
    · rename_i hge
      refine ⟨fun id cost hget => ?_, hfound.imp_right fun hget => ?_⟩
      · rcases hcost id cost hget with hold | rfl
        · exact hmax id cost hold
        · exact Nat.le_of_not_lt hge
      · rw [List.getElem?_append_left (List.getElem?_eq_some_iff.mp hget).1]
        exact hget

/-! ## The loop -/

/-- The nodes that were relaxed have the total and the predecessor that follow from those of their dependencies. -/
structure Relaxed (g : BuildGraph Task) (timing : List ℕ) (placed : List ℕ) (found : List ℕ × List (Option NodeId)) :
    Prop where
  totals : found.1.length = g.len
  predecessors : found.2.length = g.len
  closed : ∀ id ∈ placed, ∀ dep ∈ g.depList id, dep ∈ placed
  total : ∀ id ∈ placed, found.1[id]? = some ((bestPredecessor g found.1 id).2 + timing[id]?.getD 0)
  predecessor : ∀ id ∈ placed, found.2[id]? = some (bestPredecessor g found.1 id).1

/-- The best predecessor depends on the totals of the dependencies only. -/
theorem bestPredecessor_congr {g : BuildGraph Task} {longestTo longestTo' : List ℕ} {id : ℕ}
    (h : ∀ dep ∈ g.depList id, longestTo'[dep]? = longestTo[dep]?) :
    bestPredecessor g longestTo' id = bestPredecessor g longestTo id := by
  rw [bestPredecessor, bestPredecessor]
  refine congrArg (fun l => (maxByCost l).getD (none, 0)) (List.map_congr_left fun dep hdep => ?_)
  rw [h dep hdep]

/-- Relaxing a node whose dependencies are relaxed keeps the relaxed nodes as they are. -/
theorem Relaxed.relax {g : BuildGraph Task} {timing placed : List ℕ} {found : List ℕ × List (Option NodeId)}
    (h : Relaxed g timing placed found) {id : ℕ} (hid : id < g.len) (hnew : id ∉ placed)
    (hdeps : ∀ dep ∈ g.depList id, dep ∈ placed) : Relaxed g timing (placed ++ [id]) (relax g timing found id) := by
  have hother : ∀ x ∈ placed, (Schedule.relax g timing found id).1[x]? = found.1[x]? :=
    fun x hx => List.getElem?_set_ne fun heq : id = x => hnew (heq ▸ hx)
  have hsame : ∀ x, (∀ dep ∈ g.depList x, dep ∈ placed) →
      bestPredecessor g (Schedule.relax g timing found id).1 x = bestPredecessor g found.1 x :=
    fun x hx => bestPredecessor_congr fun dep hdep => hother dep (hx dep hdep)
  refine ⟨?_, ?_, fun x hx dep hdep => ?_, fun x hx => ?_, fun x hx => ?_⟩
  · exact List.length_set.trans h.totals
  · exact List.length_set.trans h.predecessors
  · refine List.mem_append_left _ ?_
    rcases List.mem_append.mp hx with hx | hx
    · exact h.closed x hx dep hdep
    · exact hdeps dep (List.mem_singleton.mp hx ▸ hdep)
  · rcases List.mem_append.mp hx with hx | hx
    · rw [hother x hx, h.total x hx, hsame x (h.closed x hx)]
    · obtain rfl := List.mem_singleton.mp hx
      rw [hsame x hdeps]
      exact List.getElem?_set_self (by rw [h.totals]; exact hid)
  · rcases List.mem_append.mp hx with hx | hx
    · rw [hsame x (h.closed x hx), ← h.predecessor x hx]
      exact List.getElem?_set_ne fun heq : id = x => hnew (heq ▸ hx)
    · obtain rfl := List.mem_singleton.mp hx
      rw [hsame x hdeps]
      exact List.getElem?_set_self (by rw [h.predecessors]; exact hid)

/-- The loop relaxes the rest of a topological order. -/
theorem Relaxed.foldl {g : BuildGraph Task} (hwf : g.WellFormed) {timing placed order : List ℕ}
    {found : List ℕ × List (Option NodeId)} (h : Relaxed g timing placed found)
    (horder : g.IsTopological (placed ++ order)) :
    Relaxed g timing (placed ++ order) (order.foldl (Schedule.relax g timing) found) := by
  induction order generalizing placed found with
  | nil => rw [List.append_nil]; exact h
  | cons id order ih =>
    obtain ⟨hid, hnew, hbefore, hnext⟩ := horder.next hwf
    rw [List.append_cons]
    exact ih (h.relax hid hnew hbefore) hnext

/-- After the loop every node has its total and its predecessor. -/
theorem relaxed_all {g : BuildGraph Task} (hwf : g.WellFormed) (timing : List ℕ) :
    Relaxed g timing g.topologicalOrder
      (g.topologicalOrder.foldl (relax g timing) (List.replicate g.len 0, List.replicate g.len none)) := by
  have hstart : Relaxed g timing [] (List.replicate g.len 0, List.replicate g.len none) :=
    { totals := List.length_replicate
      predecessors := List.length_replicate
      closed := fun id hid => absurd hid List.not_mem_nil
      total := fun id hid => absurd hid List.not_mem_nil
      predecessor := fun id hid => absurd hid List.not_mem_nil }
  exact hstart.foldl hwf hwf.isTopological

/-- The best predecessor is a dependency with the greatest total, and missing only where there is no dependency. -/
theorem bestPredecessor_cases (g : BuildGraph Task) (longestTo : List ℕ) (id : ℕ) :
    (bestPredecessor g longestTo id = (none, 0) ∧ g.depList id = []) ∨
      ∃ dep ∈ g.depList id, bestPredecessor g longestTo id = (some dep, longestTo[dep]?.getD 0) ∧
        ∀ other ∈ g.depList id, longestTo[other]?.getD 0 ≤ longestTo[dep]?.getD 0 := by
  have hspec := maxByCost_spec ((g.depList id).map fun dep => (some dep, longestTo[dep]?.getD 0))
  rw [bestPredecessor]
  cases hbest : maxByCost ((g.depList id).map fun dep => (some dep, longestTo[dep]?.getD 0)) with
  | none =>
    rw [hbest] at hspec
    exact Or.inl ⟨rfl, List.map_eq_nil_iff.mp hspec⟩
  | some best =>
    rw [hbest] at hspec
    obtain ⟨hmem, hmax⟩ := hspec
    obtain ⟨dep, hdep, rfl⟩ := List.mem_map.mp hmem
    exact Or.inr ⟨dep, hdep, rfl, fun other hother => hmax _ (List.mem_map_of_mem hother)⟩

/-- The totals are built up along the edges. -/
theorem Relaxed.longest {g : BuildGraph Task} (hwf : g.WellFormed) {timing order : List ℕ}
    {found : List ℕ × List (Option NodeId)} (h : Relaxed g timing order found) (hall : ∀ id < g.len, id ∈ order) :
    Longest g.Edge (fun id => timing[id]?.getD 0) (fun id => found.1[id]?.getD 0) {id | id < g.len} where
  closed := fun a b _ hab => hwf.edge_left hab
  single := by
    intro b hb
    rw [h.total b (hall b hb), Option.getD_some]
    exact Nat.le_add_left _ _
  growing := by
    intro a b hb hab
    have hmem := hwf.mem_depList_iff.mpr hab
    rw [h.total b (hall b hb), Option.getD_some]
    rcases bestPredecessor_cases g found.1 b with ⟨-, hnil⟩ | ⟨dep, -, heq, hmax⟩
    · rw [hnil] at hmem
      exact absurd hmem List.not_mem_nil
    · rw [heq]
      exact Nat.add_le_add_right (hmax a hmem) _
  attained := by
    intro b hb
    rw [h.total b (hall b hb), Option.getD_some]
    rcases bestPredecessor_cases g found.1 b with ⟨heq, -⟩ | ⟨dep, hdep, heq, -⟩
    · rw [heq, Nat.zero_add]
      exact Or.inl rfl
    · rw [heq]
      exact Or.inr ⟨dep, hwf.mem_depList_iff.mp hdep, rfl⟩

/-! ## The path -/

/-- Without a node there is nothing to read. -/
theorem tracePath_none (g : BuildGraph Task) (predecessor : List (Option NodeId)) (fuel : ℕ) :
    tracePath g predecessor fuel none = [] := by
  cases fuel <;> rfl

/-- The label of a node in front of the labels of others. -/
theorem labelOf_cons (g : BuildGraph Task) (id : ℕ) (l : List ℕ) :
    ((g.node id).map (·.payload.label)).toList ++ l.filterMap (labelOf g) = (id :: l).filterMap (labelOf g) := by
  have hlabel : labelOf g id = (g.node id).map (·.payload.label) := by
    rw [labelOf, payloadOf, Option.map_map]
    rfl
  rw [List.filterMap_cons, hlabel]
  cases (g.node id).map (·.payload.label) <;> rfl

/-- The labels read from a node on are those of a chain that ends there and has its total. -/
theorem Relaxed.tracePath {g : BuildGraph Task} (hwf : g.WellFormed) {timing order : List ℕ}
    {found : List ℕ × List (Option NodeId)} (h : Relaxed g timing order found) (hall : ∀ id < g.len, id ∈ order)
    {id : ℕ} (hid : id < g.len) :
    ∃ l, ChainTo g.Edge id l ∧ weightOf (fun id => timing[id]?.getD 0) l = found.1[id]?.getD 0 ∧
      ∀ fuel, l.length ≤ fuel → tracePath g found.2 fuel (some id) = l.reverse.filterMap (labelOf g) := by
  induction id using hwf.edge_wf.induction with
  | _ id ih =>
    have htotal := h.total id (hall id hid)
    have hpredecessor := h.predecessor id (hall id hid)
    rcases bestPredecessor_cases g found.1 id with ⟨heq, -⟩ | ⟨dep, hdep, heq, -⟩
    · refine ⟨[id], .single id, ?_, fun fuel hfuel => ?_⟩
      · rw [weightOf_singleton, htotal, heq, Option.getD_some, Nat.zero_add]
      · obtain ⟨rest, rfl⟩ := Nat.exists_eq_add_of_le' hfuel
        rw [List.length_singleton, Schedule.tracePath, if_pos hid, hpredecessor, heq, Option.getD_some, tracePath_none]
        exact labelOf_cons g id []
    · have hedge := hwf.mem_depList_iff.mp hdep
      obtain ⟨l, hchain, hweight, htrace⟩ := ih dep hedge (hwf.edge_left hedge)
      refine ⟨l ++ [id], hchain.snoc hedge, ?_, fun fuel hfuel => ?_⟩
      · rw [weightOf_append, weightOf_singleton, hweight, htotal, heq, Option.getD_some]
      · rw [List.length_append, List.length_singleton] at hfuel
        obtain ⟨rest, rfl⟩ := Nat.exists_eq_add_of_le' hfuel
        rw [← Nat.add_assoc, Schedule.tracePath, if_pos hid, hpredecessor, heq, Option.getD_some,
          htrace (rest + l.length) (Nat.le_add_left _ _), List.reverse_append, List.reverse_singleton,
          List.singleton_append]
        exact labelOf_cons g id l.reverse

/-- A chain that ends in the graph keeps within it. -/
theorem lt_len_of_chainTo {g : BuildGraph Task} (hwf : g.WellFormed) {id : ℕ} (hid : id < g.len) {l : List ℕ}
    (hchain : ChainTo g.Edge id l) : ∀ x ∈ l, x < g.len := by
  intro x hx
  rcases hchain.transGen hx with rfl | hpath
  · exact hid
  · obtain ⟨y, hedge, -⟩ := TransGen.head'_iff.mp hpath
    exact hwf.edge_left hedge

/-- A chain that ends in the graph is no longer than the graph. -/
theorem length_le_of_chainTo {g : BuildGraph Task} (hwf : g.WellFormed) {id : ℕ} (hid : id < g.len) {l : List ℕ}
    (hchain : ChainTo g.Edge id l) : l.length ≤ g.len :=
  length_le_of_nodup (hchain.nodup hwf.acyclic) (lt_len_of_chainTo hwf hid hchain)

/-- Nodes of the graph all have labels. -/
theorem map_some_filterMap_labelOf {g : BuildGraph Task} {l : List ℕ} (hl : ∀ id ∈ l, id < g.len) :
    (l.filterMap (labelOf g)).map some = l.map (labelOf g) := by
  induction l with
  | nil => rfl
  | cons id l ih =>
    obtain ⟨hid, hrest⟩ := List.forall_mem_cons.mp hl
    have hnode : g.node id = some g.nodes[id] := List.getElem?_eq_getElem hid
    have hlabel : labelOf g id = some g.nodes[id].payload.label := by
      rw [labelOf, payloadOf, hnode]
      rfl
    rw [List.filterMap_cons_some hlabel, List.map_cons, List.map_cons, ih hrest, hlabel]

/-- The durations of nodes of the graph are those the computation uses. -/
theorem weightOf_timingVec (timings : List TaskTiming) {n : ℕ} {l : List ℕ} (hl : ∀ id ∈ l, id < n) :
    weightOf (fun id => (timingVec timings n)[id]?.getD 0) l = (l.map (lastDuration timings)).sum := by
  rw [weightOf]
  refine congrArg List.sum (List.map_congr_left fun id hid => ?_)
  rw [(timingVec_getElem? timings (hl id hid)).1, Option.getD_some]

/-- The critical path is optimal: its labels are those of a dependency chain whose durations sum to the total, and no
dependency chain has a greater sum. -/
theorem BuildSummary.criticalPath_optimal (summary : BuildSummary) (g : BuildGraph Task) (h : g.Built) :
    (∃ l : List NodeId, l.IsChain g.Edge ∧ (summary.criticalPath g).2.map some = l.map (labelOf g) ∧
      (l.map (lastDuration summary.timings)).sum = (summary.criticalPath g).1) ∧
      ∀ l : List NodeId, l.IsChain g.Edge → (∀ id ∈ l, id < g.len) →
        (l.map (lastDuration summary.timings)).sum ≤ (summary.criticalPath g).1 := by
  have hwf := h.wellFormed
  have hrelaxed := relaxed_all hwf (timingVec summary.timings g.len)
  have hall : ∀ id < g.len, id ∈ g.topologicalOrder := fun id hid => (hwf.mem_topologicalOrder id).mpr hid
  rw [BuildSummary.criticalPath]
  simp only
  generalize g.topologicalOrder.foldl (relax g (timingVec summary.timings g.len))
    (List.replicate g.len 0, List.replicate g.len none) = found at hrelaxed ⊢
  obtain ⟨hmax, hfound⟩ := heaviest_spec found.1
  have hlongest := hrelaxed.longest hwf hall
  constructor
  · have hpath : ∀ last < g.len, found.1[last]?.getD 0 = (heaviest found.1).1 → ∃ l : List NodeId, l.IsChain g.Edge ∧
        (tracePath g found.2 (g.len + 1) (some last)).reverse.map some = l.map (labelOf g) ∧
          (l.map (lastDuration summary.timings)).sum = (heaviest found.1).1 := by
      intro last hlast htotal
      obtain ⟨l, hchain, hweight, htrace⟩ := hrelaxed.tracePath hwf hall hlast
      have hrange := lt_len_of_chainTo hwf hlast hchain
      refine ⟨l, (chainTo_iff.mp hchain).1, ?_, ?_⟩
      · rw [htrace (g.len + 1) ((length_le_of_chainTo hwf hlast hchain).trans (Nat.le_succ _)), ← List.filterMap_reverse,
          List.reverse_reverse, map_some_filterMap_labelOf hrange]
      · rw [← weightOf_timingVec summary.timings hrange, hweight, htotal]
    rcases hfound with hzero | hget
    · rw [hzero] at hmax hpath ⊢
      by_cases hlen : 0 < g.len
      · refine hpath 0 hlen ?_
        cases hfirst : found.1[0]? with
        | none => rfl
        | some cost => exact Nat.le_zero.mp (hmax 0 cost hfirst)
      · have hnone : g.node 0 = none := List.getElem?_eq_none (Nat.le_of_not_lt hlen)
        refine ⟨[], List.isChain_nil, ?_, rfl⟩
        rw [tracePath, if_neg hlen, tracePath_none, hnone]
        rfl
    · have hlast : (heaviest found.1).2 < g.len := by
        rw [← hrelaxed.totals]
        exact (List.getElem?_eq_some_iff.mp hget).1
      exact hpath (heaviest found.1).2 hlast (by rw [hget, Option.getD_some])
  · intro l hchain hrange
    by_cases hne : l = []
    · subst hne
      exact Nat.zero_le _
    · obtain ⟨b, hb, hto⟩ := exists_chainTo hchain hne
      rw [← weightOf_timingVec summary.timings hrange]
      refine (hlongest.weightOf_le hto (hrange b hb)).trans ?_
      rw [hrelaxed.total b (hall b (hrange b hb)), Option.getD_some]
      exact hmax b _ (hrelaxed.total b (hall b (hrange b hb)))

/-- Three tasks, the last of which needs the other two. -/
def triangle : BuildGraph Task :=
  let g := (BuildGraph.new.addNode (Task.new "a" "a" (CommandSpec.new "echo"))).2
  let g := (g.addNode (Task.new "b" "b" (CommandSpec.new "echo"))).2
  let g := (g.addNode (Task.new "c" "c" (CommandSpec.new "echo"))).2
  let g := (g.addDependency 0 1).2
  let g := (g.addDependency 0 2).2
  (g.addDependency 1 2).2

/-- The triangle is reached by the operations. -/
theorem triangle_built : triangle.Built :=
  (((((Built.new.addNode _).addNode _).addNode _).addDependency 0 1).addDependency 0 2).addDependency 1 2

/-- A summary with a duration for each of three tasks. -/
def triangleSummary (a b c : ℕ) : BuildSummary :=
  .fromGraph triangle 0 2 [] [⟨"a", "a", 0, a, 0, 0, .executed⟩, ⟨"b", "b", 0, b, 1, 0, .executed⟩,
    ⟨"c", "c", 0, c, 2, 0, .executed⟩]

/-- With durations 1, 3 and 1 the critical path is the whole triangle. -/
theorem BuildSummary.criticalPath_optimal_triangle :
    (triangleSummary 1 3 1).criticalPath triangle = (5, ["a", "b", "c"]) ∧
      ∀ l : List NodeId, l.IsChain triangle.Edge → (∀ id ∈ l, id < triangle.len) →
        (l.map (lastDuration (triangleSummary 1 3 1).timings)).sum ≤ 5 := by
  have hpath : (triangleSummary 1 3 1).criticalPath triangle = (5, ["a", "b", "c"]) := by decide +kernel
  have hmax := (criticalPath_optimal (triangleSummary 1 3 1) triangle triangle_built).2
  rw [hpath] at hmax
  exact ⟨hpath, hmax⟩

end Forge.Schedule
