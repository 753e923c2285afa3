import Forge.Graph.Topological

/-!
# The part of a build graph that changes affect

What changes affect is found breadth first along the dependents. The part of the graph that
is kept is built anew: its nodes are numbered in the order in which they were found, and
the edges between them are inserted again.
-/

namespace Forge.Graph.BuildGraph

open Relation Forge.Common

variable {T : Type*}

/-- Queue the nodes that were not seen before. -/
def enqueue : List NodeId → List Bool → List NodeId → List Bool × List NodeId
  | [], seen, queue => (seen, queue)
  | id :: ids, seen, queue =>
    if seen[id]? = some false then enqueue ids (seen.set id true) (queue ++ [id]) else enqueue ids seen queue

/-- The main loop of the search for what is affected. -/
def affectedLoop (g : BuildGraph T) : ℕ → List Bool → List NodeId → List NodeId → List NodeId
  | 0, _, _, affected => affected
  | _ + 1, _, [], affected => affected
  | fuel + 1, seen, id :: queue, affected =>
    let (seen, queue) := enqueue (g.dependentList id) seen queue
    affectedLoop g fuel seen queue (affected ++ [id])

/-- The changed nodes and everything that depends on them, in the order in which they are found. -/
def affectedNodes (g : BuildGraph T) (changed : List NodeId) : List NodeId :=
  let (seen, queue) := enqueue changed (List.replicate g.len false) []
  g.affectedLoop (g.len + 1) seen queue []

/-- Add copies of the nodes that are kept, with their new numbers. -/
def keepNodes (g : BuildGraph T) : List NodeId → List (NodeId × NodeId) → BuildGraph T →
    List (NodeId × NodeId) × BuildGraph T
  | [], renumber, out => (renumber, out)
  | id :: keep, renumber, out =>
    match g.node id with
    | none => keepNodes g keep renumber out
    | some node =>
      let (newId, out) := out.addNode node.payload
      keepNodes g keep ((id, newId) :: renumber) out

/-- Insert the dependencies of a node that are kept. `none` is the panic of a refused insertion. -/
def keepDeps (renumber : List (NodeId × NodeId)) (newId : NodeId) : List NodeId → BuildGraph T →
    Option (BuildGraph T)
  | [], out => some out
  | dep :: deps, out =>
    match renumber.lookup dep with
    | none => keepDeps renumber newId deps out
    | some newDep =>
      match out.addDependency newDep newId with
      | (.ok (), out) => keepDeps renumber newId deps out
      | (.error _, _) => none

/-- Insert the dependencies of all nodes that are kept. -/
def keepEdges (g : BuildGraph T) (renumber : List (NodeId × NodeId)) : List NodeId → BuildGraph T →
    Option (BuildGraph T)
  | [], out => some out
  | id :: keep, out =>
    match renumber.lookup id with
    | none => keepEdges g renumber keep out
    | some newId => (keepDeps renumber newId (g.depList id) out).bind (keepEdges g renumber keep)

/-- The nodes that are kept with the edges between them. -/
def subgraph (g : BuildGraph T) (keep : List NodeId) : Option (BuildGraph T) :=
  let (renumber, out) := g.keepNodes keep [] new
  g.keepEdges renumber keep out

/-! ## What is affected -/

/-- The nodes that were seen are those that were found or are queued, each once. -/
structure Seen (seen : List Bool) (size : ℕ) (found : List ℕ) : Prop where
  length : seen.length = size
  marked : ∀ id : ℕ, seen[id]? = some true ↔ id ∈ found
  nodup : found.Nodup

/-- A node that was seen is in range. -/
theorem Seen.lt {seen : List Bool} {size : ℕ} {found : List ℕ} (h : Seen seen size found) {id : ℕ}
    (hid : id ∈ found) : id < size := by
  rw [← h.length]
  exact (List.getElem?_eq_some_iff.mp ((h.marked id).mpr hid)).1

/-- A node in range that was not seen is marked so. -/
theorem Seen.unseen_iff {seen : List Bool} {size : ℕ} {found : List ℕ} (h : Seen seen size found) {id : ℕ} :
    seen[id]? = some false ↔ id < size ∧ id ∉ found := by
  rw [← h.marked, ← h.length]
  constructor
  · intro hseen
    exact ⟨(List.getElem?_eq_some_iff.mp hseen).1, by simp [hseen]⟩
  · rintro ⟨hlt, hnot⟩
    rw [List.getElem?_eq_getElem hlt] at hnot ⊢
    simpa using hnot

/-- Seeing a new node. -/
theorem Seen.add {seen : List Bool} {size : ℕ} {found : List ℕ} (h : Seen seen size found) {id : ℕ}
    (hid : seen[id]? = some false) : Seen (seen.set id true) size (found ++ [id]) where
  length := by rw [List.length_set, h.length]
  marked := by
    intro x
    rw [List.getElem?_set, List.mem_append, List.mem_singleton, ← h.marked]
    have hlt : id < seen.length := (List.getElem?_eq_some_iff.mp hid).1
    by_cases hx : id = x
    · subst hx
      simp [hlt]
    · simp [hx, Ne.symm hx]
  nodup := by
    refine List.nodup_append.mpr ⟨h.nodup, List.nodup_singleton id, ?_⟩
    intro a ha b hb heq
    rw [List.mem_singleton.mp hb] at heq
    exact (h.unseen_iff.mp hid).2 (heq ▸ ha)

/-- Queueing nodes adds those that are in range and were not seen. -/
theorem enqueue_seen {size : ℕ} (ids : List ℕ) {seen : List Bool} {found queue : List ℕ}
    (h : Seen seen size (found ++ queue)) :
    Seen (enqueue ids seen queue).1 size (found ++ (enqueue ids seen queue).2) ∧
      ∀ id, id ∈ found ++ (enqueue ids seen queue).2 ↔ id ∈ found ++ queue ∨ (id ∈ ids ∧ id < size) := by
  induction ids generalizing seen queue with
  | nil => exact ⟨h, fun id => by simp [enqueue]⟩
  | cons x ids ih =>
    rw [enqueue]
    split
    · rename_i hx
      have hnext := h.add hx
      rw [List.append_assoc] at hnext
      obtain ⟨hseen, hmem⟩ := ih hnext
      refine ⟨hseen, fun id => ?_⟩
      rw [hmem]
      have hlt := (h.unseen_iff.mp hx).1
      grind
    · rename_i hx
      obtain ⟨hseen, hmem⟩ := ih h
      refine ⟨hseen, fun id => ?_⟩
      rw [hmem]
      have hold : x < size → x ∈ found ++ queue := by
        intro hlt
        by_contra hnot
        exact hx (h.unseen_iff.mpr ⟨hlt, hnot⟩)
      grind

/-- The loop finds everything that depends on what was queued. -/
theorem affectedLoop_spec {g : BuildGraph T} (hwf : g.WellFormed) {roots : Set ℕ} (fuel : ℕ) {seen : List Bool}
    {queue affected : List ℕ} (h : Seen seen g.len (affected ++ queue))
    (hfrontier : Frontier g.Edge roots {id | id ∈ affected} {id | id ∈ queue})
    (hfuel : g.len + 1 ≤ fuel + affected.length) :
    (g.affectedLoop fuel seen queue affected).Nodup ∧
      {id | id ∈ g.affectedLoop fuel seen queue affected} = reachSet g.Edge roots := by
  induction fuel generalizing seen queue affected with
  | zero =>
    have hle : affected.length ≤ g.len := length_le_of_nodup (List.nodup_append.mp h.nodup).1 fun id hid =>
      h.lt (List.mem_append_left queue hid)
    omega
  | succ fuel ih =>
    cases queue with
    | nil =>
      rw [affectedLoop]
      have hempty : {id | id ∈ ([] : List ℕ)} = (∅ : Set ℕ) := by simp
      rw [hempty] at hfrontier
      exact ⟨(List.nodup_append.mp h.nodup).1, hfrontier.complete⟩
    | cons id queue =>
      rw [affectedLoop]
      have hregroup : affected ++ id :: queue = (affected ++ [id]) ++ queue := by
        rw [List.append_assoc, List.singleton_append]
      rw [hregroup] at h
      obtain ⟨hseen, hmem⟩ := enqueue_seen (g.dependentList id) h
      refine ih hseen ?_ (by rw [List.length_append, List.length_singleton]; omega)
      refine hfrontier.advance ?_ ?_ ?_
      · intro x hx
        have hx' : x ∈ (affected ++ [id]) ++ queue := by
          rw [← hregroup]
          exact List.mem_append.mpr hx
        exact List.mem_append.mp ((hmem x).mpr (.inl hx'))
      · intro x hx
        rcases (hmem x).mp (List.mem_append.mpr hx) with hold | ⟨hdependent, -⟩
        · rw [← hregroup] at hold
          exact .inl (List.mem_append.mp hold)
        · exact .inr ⟨id, .inr List.mem_cons_self, hdependent⟩
      · intro x hx hnot y hedge
        have hxid : x = id := by
          rcases List.mem_append.mp hx with hx | hx
          · exact absurd hx hnot
          · exact List.mem_singleton.mp hx
        subst hxid
        exact List.mem_append.mp ((hmem y).mpr (.inr ⟨hedge, hwf.inRange x y hedge⟩))

/-- The affected nodes are listed once. They are the changed nodes and what depends on them. -/
theorem WellFormed.affectedNodes_spec {g : BuildGraph T} (hwf : g.WellFormed) (changed : List NodeId) :
    (g.affectedNodes changed).Nodup ∧
      {id | id ∈ g.affectedNodes changed} = reachSet g.Edge {id | id ∈ changed ∧ id < g.len} := by
  have hstart : Seen (List.replicate g.len false) g.len ([] ++ []) :=
    ⟨List.length_replicate, fun id => by simp [List.getElem?_replicate], List.nodup_nil⟩
  obtain ⟨hseen, hmem⟩ := enqueue_seen changed hstart
  refine affectedLoop_spec hwf (g.len + 1) hseen ?_ le_rfl
  have hqueue : {id | id ∈ (enqueue changed (List.replicate g.len false) []).2} =
      ({id | id ∈ changed ∧ id < g.len} : Set ℕ) := by
    ext id
    simpa using hmem id
  have hfound : {id | id ∈ ([] : List ℕ)} = (∅ : Set ℕ) := by simp
  rw [hqueue, hfound]
  exact Frontier.start g.Edge _

/-- A node is affected when it depends on a changed node or is one. -/
theorem WellFormed.mem_affectedNodes_iff {g : BuildGraph T} (hwf : g.WellFormed) {changed : List NodeId} {id : ℕ} :
    id ∈ g.affectedNodes changed ↔ ∃ c ∈ changed, c < g.len ∧ ReflTransGen g.Edge c id := by
  have hspec := Set.ext_iff.mp (hwf.affectedNodes_spec changed).2 id
  change id ∈ g.affectedNodes changed ↔ _ at hspec
  rw [hspec]
  constructor
  · rintro ⟨c, ⟨hc, hlt⟩, hpath⟩
    exact ⟨c, hc, hlt, hpath⟩
  · rintro ⟨c, hc, hlt, hpath⟩
    exact ⟨c, ⟨hc, hlt⟩, hpath⟩

/-! ## What is kept -/

/-- Adding the kept nodes keeps the invariant of the graph. -/
theorem keepNodes_wellFormed {g out : BuildGraph T} (keep : List NodeId) (renumber : List (NodeId × NodeId))
    (h : out.WellFormed) : (g.keepNodes keep renumber out).2.WellFormed := by
  induction keep generalizing renumber out with
  | nil => exact h
  | cons id keep ih =>
    rw [keepNodes]
    split
    · exact ih renumber h
    · exact ih _ (h.addNode _)

/-- Inserting the kept dependencies of a node keeps the invariant of the graph. -/
theorem keepDeps_wellFormed {renumber : List (NodeId × NodeId)} {newId : NodeId} {deps : List NodeId}
    {out out' : BuildGraph T} (h : out.WellFormed) (hkeep : keepDeps renumber newId deps out = some out') :
    out'.WellFormed := by
  induction deps generalizing out with
  | nil => exact Option.some.inj hkeep ▸ h
  | cons dep deps ih =>
    rw [keepDeps] at hkeep
    split at hkeep
    · exact ih h hkeep
    · rename_i newDep hnewDep
      have hnext := h.addDependency newDep newId
      split at hkeep
      · rename_i hadded
        rw [hadded] at hnext
        exact ih hnext hkeep
      · exact absurd hkeep nofun

/-- Inserting all kept dependencies keeps the invariant of the graph. -/
theorem keepEdges_wellFormed {g : BuildGraph T} {renumber : List (NodeId × NodeId)} {keep : List NodeId}
    {out out' : BuildGraph T} (h : out.WellFormed) (hkeep : g.keepEdges renumber keep out = some out') :
    out'.WellFormed := by
  induction keep generalizing out with
  | nil => exact Option.some.inj hkeep ▸ h
  | cons id keep ih =>
    rw [keepEdges] at hkeep
    split at hkeep
    · exact ih h hkeep
    · obtain ⟨out₁, hdeps, hrest⟩ := Option.bind_eq_some_iff.mp hkeep
      exact ih (keepDeps_wellFormed h hdeps) hrest

/-- The part that is kept satisfies the invariant of the graph. -/
theorem subgraph_wellFormed {g out : BuildGraph T} {keep : List NodeId} (hkeep : g.subgraph keep = some out) :
    out.WellFormed :=
  keepEdges_wellFormed (keepNodes_wellFormed keep [] .new) hkeep

end Forge.Graph.BuildGraph
