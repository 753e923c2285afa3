import Forge.Graph.States

/-!
# The cancellation cascade

`markFailed` puts a node into the failed state and then cancels breadth first whatever is
still active behind it. The cascade is a search along the edges into active nodes; since a
cancelled node is no longer active, its own states play the role of the visited set.
-/

namespace Forge.Graph.BuildGraph

open Relation Forge.Common

variable {T : Type*}

/-- The node exists and is not in a terminal state. -/
def active (g : BuildGraph T) (id : ℕ) : Bool :=
  match g.stateOf id with
  | some state => !state.isTerminal
  | none => false

/-- An edge into an active node: the edges a cascade follows. -/
def ActiveEdge (g : BuildGraph T) (a b : ℕ) : Prop := g.Edge a b ∧ g.active b = true

/-- How many nodes are active. -/
def activeCount (g : BuildGraph T) : ℕ := ((Finset.range g.len).filter fun id => g.active id).card

/-- An active node is in range. -/
theorem lt_len_of_active {g : BuildGraph T} {id : ℕ} (h : g.active id = true) : id < g.len := by
  cases hstate : g.stateOf id with
  | none => simp [active, hstate] at h
  | some state => exact lt_len_of_stateOf hstate

/-- Which nodes are active depends on their states only. -/
theorem active_congr {g g' : BuildGraph T} {id : ℕ} (h : g'.stateOf id = g.stateOf id) :
    g'.active id = g.active id := by
  rw [active, active, h]

/-- Cancelling a node deactivates that node and no other. -/
theorem active_withState (g : BuildGraph T) {id : ℕ} (h : id < g.len) {state : TaskState}
    (hterminal : state.isTerminal = true) (x : ℕ) :
    (g.withState id state).active x = (g.active x && decide (x ≠ id)) := by
  rw [active, g.stateOf_withState h, active]
  by_cases hx : x = id
  · simp [hx, hterminal]
  · simp [hx]

/-- Cancelling an active node leaves one active node less. -/
theorem activeCount_withState (g : BuildGraph T) {id : ℕ} (h : g.active id = true) (state : TaskState)
    (hterminal : state.isTerminal = true) :
    (g.withState id state).activeCount + 1 = g.activeCount := by
  have hid := lt_len_of_active h
  have hset : ((Finset.range (g.withState id state).len).filter fun x => (g.withState id state).active x) =
      ((Finset.range g.len).filter fun x => g.active x).erase id := by
    ext x
    rw [(g.sameShape_withState id state).len]
    simp only [g.active_withState hid hterminal, Finset.mem_filter, Finset.mem_range, Finset.mem_erase,
      Bool.and_eq_true, decide_eq_true_eq]
    tauto
  rw [activeCount, hset, activeCount]
  exact Finset.card_erase_add_one (by simp [hid, h])

/-- There are no more active nodes than nodes. -/
theorem activeCount_le (g : BuildGraph T) : g.activeCount ≤ g.len := by
  have hle := Finset.card_filter_le (Finset.range g.len) fun id => g.active id
  rwa [Finset.card_range] at hle

/-- What cancelling a list of dependents does: the active ones are cancelled and queued,
each at the cost of one active node. -/
structure Cancels (g : BuildGraph T) (dependents queue queue' : List ℕ) (g' : BuildGraph T) : Prop where
  shape : g.SameShape g'
  queued : ∀ x, x ∈ queue' ↔ x ∈ queue ∨ (x ∈ dependents ∧ g.active x = true)
  states : ∀ x, g'.stateOf x =
    if x ∈ dependents ∧ g.active x = true then some .cancelled else g.stateOf x
  work : queue'.length + g'.activeCount = queue.length + g.activeCount

/-- Cancelling dependents in range succeeds. -/
theorem cancelDependents_cancels (dependents queue : List ℕ) (g : BuildGraph T)
    (hrange : ∀ x ∈ dependents, x < g.len) :
    ∃ queue' g', cancelDependents dependents queue g = (.ok queue', g') ∧
      g.Cancels dependents queue queue' g' := by
  induction dependents generalizing queue g with
  | nil => exact ⟨queue, g, rfl, SameShape.refl g, by simp, by simp, rfl⟩
  | cons dependent dependents ih =>
    have hlt := hrange dependent List.mem_cons_self
    obtain ⟨state, hstate⟩ := exists_stateOf hlt
    rw [cancelDependents, state_eq, hstate]
    cases hterminal : state.isTerminal with
    | true =>
      obtain ⟨queue', g', heq, hcancels⟩ := ih queue g fun x hx => hrange x (List.mem_cons_of_mem _ hx)
      have hinactive : g.active dependent = false := by simp [active, hstate, hterminal]
      refine ⟨queue', g', by simpa [hterminal] using heq, hcancels.shape, ?_, ?_, hcancels.work⟩
      · intro x
        rw [hcancels.queued, List.mem_cons]
        by_cases hx : x = dependent
        · simp [hx, hinactive]
        · simp [hx]
      · intro x
        rw [hcancels.states]
        simp only [List.mem_cons]
        by_cases hx : x = dependent
        · simp [hx, hinactive]
        · simp [hx]
    | false =>
      have hactive : g.active dependent = true := by simp [active, hstate, hterminal]
      have hshape := g.sameShape_withState dependent .cancelled
      obtain ⟨queue', g', heq, hcancels⟩ := ih (queue ++ [dependent]) (g.withState dependent .cancelled)
        fun x hx => by rw [hshape.len]; exact hrange x (List.mem_cons_of_mem _ hx)
      have hwork := g.activeCount_withState hactive .cancelled rfl
      refine ⟨queue', g', by simpa [hterminal, g.setState_eq hlt] using heq,
        hshape.trans hcancels.shape, ?_, ?_, ?_⟩
      · intro x
        rw [hcancels.queued, g.active_withState hlt rfl, List.mem_append, List.mem_singleton,
          List.mem_cons]
        by_cases hx : x = dependent
        · simp [hx, hactive]
        · simp [hx]
      · intro x
        rw [hcancels.states, g.active_withState hlt rfl, g.stateOf_withState hlt]
        simp only [List.mem_cons]
        by_cases hx : x = dependent
        · simp [hx, hactive]
        · simp [hx]
      · have hrest := hcancels.work
        rw [List.length_append, List.length_singleton] at hrest
        omega

/-- The state of the cascade from `root` over the original graph `g`. -/
structure CascadeInv (g : BuildGraph T) (root : ℕ) (done : Set ℕ) (queue : List ℕ)
    (g' : BuildGraph T) : Prop where
  shape : g.SameShape g'
  frontier : Frontier g.ActiveEdge {root} done {x | x ∈ queue}
  cancelled : ∀ x ∈ done ∪ {x | x ∈ queue}, x ≠ root → g'.stateOf x = some .cancelled
  kept : ∀ x, x ∉ done ∪ {x | x ∈ queue} ∨ x = root → g'.stateOf x = g.stateOf x

/-- One round of the cascade. -/
theorem CascadeInv.step {g g₁ g₂ : BuildGraph T} {root current : ℕ} {done : Set ℕ}
    {queue queue' : List ℕ} (h : CascadeInv g root done (current :: queue) g₁)
    (hroot : g.active root = false)
    (hcancels : g₁.Cancels (g.dependentList current) queue queue' g₂) :
    CascadeInv g root (insert current done) queue' g₂ := by
  have hseen : ∀ x, x ∈ done ∪ {x | x ∈ current :: queue} → g₁.active x = false := by
    intro x hx
    by_cases hxroot : x = root
    · rw [active_congr (h.kept x (Or.inr hxroot)), hxroot, hroot]
    · rw [active, h.cancelled x hx hxroot]
      rfl
  have hmem : ∀ x, x ∈ insert current done ∪ {x | x ∈ queue'} ↔
      x ∈ done ∪ {x | x ∈ current :: queue} ∨ (x ∈ g.dependentList current ∧ g₁.active x = true) := by
    intro x
    simp only [Set.mem_union, Set.mem_insert_iff, Set.mem_ofPred_eq, hcancels.queued, List.mem_cons]
    tauto
  have hunseen : ∀ x, x ∉ done ∪ {x | x ∈ current :: queue} → g₁.active x = g.active x :=
    fun x hx => active_congr (h.kept x (Or.inl hx))
  have hactive : ∀ x, g₁.active x = true → g.active x = true := by
    intro x hx
    have hnot : x ∉ done ∪ {x | x ∈ current :: queue} := fun hin => by
      rw [hseen x hin] at hx
      contradiction
    rwa [hunseen x hnot] at hx
  have hcurrent : current ∈ done ∪ {x | x ∈ current :: queue} := Or.inr List.mem_cons_self
  refine ⟨h.shape.trans hcancels.shape, ?_, ?_, ?_⟩
  · refine h.frontier.advance ?_ ?_ ?_
    · exact fun x hx => (hmem x).mpr (Or.inl hx)
    · intro b hb
      cases (hmem b).mp hb with
      | inl hold => exact Or.inl hold
      | inr hnew => exact Or.inr ⟨current, hcurrent, hnew.1, hactive b hnew.2⟩
    · intro a ha hnot b hedge
      have heq : a = current := by
        cases ha with
        | inl heq => exact heq
        | inr hdone => exact absurd hdone hnot
      subst heq
      by_cases hb : b ∈ done ∪ {x | x ∈ a :: queue}
      · exact (hmem b).mpr (Or.inl hb)
      · exact (hmem b).mpr (Or.inr ⟨hedge.1, (hunseen b hb).trans hedge.2⟩)
  · intro x hx hne
    rw [hcancels.states]
    split
    · rfl
    · rename_i hnot
      cases (hmem x).mp hx with
      | inl hold => exact h.cancelled x hold hne
      | inr hnew => exact absurd hnew hnot
  · intro x hx
    have hinactive : ¬ (x ∈ g.dependentList current ∧ g₁.active x = true) := by
      intro hnew
      cases hx with
      | inl hnot => exact hnot ((hmem x).mpr (Or.inr hnew))
      | inr heq =>
        rw [heq, active_congr (h.kept root (Or.inr rfl)), hroot] at hnew
        exact Bool.false_ne_true hnew.2
    rw [hcancels.states, if_neg hinactive]
    apply h.kept x
    cases hx with
    | inl hnot => exact Or.inl fun hold => hnot ((hmem x).mpr (Or.inl hold))
    | inr heq => exact Or.inr heq

/-- With fuel for the queued and the active nodes the cascade succeeds and runs to its
end. -/
theorem WellFormed.cascadeLoop_inv {g : BuildGraph T} (hwf : g.WellFormed) {root : ℕ}
    (hroot : g.active root = false) (hlt : root < g.len) (fuel : ℕ) (done : Set ℕ) (queue : List ℕ)
    (g₁ : BuildGraph T) (h : CascadeInv g root done queue g₁)
    (hfuel : queue.length + g₁.activeCount ≤ fuel) :
    ∃ done' g₂, cascadeLoop fuel queue g₁ = (.ok (), g₂) ∧ CascadeInv g root done' [] g₂ := by
  induction fuel generalizing done queue g₁ with
  | zero =>
    have hnil : queue = [] := List.eq_nil_of_length_eq_zero (by omega)
    exact ⟨done, g₁, rfl, hnil ▸ h⟩
  | succ fuel ih =>
    cases queue with
    | nil => exact ⟨done, g₁, rfl, h⟩
    | cons current queue =>
      have hcurrent : current < g.len := by
        obtain ⟨a, ha, hpath⟩ := h.frontier.sound (b := current) (Or.inr List.mem_cons_self)
        rw [Set.mem_singleton_iff.mp ha] at hpath
        cases ReflTransGen.cases_tail hpath with
        | inl heq => exact heq ▸ hlt
        | inr hlast =>
          obtain ⟨c, _, hedge⟩ := hlast
          exact hwf.inRange c current hedge.1
      have hdependents : g₁.dependentsOf current = .ok (g.dependentList current) := by
        have hlength : current < g.dependents.length := by
          rw [hwf.dependentsLength]
          exact hcurrent
        rw [dependentsOf, dependentList, h.shape.dependents, List.getElem?_eq_getElem hlength]
        rfl
      obtain ⟨queue', g₂, heq, hcancels⟩ := cancelDependents_cancels (g.dependentList current) queue g₁
        fun x hx => by rw [h.shape.len]; exact hwf.inRange current x hx
      have hwork := hcancels.work
      rw [List.length_cons] at hfuel
      simp only [cascadeLoop, hdependents, heq]
      exact ih (insert current done) queue' g₂ (h.step hroot hcancels) (by omega)

/-- What `markFailed` did: the node failed, the active nodes it reaches through active
nodes are cancelled, and every other state is kept. -/
structure FailedAt (g : BuildGraph T) (id : ℕ) (g' : BuildGraph T) : Prop where
  shape : g.SameShape g'
  failed : g'.stateOf id = some .failed
  cancelled : ∀ x, x ≠ id → ReflTransGen (g.withState id .failed).ActiveEdge id x →
    g'.stateOf x = some .cancelled
  kept : ∀ x, x ≠ id → ¬ ReflTransGen (g.withState id .failed).ActiveEdge id x →
    g'.stateOf x = g.stateOf x

/-- Marking a node of the graph as failed succeeds and cancels exactly what it blocks. -/
theorem WellFormed.markFailed_spec {g : BuildGraph T} (hwf : g.WellFormed) {id : ℕ}
    (hid : id < g.len) : ∃ g', g.markFailed id = (.ok (), g') ∧ g.FailedAt id g' := by
  have hshape := g.sameShape_withState id .failed
  have hlt : id < (g.withState id .failed).len := by
    rw [hshape.len]
    exact hid
  have hfailed : (g.withState id .failed).stateOf id = some .failed := by
    rw [g.stateOf_withState hid, if_pos rfl]
  have hroot : (g.withState id .failed).active id = false := by
    rw [active, hfailed]
    rfl
  have hstart : CascadeInv (g.withState id .failed) id ∅ [id] (g.withState id .failed) := by
    have hpending : {x | x ∈ [id]} = ({id} : Set ℕ) := by
      ext x
      simp
    refine ⟨SameShape.refl _, hpending ▸ Frontier.start _ _, ?_, fun _ _ => rfl⟩
    intro x hx hne
    simp only [Set.empty_union, Set.mem_ofPred_eq, List.mem_singleton] at hx
    exact absurd hx hne
  have hcount := (g.withState id .failed).activeCount_le
  obtain ⟨done, g', heq, hinv⟩ := (hshape.wellFormed hwf).cascadeLoop_inv hroot hlt (g.len + 1) ∅ [id]
    (g.withState id .failed) hstart (by rw [List.length_singleton]; rw [hshape.len] at hcount; omega)
  have hempty : {x | x ∈ ([] : List ℕ)} = (∅ : Set ℕ) := by simp
  have hdone : done = reachSet (g.withState id .failed).ActiveEdge {id} :=
    Frontier.complete (hempty ▸ hinv.frontier)
  have hmem : ∀ x, x ∈ done ∪ {x | x ∈ ([] : List ℕ)} ↔
      ReflTransGen (g.withState id .failed).ActiveEdge id x := by
    intro x
    rw [hempty, Set.union_empty, hdone]
    constructor
    · intro hx
      obtain ⟨a, ha, hpath⟩ := hx
      rwa [Set.mem_singleton_iff.mp ha] at hpath
    · exact fun hpath => ⟨id, rfl, hpath⟩
  refine ⟨g', ?_, hshape.trans hinv.shape, ?_, ?_, ?_⟩
  · rw [markFailed, g.setState_eq hid]
    simp only
    rw [hshape.len]
    exact heq
  · rw [hinv.kept id (Or.inr rfl), hfailed]
  · exact fun x hne hpath => hinv.cancelled x ((hmem x).mpr hpath) hne
  · intro x hne hnot
    rw [hinv.kept x (Or.inl (mt (hmem x).mp hnot)), g.stateOf_withState hid, if_neg hne]

/-- Marking any identifier as failed keeps the shape of the graph. -/
theorem WellFormed.sameShape_markFailed {g : BuildGraph T} (hwf : g.WellFormed) (id : ℕ) :
    g.SameShape (g.markFailed id).2 := by
  cases Nat.lt_or_ge id g.len with
  | inl hlt =>
    obtain ⟨g', heq, hfailed⟩ := hwf.markFailed_spec hlt
    rw [heq]
    exact hfailed.shape
  | inr hge =>
    rw [markFailed, g.setState_missing hge]
    exact SameShape.refl g

end Forge.Graph.BuildGraph
