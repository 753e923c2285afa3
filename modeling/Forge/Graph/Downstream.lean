import Forge.Graph.Built

/-!
# What a failure cancels

The cascade of a failure changes the states it uses to decide where to go on, so its reach
is first known in terms of the graph in which the failed node is already marked. No path
comes back to that node, and the reach is the same in terms of the states before the call.
-/

namespace Forge.Graph.BuildGraph

open Relation Forge.Common

variable {T : Type*}

/-- A path through active nodes is a path. -/
theorem transGen_edge_of_active {g : BuildGraph T} {a b : ℕ} (h : TransGen g.ActiveEdge a b) : TransGen g.Edge a b :=
  TransGen.mono (fun _ _ hedge => hedge.1) a b h

/-- A path through active nodes leads to an active node. -/
theorem active_of_transGen {g : BuildGraph T} {a b : ℕ} (h : TransGen g.ActiveEdge a b) : g.active b = true := by
  cases h with
  | single hedge => exact hedge.2
  | tail _ hedge => exact hedge.2

/-- The active nodes downstream of a node are the same before and after its own failure. -/
theorem WellFormed.reaches_withState_iff {g : BuildGraph T} (h : g.WellFormed) {id : ℕ} (hid : id < g.len) (x : ℕ) :
    x ≠ id ∧ ReflTransGen (g.withState id .failed).ActiveEdge id x ↔ TransGen g.ActiveEdge id x := by
  have hactive : ∀ y, (g.withState id .failed).active y = (g.active y && decide (y ≠ id)) :=
    fun y => g.active_withState hid rfl y
  have hedge : (g.withState id .failed).Edge = g.Edge := (g.sameShape_withState id .failed).edge
  constructor
  · rintro ⟨hne, hpath⟩
    rcases reflTransGen_iff_eq_or_transGen.mp hpath with heq | hpath
    · exact absurd heq hne
    · refine TransGen.mono (fun a b hab => ?_) id x hpath
      have hboth := (hactive b).symm.trans hab.2
      exact ⟨hedge ▸ hab.1, (Bool.and_eq_true_iff.mp hboth).1⟩
  · intro hpath
    have hne : ∀ y, TransGen g.ActiveEdge id y → y ≠ id := by
      intro y hy heq
      subst heq
      exact h.acyclic _ (transGen_edge_of_active hy)
    refine ⟨hne x hpath, ?_⟩
    have hstep : ∀ a b, TransGen g.ActiveEdge id b → g.ActiveEdge a b → (g.withState id .failed).ActiveEdge a b := by
      intro a b hreach hab
      refine ⟨hedge ▸ hab.1, ?_⟩
      rw [hactive, hab.2, Bool.true_and]
      exact decide_eq_true (hne b hreach)
    -- Every node behind the failed one on the path is reached from it, so it is another node.
    induction hpath with
    | single hab => exact .single (hstep _ _ (.single hab) hab)
    | tail hfirst hab ih => exact .tail ih (hstep _ _ (.tail hfirst hab) hab)

/-- An active node is not cancelled. -/
theorem stateOf_ne_of_active {g : BuildGraph T} {id : ℕ} (h : g.active id = true) : g.stateOf id ≠ some .cancelled := by
  intro hstate
  rw [active, hstate] at h
  exact absurd h (by decide)

/-- Marking a node as failed fails that node, cancels exactly the nodes downstream of it that it reaches through nodes
that were active, and changes nothing else; for an unknown node it fails and changes nothing. -/
theorem markFailed_cancels_downstream (g : BuildGraph T) (h : g.Built) (id : NodeId) :
    (id < g.len → ∃ g', g.markFailed id = (.ok (), g') ∧ g.SameShape g' ∧ g'.stateOf id = some .failed ∧
      ∀ x ≠ id, (g'.stateOf x ≠ g.stateOf x ↔ TransGen g.ActiveEdge id x) ∧
        (TransGen g.ActiveEdge id x → g'.stateOf x = some .cancelled)) ∧
      (g.len ≤ id → g.markFailed id = (.error (.missingNode id), g)) := by
  constructor
  · intro hid
    obtain ⟨g', heq, hfailed⟩ := h.wellFormed.markFailed_spec hid
    refine ⟨g', heq, hfailed.shape, hfailed.failed, fun x hne => ?_⟩
    have hiff := h.wellFormed.reaches_withState_iff hid x
    have hcancelled : TransGen g.ActiveEdge id x → g'.stateOf x = some .cancelled :=
      fun hpath => hfailed.cancelled x hne (hiff.mpr hpath).2
    refine ⟨⟨fun hchanged => ?_, fun hpath => ?_⟩, hcancelled⟩
    · by_contra hnot
      exact hchanged (hfailed.kept x hne fun hpath => hnot (hiff.mp ⟨hne, hpath⟩))
    · rw [hcancelled hpath]
      exact (stateOf_ne_of_active (active_of_transGen hpath)).symm
  · intro hid
    rw [markFailed, g.setState_missing hid]

/-- In the chain, a finished node in the middle keeps the failure from the last node. -/
theorem markFailed_cancels_downstream_chain :
    ∃ g', (chain.setState 1 .succeeded).2.markFailed 0 = (.ok (), g') ∧ g'.stateOf 0 = some .failed ∧
      g'.stateOf 2 = some .pending := by
  have h := markFailed_cancels_downstream (chain.setState 1 .succeeded).2 (chain_built.setState 1 .succeeded) 0
  obtain ⟨g', heq, -, hfailed, -⟩ := h.1 (by decide)
  refine ⟨g', heq, hfailed, ?_⟩
  have hafter : ((chain.setState 1 .succeeded).2.markFailed 0).2 = g' := by rw [heq]
  rw [← hafter]
  decide

end Forge.Graph.BuildGraph
