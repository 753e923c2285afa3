import Forge.Graph.Cancellation
import Mathlib.Data.List.Basic

/-!
# Progress of a build through its graph

Both schedulers move the states of the nodes forward in three ways only: a ready node
starts, a running node succeeds, a running node fails and cancels what it blocks. `Progress`
is what every such move keeps. It makes the states of the dependencies decide who may have
started and who is cancelled, and that is enough to see that a build which has come to rest
has settled every node.
-/

namespace Forge.Schedule

open Relation Forge.Common Forge.Graph Forge.Graph.BuildGraph

variable {T : Type*}

/-- The node is in a successful state. -/
def Successful (g : BuildGraph T) (id : ℕ) : Prop :=
  ∃ state, g.stateOf id = some state ∧ state.isSuccessful = true

/-- The node failed or was cancelled. -/
def Unsuccessful (g : BuildGraph T) (id : ℕ) : Prop :=
  ∃ state, g.stateOf id = some state ∧ state.isUnsuccessful = true

/-- Every dependency of the node is in a successful state. -/
def DepsSuccessful (g : BuildGraph T) (id : ℕ) : Prop := ∀ dep ∈ g.depList id, Successful g dep

/-- The invariant of a running build: a node that has started had its dependencies
satisfied, and a node is cancelled exactly when one of its dependencies is unsuccessful. -/
structure Progress (g : BuildGraph T) : Prop where
  wellFormed : g.WellFormed
  unused : ∀ x, g.stateOf x ≠ some .ready ∧ g.stateOf x ≠ some .skipped
  started : ∀ x state, g.stateOf x = some state → state ≠ .pending → state ≠ .cancelled →
    DepsSuccessful g x
  cancelled : ∀ x < g.len, g.stateOf x = some .cancelled ↔ ∃ dep ∈ g.depList x, Unsuccessful g dep

section Queries

/-- A node is ready exactly when its dependencies are successful. -/
theorem isReady_iff {g : BuildGraph T} (h : g.WellFormed) {id : ℕ} (hid : id < g.len) :
    g.isReady id = .ok true ↔ DepsSuccessful g id := by
  have hlt : id < g.deps.length := by
    rw [h.depsLength]
    exact hid
  have hdeps : g.depsOf id = .ok (g.depList id) := by
    simp [depsOf, depList, List.getElem?_eq_getElem hlt]
  rw [isReady, hdeps]
  simp only [Except.ok.injEq, List.all_eq_true]
  refine forall₂_congr fun dep _ => ?_
  rw [state_eq]
  cases hstate : g.stateOf dep with
  | none => simp [Successful, hstate]
  | some state => simp [Successful, hstate]

/-- The ready nodes are the pending ones whose dependencies are successful. -/
theorem mem_readyNodes {g : BuildGraph T} (h : g.WellFormed) (id : ℕ) :
    id ∈ g.readyNodes ↔ g.stateOf id = some .pending ∧ DepsSuccessful g id := by
  simp only [readyNodes, List.mem_map, List.mem_filter, Bool.and_eq_true, decide_eq_true_eq]
  constructor
  · intro hmem
    obtain ⟨node, ⟨hnode, hpending, hisReady⟩, hid⟩ := hmem
    obtain ⟨i, hi⟩ := List.mem_iff_getElem?.mp hnode
    have hlt : i < g.len := (List.getElem?_eq_some_iff.mp hi).1
    have hi' : node.id = i := h.ids i node hi
    rw [hi'] at hid hisReady
    subst hid
    refine ⟨?_, (isReady_iff h hlt).mp ?_⟩
    · rw [stateOf, BuildGraph.node, hi, Option.map_some, hpending]
    · split at hisReady
      · rename_i b hb
        rw [hb, hisReady]
      · cases hisReady
  · intro hmem
    obtain ⟨hstate, hdeps⟩ := hmem
    have hlt := lt_len_of_stateOf hstate
    obtain ⟨node, hnode, hpending⟩ := Option.map_eq_some_iff.mp hstate
    have hid : node.id = id := h.ids id node hnode
    exact ⟨node, ⟨List.mem_of_getElem? hnode, hpending, by rw [hid, (isReady_iff h hlt).mpr hdeps]⟩, hid⟩

/-- The identifiers of a well-formed graph count upwards from zero. -/
theorem map_id_nodes {g : BuildGraph T} (h : g.WellFormed) :
    g.nodes.map (·.id) = List.range g.len := by
  apply List.ext_getElem?
  intro i
  rw [List.getElem?_map]
  by_cases hi : i < g.nodes.length
  · have hget : g.nodes[i]? = some g.nodes[i] := List.getElem?_eq_getElem hi
    have hlen : i < g.len := hi
    rw [hget, Option.map_some, h.ids i _ hget]
    simp [hlen]
  · have hlen : ¬ i < g.len := hi
    rw [List.getElem?_eq_none (Nat.le_of_not_lt hi)]
    simp [hlen]

/-- No node is listed as ready twice. -/
theorem nodup_readyNodes {g : BuildGraph T} (h : g.WellFormed) : g.readyNodes.Nodup := by
  have hsub : g.readyNodes.Sublist (g.nodes.map (·.id)) := List.filter_sublist.map _
  rw [map_id_nodes h] at hsub
  exact hsub.nodup List.nodup_range

end Queries

/-- A successful node is not unsuccessful. -/
theorem Successful.not_unsuccessful {g : BuildGraph T} {id : ℕ} (h : Successful g id) :
    ¬ Unsuccessful g id := by
  intro hbad
  obtain ⟨state, hstate, hgood⟩ := h
  obtain ⟨state', hstate', hbad⟩ := hbad
  rw [hstate, Option.some.injEq] at hstate'
  subst hstate'
  rw [TaskState.not_isUnsuccessful hgood] at hbad
  contradiction

/-- An active node is neither. -/
theorem not_successful_of_active {g : BuildGraph T} {id : ℕ} {state : TaskState}
    (hstate : g.stateOf id = some state) (hactive : state.isTerminal = false) :
    ¬ Successful g id ∧ ¬ Unsuccessful g id := by
  rw [TaskState.isTerminal_eq, Bool.or_eq_false_iff] at hactive
  refine ⟨?_, ?_⟩
  · intro h
    obtain ⟨state', hstate', hgood⟩ := h
    rw [hstate, Option.some.injEq] at hstate'
    subst hstate'
    rw [hactive.1] at hgood
    contradiction
  · intro h
    obtain ⟨state', hstate', hbad⟩ := h
    rw [hstate, Option.some.injEq] at hstate'
    subst hstate'
    rw [hactive.2] at hbad
    contradiction

/-- Satisfied dependencies stay satisfied while successful nodes keep their states. -/
theorem DepsSuccessful.mono {g g' : BuildGraph T} {id : ℕ} (h : DepsSuccessful g id)
    (hshape : g.SameShape g') (hkeep : ∀ x, Successful g x → g'.stateOf x = g.stateOf x) :
    DepsSuccessful g' id := by
  intro dep hdep
  rw [hshape.depList] at hdep
  have hgood := h dep hdep
  rw [Successful, hkeep dep hgood]
  exact hgood

/-- Resetting the states of a graph starts a build. -/
theorem Progress.reset {g : BuildGraph T} (h : g.WellFormed) : Progress g.resetStates where
  wellFormed := (g.sameShape_resetStates).wellFormed h
  unused := by
    intro x
    rw [stateOf_resetStates]
    split <;> simp
  started := by
    intro x state hstate hpending _
    rw [stateOf_resetStates] at hstate
    split at hstate
    · exact absurd (Option.some.inj hstate).symm hpending
    · contradiction
  cancelled := by
    intro x hx
    rw [g.sameShape_resetStates.len] at hx
    rw [stateOf_resetStates, if_pos hx]
    refine iff_of_false (by simp) ?_
    intro hdep
    obtain ⟨dep, _, state, hstate, hbad⟩ := hdep
    rw [stateOf_resetStates] at hstate
    split at hstate
    · rw [← Option.some.inj hstate] at hbad
      contradiction
    · contradiction

/-- The states a node moves to without failing. -/
def isAdvance : TaskState → Bool
  | .running | .succeeded | .cached => true
  | .pending | .ready | .failed | .skipped | .cancelled => false

/-- An active node whose dependencies are successful may start or succeed. -/
theorem Progress.advance {g : BuildGraph T} (h : Progress g) {id : ℕ} {old new : TaskState}
    (hold : g.stateOf id = some old) (hactive : old.isTerminal = false) (hnew : isAdvance new = true)
    (hdeps : DepsSuccessful g id) : Progress (g.withState id new) := by
  have hid := lt_len_of_stateOf hold
  have hshape := g.sameShape_withState id new
  have hneither := not_successful_of_active hold hactive
  have hother : ∀ x, x ≠ id → (g.withState id new).stateOf x = g.stateOf x := by
    intro x hx
    rw [g.stateOf_withState hid, if_neg hx]
  have hself : (g.withState id new).stateOf id = some new := by
    rw [g.stateOf_withState hid, if_pos rfl]
  have hgood : ∀ x, Successful g x → Successful (g.withState id new) x := by
    intro x hx
    have hne : x ≠ id := fun heq => hneither.1 (heq ▸ hx)
    rw [Successful, hother x hne]
    exact hx
  have hbad : ∀ x, Unsuccessful (g.withState id new) x ↔ Unsuccessful g x := by
    intro x
    by_cases hx : x = id
    · subst hx
      refine iff_of_false ?_ hneither.2
      intro hun
      obtain ⟨state, hstate, hbad⟩ := hun
      rw [hself, Option.some.injEq] at hstate
      subst hstate
      cases new <;> simp_all [isAdvance, TaskState.isUnsuccessful]
    · rw [Unsuccessful, Unsuccessful, hother x hx]
  constructor
  case wellFormed => exact hshape.wellFormed h.wellFormed
  case unused =>
    intro x
    by_cases hx : x = id
    · subst hx
      rw [hself]
      cases new <;> simp_all [isAdvance]
    · rw [hother x hx]
      exact h.unused x
  case started =>
    intro x state hstate hpending hcancelled dep hdep
    rw [hshape.depList] at hdep
    apply hgood
    by_cases hx : x = id
    · exact hdeps dep (hx ▸ hdep)
    · rw [hother x hx] at hstate
      exact h.started x state hstate hpending hcancelled dep hdep
  case cancelled =>
    intro x hx
    rw [hshape.len] at hx
    simp only [hshape.depList, hbad]
    by_cases heq : x = id
    · subst heq
      rw [hself, ← h.cancelled x hx, hold]
      refine iff_of_false ?_ ?_
      · cases new <;> simp_all [isAdvance]
      · cases old <;> simp_all [TaskState.isTerminal]
    · rw [hother x heq]
      exact h.cancelled x hx

section Failure

variable {g g' : BuildGraph T} {id : ℕ}

/-- The nodes a failing node blocks, itself included. -/
def Blocked (g : BuildGraph T) (id x : ℕ) : Prop :=
  ReflTransGen (g.withState id .failed).ActiveEdge id x

/-- A blocked node is the failing one or is entered by an edge from a blocked node. -/
theorem blocked_cases (hid : id < g.len) {x : ℕ} (hblocked : Blocked g id x) :
    x = id ∨ (x ≠ id ∧ g.active x = true ∧ ∃ c, Blocked g id c ∧ g.Edge c x) := by
  cases ReflTransGen.cases_tail hblocked with
  | inl heq => exact Or.inl heq
  | inr hlast =>
    obtain ⟨c, hpath, hedge, hactive⟩ := hlast
    rw [(g.sameShape_withState id .failed).edge] at hedge
    rw [g.active_withState hid rfl, Bool.and_eq_true, decide_eq_true_eq] at hactive
    exact Or.inr ⟨hactive.2, hactive.1, c, hpath, hedge⟩

/-- An active successor of a blocked node is blocked. -/
theorem Blocked.step (hid : id < g.len) {x y : ℕ} (hblocked : Blocked g id x) (hedge : g.Edge x y)
    (hactive : g.active y = true) (hne : y ≠ id) : Blocked g id y := by
  refine ReflTransGen.tail hblocked ⟨?_, ?_⟩
  · rw [(g.sameShape_withState id .failed).edge]
    exact hedge
  · rw [g.active_withState hid rfl, hactive, Bool.true_and, decide_eq_true_eq]
    exact hne

/-- Blocked nodes are active, so they are neither successful nor unsuccessful yet. -/
theorem Blocked.neither (hrunning : g.stateOf id = some .running) {x : ℕ}
    (hblocked : Blocked g id x) : ¬ Successful g x ∧ ¬ Unsuccessful g x := by
  cases blocked_cases (lt_len_of_stateOf hrunning) hblocked with
  | inl heq => exact heq ▸ not_successful_of_active hrunning rfl
  | inr hother =>
    obtain ⟨state, hstate⟩ := exists_stateOf (lt_len_of_active hother.2.1)
    have hactive := hother.2.1
    rw [active, hstate] at hactive
    exact not_successful_of_active hstate (by simpa using hactive)

/-- A node that is blocked by another one is still pending. -/
theorem Progress.pending_of_blocked (h : Progress g) (hrunning : g.stateOf id = some .running)
    {x : ℕ} (hne : x ≠ id) (hblocked : Blocked g id x) : g.stateOf x = some .pending := by
  cases blocked_cases (lt_len_of_stateOf hrunning) hblocked with
  | inl heq => exact absurd heq hne
  | inr hother =>
    obtain ⟨_, hactive, c, hc, hedge⟩ := hother
    obtain ⟨state, hstate⟩ := exists_stateOf (lt_len_of_active hactive)
    have hneither := (hc.neither hrunning).1
    have hdep : c ∈ g.depList x := h.wellFormed.mem_depList_iff.mpr hedge
    have hunused := h.unused x
    rw [active, hstate] at hactive
    cases state with
    | pending => exact hstate
    | running => exact absurd (h.started x _ hstate (by simp) (by simp) c hdep) hneither
    | ready => exact absurd hstate hunused.1
    | succeeded => contradiction
    | failed => contradiction
    | skipped => contradiction
    | cached => contradiction
    | cancelled => contradiction

/-- A node that is not blocked and depends on a blocked one has been cancelled before. -/
theorem Progress.cancelled_of_not_blocked (h : Progress g) (hrunning : g.stateOf id = some .running)
    {x dep : ℕ} (hne : x ≠ id) (hnot : ¬ Blocked g id x) (hdep : dep ∈ g.depList x)
    (hblocked : Blocked g id dep) : g.stateOf x = some .cancelled := by
  have hid := lt_len_of_stateOf hrunning
  have hedge := h.wellFormed.mem_depList_iff.mp hdep
  obtain ⟨state, hstate⟩ := exists_stateOf (h.wellFormed.inRange dep x hedge)
  have hinactive : ¬ g.active x = true := fun hactive => hnot (hblocked.step hid hedge hactive hne)
  rw [active, hstate] at hinactive
  by_contra hcancelled
  have hpending : state ≠ .pending := by
    intro heq
    subst heq
    exact hinactive rfl
  have hstarted := h.started x state hstate hpending (by rw [hstate] at hcancelled; simpa using hcancelled)
  exact (hblocked.neither hrunning).1 (hstarted dep hdep)

/-- A failure changes the success of no node. -/
theorem successful_failedAt (hrunning : g.stateOf id = some .running)
    (hfail : g.FailedAt id g') (x : ℕ) : Successful g' x ↔ Successful g x := by
  by_cases hx : x = id
  · subst hx
    refine iff_of_false ?_ (not_successful_of_active hrunning rfl).1
    simp [Successful, hfail.failed, TaskState.isSuccessful]
  · by_cases hblocked : Blocked g id x
    · refine iff_of_false ?_ (hblocked.neither hrunning).1
      simp [Successful, hfail.cancelled x hx hblocked, TaskState.isSuccessful]
    · rw [Successful, Successful, hfail.kept x hx hblocked]

/-- A failure makes the blocked nodes unsuccessful, and no others. -/
theorem unsuccessful_failedAt (hfail : g.FailedAt id g') (x : ℕ) :
    Unsuccessful g' x ↔ Unsuccessful g x ∨ Blocked g id x := by
  by_cases hx : x = id
  · subst hx
    exact iff_of_true ⟨.failed, hfail.failed, rfl⟩ (Or.inr .refl)
  · by_cases hblocked : Blocked g id x
    · exact iff_of_true ⟨.cancelled, hfail.cancelled x hx hblocked, rfl⟩ (Or.inr hblocked)
    · rw [Unsuccessful, Unsuccessful, hfail.kept x hx hblocked]
      simp [hblocked]

/-- A running node may fail. -/
theorem Progress.fail (h : Progress g) (hrunning : g.stateOf id = some .running)
    (hfail : g.FailedAt id g') : Progress g' := by
  have hdepsId := h.started id .running hrunning (by simp) (by simp)
  constructor
  case wellFormed => exact hfail.shape.wellFormed h.wellFormed
  case unused =>
    intro x
    by_cases hx : x = id
    · subst hx
      simp [hfail.failed]
    · by_cases hblocked : Blocked g id x
      · simp [hfail.cancelled x hx hblocked]
      · rw [hfail.kept x hx hblocked]
        exact h.unused x
  case started =>
    intro x state hstate hpending hcancelled dep hdep
    rw [hfail.shape.depList] at hdep
    rw [successful_failedAt hrunning hfail]
    by_cases hx : x = id
    · exact hdepsId dep (hx ▸ hdep)
    · by_cases hblocked : Blocked g id x
      · rw [hfail.cancelled x hx hblocked, Option.some.injEq] at hstate
        exact absurd hstate.symm hcancelled
      · rw [hfail.kept x hx hblocked] at hstate
        exact h.started x state hstate hpending hcancelled dep hdep
  case cancelled =>
    intro x hx
    rw [hfail.shape.len] at hx
    simp only [hfail.shape.depList, unsuccessful_failedAt hfail]
    by_cases heq : x = id
    · subst heq
      rw [hfail.failed]
      refine iff_of_false (by simp) ?_
      intro hex
      obtain ⟨dep, hdep, hbad⟩ := hex
      have hgood := hdepsId dep hdep
      cases hbad with
      | inl hun => exact hgood.not_unsuccessful hun
      | inr hblocked => exact (hblocked.neither hrunning).1 hgood
    · by_cases hblocked : Blocked g id x
      · refine iff_of_true (hfail.cancelled x heq hblocked) ?_
        cases blocked_cases (lt_len_of_stateOf hrunning) hblocked with
        | inl hid => exact absurd hid heq
        | inr hother =>
          obtain ⟨_, _, c, hc, hedge⟩ := hother
          exact ⟨c, h.wellFormed.mem_depList_iff.mpr hedge, Or.inr hc⟩
      · rw [hfail.kept x heq hblocked]
        constructor
        · intro hcancelled
          obtain ⟨dep, hdep, hun⟩ := (h.cancelled x hx).mp hcancelled
          exact ⟨dep, hdep, Or.inl hun⟩
        · intro hex
          obtain ⟨dep, hdep, hbad⟩ := hex
          cases hbad with
          | inl hun => exact (h.cancelled x hx).mpr ⟨dep, hdep, hun⟩
          | inr hdepBlocked => exact h.cancelled_of_not_blocked hrunning heq hblocked hdep hdepBlocked

/-- A failure touches, apart from the failing node, only pending nodes, and cancels them. -/
theorem Progress.fail_kept (h : Progress g) (hrunning : g.stateOf id = some .running)
    (hfail : g.FailedAt id g') (x : ℕ) (hne : x ≠ id) : g'.stateOf x = g.stateOf x ∨
      (g.stateOf x = some .pending ∧ ¬ DepsSuccessful g x ∧ g'.stateOf x = some .cancelled) := by
  by_cases hblocked : Blocked g id x
  · right
    refine ⟨h.pending_of_blocked hrunning hne hblocked, ?_, hfail.cancelled x hne hblocked⟩
    intro hdeps
    cases blocked_cases (lt_len_of_stateOf hrunning) hblocked with
    | inl hid => exact hne hid
    | inr hother =>
      obtain ⟨_, _, c, hc, hedge⟩ := hother
      exact (hc.neither hrunning).1 (hdeps c (h.wellFormed.mem_depList_iff.mpr hedge))
  · exact Or.inl (hfail.kept x hne hblocked)

end Failure

/-- A node is cancelled exactly when a transitive dependency failed. -/
theorem Progress.cancelled_iff {g : BuildGraph T} (h : Progress g) (x : ℕ) :
    g.stateOf x = some .cancelled ↔ ∃ dep, TransGen g.Edge dep x ∧ g.stateOf dep = some .failed := by
  constructor
  · induction x using h.wellFormed.edge_wf.induction with
    | _ x ih =>
      intro hcancelled
      obtain ⟨dep, hdep, state, hstate, hbad⟩ := (h.cancelled x (lt_len_of_stateOf hcancelled)).mp hcancelled
      have hedge := h.wellFormed.mem_depList_iff.mp hdep
      cases state with
      | failed => exact ⟨dep, .single hedge, hstate⟩
      | cancelled =>
        obtain ⟨root, hpath, hfailed⟩ := ih dep hedge hstate
        exact ⟨root, hpath.tail hedge, hfailed⟩
      | pending => contradiction
      | ready => contradiction
      | running => contradiction
      | succeeded => contradiction
      | skipped => contradiction
      | cached => contradiction
  · intro hex
    obtain ⟨dep, hpath, hfailed⟩ := hex
    have hstep : ∀ a b, Unsuccessful g a → g.Edge a b → g.stateOf b = some .cancelled := by
      intro a b hun hedge
      exact (h.cancelled b (h.wellFormed.inRange a b hedge)).mpr
        ⟨a, h.wellFormed.mem_depList_iff.mpr hedge, hun⟩
    induction hpath with
    | single hedge => exact hstep _ _ ⟨.failed, hfailed, rfl⟩ hedge
    | tail _ hedge ih => exact hstep _ _ ⟨.cancelled, ih, rfl⟩ hedge

/-- The scan over all nodes finds only terminal states exactly when every state is terminal. -/
theorem all_isTerminal_iff (g : BuildGraph T) :
    (g.nodes.all fun node => node.state.isTerminal) = true ↔
      ∀ x state, g.stateOf x = some state → state.isTerminal = true := by
  rw [List.all_eq_true]
  constructor
  · intro hall x state hstate
    obtain ⟨node, hnode, heq⟩ := Option.map_eq_some_iff.mp hstate
    exact heq ▸ hall node (List.mem_of_getElem? hnode)
  · intro hall node hmem
    obtain ⟨i, hi⟩ := List.mem_iff_getElem?.mp hmem
    apply hall i
    rw [stateOf, BuildGraph.node, hi, Option.map_some]

/-- When nothing runs and nothing is ready, every node is in a terminal state. -/
theorem Progress.settled {g : BuildGraph T} (h : Progress g)
    (hidle : ∀ x, g.stateOf x ≠ some .running) (hready : g.readyNodes = []) (x : ℕ)
    (state : TaskState) (hstate : g.stateOf x = some state) : state.isTerminal = true := by
  induction x using h.wellFormed.edge_wf.induction generalizing state with
  | _ x ih =>
    cases state with
    | succeeded => rfl
    | failed => rfl
    | skipped => rfl
    | cached => rfl
    | cancelled => rfl
    | ready => exact absurd hstate (h.unused x).1
    | running => exact absurd hstate (hidle x)
    | pending =>
      -- every dependency is terminal by induction, and none of them is unsuccessful
      have hdeps : DepsSuccessful g x := by
        intro dep hdep
        obtain ⟨state, hdepState⟩ := exists_stateOf (h.wellFormed.depList_lt hdep)
        have hterminal := ih dep (h.wellFormed.mem_depList_iff.mp hdep) state hdepState
        rw [TaskState.isTerminal_eq, Bool.or_eq_true] at hterminal
        cases hterminal with
        | inl hgood => exact ⟨state, hdepState, hgood⟩
        | inr hbad =>
          have hcancelled := (h.cancelled x (lt_len_of_stateOf hstate)).mpr ⟨dep, hdep, state, hdepState, hbad⟩
          rw [hstate] at hcancelled
          contradiction
      have hmem := (mem_readyNodes h.wellFormed x).mpr ⟨hstate, hdeps⟩
      rw [hready] at hmem
      exact absurd hmem List.not_mem_nil

end Forge.Schedule
