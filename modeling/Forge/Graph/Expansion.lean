import Forge.Graph.Built

/-!
# Dynamic expansion

Generated tasks are added one by one, and the first refused dependency ends the expansion
where it stands: the nodes and edges added until then stay. The expansion is all or nothing
exactly when none of its requests can be refused.
-/

namespace Forge.Graph.BuildGraph

open Relation Forge.Common

variable {T : Type*}

/-- Whether all of an expansion can be added: the parent is a node, and each task names nodes that were there or
that were generated before it. -/
def Resolvable (g : BuildGraph T) (parent : NodeId) (tasks : List (DynamicTaskSpec T)) : Prop :=
  (tasks ≠ [] → parent < g.len) ∧
    ∀ i task, tasks[i]? = some task → ∀ dep ∈ task.dependencies, dep < g.len + i

/-- What an expansion that succeeds makes of a graph: a fresh node for each task, which depends on the parent and on
what the task lists. -/
structure Expanded (g : BuildGraph T) (parent : NodeId) (tasks : List (DynamicTaskSpec T)) (g' : BuildGraph T) :
    Prop where
  len : g'.len = g.len + tasks.length
  kept : ∀ id < g.len, g'.node id = g.node id ∧ g'.depList id = g.depList id
  fresh : ∀ i task, tasks[i]? = some task →
    g'.node (g.len + i) = some ⟨g.len + i, task.payload, .pending⟩ ∧
      g'.depList (g.len + i) = parent :: task.dependencies

/-- An expansion is all or nothing: when it fails the graph is as before, and when it succeeds every task has its
node with its dependencies. -/
def Atomic (g : BuildGraph T) (parent : NodeId) (tasks : List (DynamicTaskSpec T)) : Prop :=
  (∀ e, (expandNode parent tasks [] g).1 = .error e → (expandNode parent tasks [] g).2 = g) ∧
    ∀ ids, (expandNode parent tasks [] g).1 = .ok ids →
      ids = List.range' g.len tasks.length ∧ Expanded g parent tasks (expandNode parent tasks [] g).2

/-! ## Expansions that go through -/

/-- An expansion is resolvable when its first task is and the rest is, behind the first. -/
theorem resolvable_cons_iff {g g' : BuildGraph T} {parent : NodeId} {task : DynamicTaskSpec T}
    {tasks : List (DynamicTaskSpec T)} (hlen : g'.len = g.len + 1) :
    Resolvable g parent (task :: tasks) ↔
      parent < g.len ∧ (∀ dep ∈ task.dependencies, dep < g.len) ∧ Resolvable g' parent tasks := by
  constructor
  · rintro ⟨hparent, hdeps⟩
    have hparent := hparent (List.cons_ne_nil task tasks)
    refine ⟨hparent, hdeps 0 task rfl, fun _ => ?_, fun i later hi dep hdep => ?_⟩
    · rw [hlen]
      exact Nat.lt_succ_of_lt hparent
    · have hlt := hdeps (i + 1) later (by rw [List.getElem?_cons_succ]; exact hi) dep hdep
      rw [hlen]
      omega
  · rintro ⟨hparent, hdeps, -, hrest⟩
    refine ⟨fun _ => hparent, fun i later hi dep hdep => ?_⟩
    cases i with
    | zero =>
      obtain rfl := Option.some.inj hi
      exact hdeps dep hdep
    | succ i =>
      have hlt := hrest i later hi dep hdep
      rw [hlen] at hlt
      omega

/-- A fresh node takes its parent and its other dependencies, when these are nodes that were there. -/
theorem WellFormed.addChild {g : BuildGraph T} (h : g.WellFormed) {parent : ℕ} {task : DynamicTaskSpec T}
    (hparent : parent < g.len) (hdeps : ∀ dep ∈ task.dependencies, dep < g.len) :
    ∃ g₁ g₂, (g.addNode task.payload).2.addDependency parent g.len = (.ok (), g₁) ∧
      BuildGraph.addDependencies g.len task.dependencies g₁ = (.ok (), g₂) ∧ g₂.WellFormed ∧
      g₂.nodes = g.nodes ++ [⟨g.len, task.payload, .pending⟩] ∧ g₂.depList g.len = parent :: task.dependencies ∧
      ∀ id < g.len, g₂.depList id = g.depList id := by
  have hwf := h.addNode task.payload
  have hchild : g.len < (g.addNode task.payload).2.len := by
    rw [len_addNode]
    exact Nat.lt_succ_self _
  have hnone : g.dependentList g.len = [] := by
    rw [dependentList, List.getElem?_eq_none (by rw [h.dependentsLength]; exact le_rfl)]
    rfl
  have hnodeps : g.depList g.len = [] := by
    rw [depList, List.getElem?_eq_none (by rw [h.depsLength]; exact le_rfl)]
    rfl
  have hsink : (g.addNode task.payload).2.dependentList g.len = [] := by
    rw [dependentList_addNode]
    exact hnone
  have hrange : ∀ dep ∈ parent :: task.dependencies, dep < (g.addNode task.payload).2.len ∧ dep ≠ g.len := by
    intro dep hdep
    have hall : ∀ dep ∈ parent :: task.dependencies, dep < g.len := List.forall_mem_cons.mpr ⟨hparent, hdeps⟩
    have hlt := hall dep hdep
    rw [len_addNode]
    exact ⟨Nat.lt_succ_of_lt hlt, Nat.ne_of_lt hlt⟩
  have hok := hwf.addDependency_sink hchild hsink (hrange parent List.mem_cons_self).1 (hrange parent List.mem_cons_self).2
  obtain ⟨g₂, hadded, hnodes, hself, hothers⟩ := hwf.addDependencies_sink hchild hsink hrange
  rw [BuildGraph.addDependencies, hok] at hadded
  replace hadded : BuildGraph.addDependencies g.len task.dependencies ((g.addNode task.payload).2.pushEdge parent g.len) =
    (.ok (), g₂) := hadded
  refine ⟨_, g₂, hok, hadded, ?_, hnodes, ?_, fun id hid => ?_⟩
  · have hkept := (hwf.addDependency parent g.len).addDependencies g.len task.dependencies
    simp only [hok, hadded] at hkept
    exact hkept
  · rw [hself, depList_addNode, hnodeps, List.nil_append]
  · rw [hothers id (Nat.ne_of_lt hid), depList_addNode]

/-- An expansion whose requests can all be granted succeeds with all of its tasks. -/
theorem WellFormed.expandNode_ok {g : BuildGraph T} (h : g.WellFormed) {parent : ℕ} {tasks : List (DynamicTaskSpec T)}
    (hresolvable : Resolvable g parent tasks) (createdIds : List ℕ) :
    ∃ g', BuildGraph.expandNode parent tasks createdIds g = (.ok (createdIds ++ List.range' g.len tasks.length), g') ∧
      Expanded g parent tasks g' := by
  induction tasks generalizing g createdIds with
  | nil =>
    refine ⟨g, by rw [List.length_nil, List.range'_zero, List.append_nil]; rfl, rfl, fun _ _ => ⟨rfl, rfl⟩, ?_⟩
    intro i task hi
    exact absurd hi (by simp)
  | cons task tasks ih =>
    have hfirst := (resolvable_cons_iff (g.len_addNode task.payload)).mp hresolvable
    obtain ⟨g₁, g₂, hok, hadded, hwf, hnodes, hself, hothers⟩ := h.addChild hfirst.1 hfirst.2.1
    have hlen : g₂.len = g.len + 1 := by
      rw [len, hnodes, List.length_append, List.length_singleton]
      rfl
    obtain ⟨g', heq, hexpanded⟩ := ih hwf ((resolvable_cons_iff hlen).mp hresolvable).2.2 (createdIds ++ [g.len])
    have hnode : ∀ id ≤ g.len, g'.node id = g₂.node id ∧ g'.depList id = g₂.depList id :=
      fun id hid => hexpanded.kept id (by omega)
    refine ⟨g', ?_, ⟨?_, fun id hid => ?_, fun i later hi => ?_⟩⟩
    · have hchild : g.addNode task.payload = (g.len, (g.addNode task.payload).2) := rfl
      rw [BuildGraph.expandNode, hchild]
      simp only [hok, hadded, heq, hlen, List.length_cons, List.range'_succ, List.append_assoc, List.singleton_append]
    · rw [hexpanded.len, hlen, List.length_cons]
      omega
    · rw [(hnode id (Nat.le_of_lt hid)).1, (hnode id (Nat.le_of_lt hid)).2, hothers id hid]
      refine ⟨?_, rfl⟩
      rw [node, node, hnodes, List.getElem?_append_left hid]
    · cases i with
      | zero =>
        obtain rfl := Option.some.inj hi
        rw [Nat.add_zero, (hnode g.len le_rfl).1, (hnode g.len le_rfl).2]
        refine ⟨?_, hself⟩
        rw [node, hnodes]
        exact List.getElem?_concat_length
      | succ i =>
        have hlater := hexpanded.fresh i later hi
        rw [hlen, Nat.add_assoc, Nat.add_comm 1 i] at hlater
        exact hlater

/-! ## Expansions that are refused -/

/-- A dependency that is not a node is refused, and no node goes with it. -/
theorem WellFormed.addDependencies_error {g : BuildGraph T} (h : g.WellFormed) {child : ℕ} {deps : List ℕ}
    (hbad : ∃ dep ∈ deps, g.len ≤ dep ∨ dep = child) :
    ∃ e g', BuildGraph.addDependencies child deps g = (.error e, g') ∧ g'.len = g.len := by
  induction deps generalizing g with
  | nil =>
    obtain ⟨dep, hdep, -⟩ := hbad
    exact absurd hdep List.not_mem_nil
  | cons dep deps ih =>
    have hnext := h.addDependency dep child
    have hlen : (g.addDependency dep child).2.len = g.len := by
      rw [len, nodes_addDependency]
      rfl
    rw [BuildGraph.addDependencies]
    cases hresult : g.addDependency dep child with
    | mk result g₁ =>
      rw [hresult] at hnext hlen
      cases result with
      | error e => exact ⟨e, g₁, rfl, hlen⟩
      | ok =>
        have hgood : ¬ (g.len ≤ dep ∨ dep = child) := by
          intro hbad
          obtain ⟨e, herror⟩ := (h.addDependency_error_iff dep child).mpr
            (hbad.elim Or.inl fun heq => Or.inr (Or.inr (Or.inl heq)))
          rw [hresult] at herror
          exact absurd herror (by simp)
        have hlater : ∃ dep ∈ deps, g₁.len ≤ dep ∨ dep = child := by
          obtain ⟨bad, hmem, hbad⟩ := hbad
          rcases List.mem_cons.mp hmem with rfl | hmem
          · exact absurd hbad hgood
          · exact ⟨bad, hmem, by rw [hlen]; exact hbad⟩
        obtain ⟨e, g', heq, hlen'⟩ := ih hnext hlater
        exact ⟨e, g', heq, hlen'.trans hlen⟩

/-- An expansion with a request that cannot be granted fails, and leaves nodes behind. -/
theorem WellFormed.expandNode_error {g : BuildGraph T} (h : g.WellFormed) {parent : ℕ} {tasks : List (DynamicTaskSpec T)}
    (hnot : ¬ Resolvable g parent tasks) (createdIds : List ℕ) :
    ∃ e g', BuildGraph.expandNode parent tasks createdIds g = (.error e, g') ∧ g.len < g'.len := by
  induction tasks generalizing g createdIds with
  | nil => exact absurd ⟨fun hne => absurd rfl hne, fun i task hi => absurd hi (by simp)⟩ hnot
  | cons task tasks ih =>
    have hwf := h.addNode task.payload
    have hlen := g.len_addNode task.payload
    have hchild : g.addNode task.payload = (g.len, (g.addNode task.payload).2) := rfl
    have hnext := hwf.addDependency parent g.len
    have hlen₁ : ((g.addNode task.payload).2.addDependency parent g.len).2.len = g.len + 1 := by
      rw [len, nodes_addDependency]
      exact hlen
    rw [BuildGraph.expandNode, hchild]
    cases hresult : (g.addNode task.payload).2.addDependency parent g.len with
    | mk result g₁ =>
      rw [hresult] at hnext hlen₁
      simp only at hnext hlen₁
      simp only [hresult]
      cases result with
      | error e => exact ⟨e, g₁, rfl, by rw [hlen₁]; exact Nat.lt_succ_self _⟩
      | ok =>
        have hparent : parent < g.len := by
          by_contra hge
          have hbad : (g.addNode task.payload).2.len ≤ parent ∨ parent = g.len := by omega
          obtain ⟨e, herror⟩ := (hwf.addDependency_error_iff parent g.len).mpr
            (hbad.elim Or.inl fun heq => Or.inr (Or.inr (Or.inl heq)))
          rw [hresult] at herror
          exact absurd herror (by simp)
        by_cases hdeps : ∀ dep ∈ task.dependencies, dep < g.len
        · obtain ⟨_, g₂, hok, hadded, hwf₂, hnodes, -⟩ := h.addChild hparent hdeps
          rw [hresult, Prod.mk.injEq] at hok
          obtain ⟨-, rfl⟩ := hok
          have hlen₂ : g₂.len = g.len + 1 := by
            rw [len, hnodes, List.length_append, List.length_singleton]
            rfl
          obtain ⟨e, g', heq, hlt⟩ := ih hwf₂
            (fun hrest => hnot ((resolvable_cons_iff hlen₂).mpr ⟨hparent, hdeps, hrest⟩)) (createdIds ++ [g.len])
          refine ⟨e, g', ?_, by omega⟩
          simp only [hadded, heq]
        · have hbad : ∃ dep ∈ task.dependencies, g₁.len ≤ dep ∨ dep = g.len := by
            obtain ⟨dep, hdep⟩ := not_forall.mp hdeps
            obtain ⟨hmem, hnlt⟩ := Classical.not_imp.mp hdep
            have hge : g.len ≤ dep := Nat.le_of_not_lt hnlt
            rcases Nat.eq_or_lt_of_le hge with heq | hlt
            · exact ⟨dep, hmem, Or.inr heq.symm⟩
            · exact ⟨dep, hmem, Or.inl (hlen₁ ▸ hlt)⟩
          obtain ⟨e, g₂, heq, hlen₂⟩ := hnext.addDependencies_error hbad
          refine ⟨e, g₂, ?_, by omega⟩
          simp only [heq]

/-! ## All or nothing -/

/-- An expansion of a built graph is all or nothing exactly when all of it can be added: whatever is refused comes after
a node that stays. -/
theorem atomic_iff_resolvable (g : BuildGraph T) (h : g.Built) (parent : NodeId) (tasks : List (DynamicTaskSpec T)) :
    Atomic g parent tasks ↔ Resolvable g parent tasks := by
  constructor
  · intro hatomic
    by_contra hnot
    obtain ⟨e, g', heq, hlt⟩ := h.wellFormed.expandNode_error hnot []
    have hsame := hatomic.1 e (by rw [heq])
    rw [heq] at hsame
    exact absurd (congrArg len hsame) (Nat.ne_of_gt hlt)
  · intro hresolvable
    obtain ⟨g', heq, hexpanded⟩ := h.wellFormed.expandNode_ok hresolvable []
    rw [Atomic, heq]
    refine ⟨fun e herror => absurd herror (by simp), fun ids hids => ⟨?_, hexpanded⟩⟩
    rw [List.nil_append] at hids
    exact (Except.ok.inj hids).symm

/-- Two tasks below the last node of the chain, the second after the first, are added together. -/
theorem atomic_chain : Atomic chain 2 [⟨40, []⟩, ⟨50, [3, 0]⟩] := by
  refine (atomic_iff_resolvable chain chain_built 2 [⟨40, []⟩, ⟨50, [3, 0]⟩]).mpr ⟨by decide, fun i task hi dep hdep => ?_⟩
  have hlen : chain.len = 3 := by decide
  rcases i with _ | _ | i
  · obtain rfl := Option.some.inj hi
    exact absurd hdep List.not_mem_nil
  · obtain rfl := Option.some.inj hi
    simp only [List.mem_cons, List.not_mem_nil, or_false] at hdep
    omega
  · exact absurd hi (by simp)

/-- A task that names an unknown node is refused, and its own node stays in the graph. -/
theorem not_atomic_chain : ¬ Atomic chain 0 [⟨40, [9]⟩] := by
  intro hatomic
  have hsame := hatomic.1 (.missingNode 9) (by decide)
  exact absurd (congrArg len hsame) (by decide)

end Forge.Graph.BuildGraph
