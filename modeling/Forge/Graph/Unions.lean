import Forge.Graph.Merging
import Mathlib.Algebra.GroupWithZero.Nat

/-!
# Several graphs side by side

Graphs that are merged one after the other lie side by side, each behind those before it. When
every one has a label, so has every node, and an edge never leads from one label to another.
Edges from the other labels into one of them close no cycle and are therefore all accepted.
-/

namespace Forge.Graph.BuildGraph

open Relation Forge.Common

variable {T L : Type*}

/-- A graph that has the nodes of another and their edges as they were, and maybe more. -/
structure Keeps (g g' : BuildGraph T) : Prop where
  len : g.len ≤ g'.len
  kept : ∀ id < g.len, g'.node id = g.node id ∧ g'.depList id = g.depList id ∧ g'.dependentList id = g.dependentList id

/-- A graph keeps itself. -/
theorem Keeps.refl (g : BuildGraph T) : g.Keeps g := ⟨le_refl _, fun _ _ => ⟨rfl, rfl, rfl⟩⟩

/-- What keeps a graph that keeps another keeps that. -/
theorem Keeps.trans {g g' g'' : BuildGraph T} (h : g.Keeps g') (h' : g'.Keeps g'') : g.Keeps g'' := by
  refine ⟨h.len.trans h'.len, fun id hid => ?_⟩
  obtain ⟨hnode, hdeps, hdependents⟩ := h.kept id hid
  obtain ⟨hnode', hdeps', hdependents'⟩ := h'.kept id (Nat.lt_of_lt_of_le hid h.len)
  exact ⟨hnode'.trans hnode, hdeps'.trans hdeps, hdependents'.trans hdependents⟩

/-- A fresh copy of a graph whose nodes are numbered from a start. -/
structure CopiedAt (g : BuildGraph T) (start : ℕ) (other : BuildGraph T) : Prop where
  nodes : ∀ id < other.len, g.payloadOf (start + id) = other.payloadOf id ∧ g.stateOf (start + id) = some .pending
  deps : ∀ id < other.len, g.depList (start + id) = (other.depList id).map (start + ·)
  dependents : ∀ id < other.len, (g.dependentList (start + id)).Perm ((other.dependentList id).map (start + ·))

/-- A disjoint union has a copy of the second graph behind the first. -/
theorem DisjointUnion.copiedAt {g other g' : BuildGraph T} (h : DisjointUnion g other g') : g'.CopiedAt g.len other :=
  ⟨h.copied, fun id _ => h.deps id, fun id _ => h.dependents id⟩

/-- A disjoint union keeps the first graph. -/
theorem DisjointUnion.keeps {g other g' : BuildGraph T} (h : DisjointUnion g other g') : g.Keeps g' :=
  ⟨h.len ▸ Nat.le_add_right _ _, h.kept⟩

/-- What keeps a graph keeps the copies in it. -/
theorem CopiedAt.keeps {g g' other : BuildGraph T} {start : ℕ} (h : g.CopiedAt start other) (hkeeps : g.Keeps g')
    (hlen : start + other.len ≤ g.len) : g'.CopiedAt start other := by
  have hkept (id : ℕ) (hid : id < other.len) := hkeeps.kept (start + id) (by omega)
  refine ⟨fun id hid => ?_, fun id hid => ?_, fun id hid => ?_⟩
  · rw [payloadOf, stateOf, (hkept id hid).1]
    exact h.nodes id hid
  · rw [(hkept id hid).2.1]
    exact h.deps id hid
  · rw [(hkept id hid).2.2]
    exact h.dependents id hid

/-- The number of nodes of several graphs. -/
def totalLen (parts : List (L × BuildGraph T)) : ℕ := (parts.map fun part => part.2.len).sum

/-- Fresh copies of several graphs, one behind the other from a start. -/
def Copies (g : BuildGraph T) : ℕ → List (L × BuildGraph T) → Prop
  | _, [] => True
  | start, (_, other) :: parts => g.CopiedAt start other ∧ Copies g (start + other.len) parts

/-- The nodes of several graphs from a start, with their labels. -/
def labelled : ℕ → List (L × BuildGraph T) → List (L × NodeId)
  | _, [] => []
  | start, (label, other) :: parts =>
    (List.range' start other.len).map (fun id => (label, id)) ++ labelled (start + other.len) parts

/-- The nodes of the graphs with certain labels. -/
def nodesLabelled (parts : List (L × BuildGraph T)) (p : L → Bool) : List NodeId :=
  ((labelled 0 parts).filter fun node => p node.1).map Prod.snd

/-- The disjoint union of several graphs, with one more edge from every node of another label to every
node of one of certain labels, in any order. -/
def UnionInto (parts : List (L × BuildGraph T)) (p : L → Bool) (g : BuildGraph T) : Prop :=
  ∃ (union : BuildGraph T) (edges : List (NodeId × NodeId)), union.len = totalLen parts ∧ union.Copies 0 parts ∧
    edges.Perm ((nodesLabelled parts fun label => !p label).product (nodesLabelled parts p)) ∧
    union.AddsEdges edges g

/-- One more graph has its nodes more. -/
theorem totalLen_cons (label : L) (other : BuildGraph T) (parts : List (L × BuildGraph T)) :
    totalLen ((label, other) :: parts) = other.len + totalLen parts := by
  rw [totalLen, List.map_cons, List.sum_cons, totalLen]

/-- The nodes of more graphs are counted on. -/
theorem totalLen_append (parts more : List (L × BuildGraph T)) :
    totalLen (parts ++ more) = totalLen parts + totalLen more := by
  rw [totalLen, List.map_append, List.sum_append, totalLen, totalLen]

/-- The nodes of more graphs are labelled on. -/
theorem labelled_append (start : ℕ) (parts more : List (L × BuildGraph T)) :
    labelled start (parts ++ more) = labelled start parts ++ labelled (start + totalLen parts) more := by
  induction parts generalizing start with
  | nil => rfl
  | cons part parts ih =>
    obtain ⟨label, other⟩ := part
    rw [List.cons_append, labelled, labelled, ih, totalLen_cons, List.append_assoc, Nat.add_assoc]

/-- The copies of more graphs lie behind the others. -/
theorem copies_append {g : BuildGraph T} (start : ℕ) (parts more : List (L × BuildGraph T)) :
    g.Copies start (parts ++ more) ↔ g.Copies start parts ∧ g.Copies (start + totalLen parts) more := by
  induction parts generalizing start with
  | nil => exact ⟨fun h => ⟨trivial, h⟩, And.right⟩
  | cons part parts ih =>
    obtain ⟨label, other⟩ := part
    rw [List.cons_append, Copies, Copies, ih, totalLen_cons, Nat.add_assoc, and_assoc]

/-- What keeps a graph keeps several copies in it. -/
theorem Copies.keeps {g g' : BuildGraph T} {start : ℕ} {parts : List (L × BuildGraph T)} (h : g.Copies start parts)
    (hkeeps : g.Keeps g') (hlen : start + totalLen parts ≤ g.len) : g'.Copies start parts := by
  induction parts generalizing start with
  | nil => trivial
  | cons part parts ih =>
    obtain ⟨label, other⟩ := part
    rw [totalLen_cons] at hlen
    exact ⟨h.1.keeps hkeeps (by omega), ih h.2 (by omega)⟩

/-- The nodes of several graphs are numbered on from the start. -/
theorem labelled_ids (start : ℕ) (parts : List (L × BuildGraph T)) :
    (labelled start parts).map Prod.snd = List.range' start (totalLen parts) := by
  induction parts generalizing start with
  | nil => rfl
  | cons part parts ih =>
    obtain ⟨label, other⟩ := part
    rw [labelled, List.map_append, ih, List.map_map, totalLen_cons, ← List.range'_append_1]
    exact congrArg (· ++ _) (List.map_id _)

/-- A node has one label. -/
theorem labelled_unique {start : ℕ} {parts : List (L × BuildGraph T)} {label label' : L} {id : ℕ}
    (h : (label, id) ∈ labelled start parts) (h' : (label', id) ∈ labelled start parts) : label = label' := by
  have hnodup : ((labelled start parts).map Prod.snd).Nodup := by
    rw [labelled_ids]
    exact List.nodup_range'
  exact congrArg Prod.fst (List.inj_on_of_nodup_map hnodup h h' rfl)

/-- The ends of an edge into one of several graphs have the same label. -/
theorem Copies.same_label {g : BuildGraph T} (hwf : g.WellFormed) {start : ℕ} {parts : List (L × BuildGraph T)}
    (h : g.Copies start parts) (hparts : ∀ part ∈ parts, part.2.WellFormed) {a b : ℕ} (hedge : g.Edge a b)
    (hstart : start ≤ b) (hend : b < start + totalLen parts) :
    ∃ label, (label, a) ∈ labelled start parts ∧ (label, b) ∈ labelled start parts := by
  induction parts generalizing start with
  | nil => exact absurd hend (Nat.not_lt_of_le hstart)
  | cons part parts ih =>
    obtain ⟨label, other⟩ := part
    obtain ⟨hcopied, hrest⟩ := h
    obtain ⟨hother, hothers⟩ := List.forall_mem_cons.mp hparts
    by_cases hb : b < start + other.len
    · obtain ⟨id, rfl⟩ := Nat.exists_eq_add_of_le hstart
      have hdep := hwf.mem_depList_iff.mpr hedge
      rw [hcopied.deps id (by omega)] at hdep
      obtain ⟨dep, hmem, rfl⟩ := List.mem_map.mp hdep
      have hlt : dep < other.len := hother.depList_lt hmem
      have hmem (i : ℕ) (hi : i < other.len) :
          (label, start + i) ∈ (List.range' start other.len).map fun id => (label, id) :=
        List.mem_map_of_mem (List.mem_range'_1.mpr ⟨Nat.le_add_right _ _, Nat.add_lt_add_left hi _⟩)
      exact ⟨label, List.mem_append_left _ (hmem dep hlt), List.mem_append_left _ (hmem id (by omega))⟩
    · have hend' : b < start + other.len + totalLen parts := by
        rw [totalLen_cons] at hend
        omega
      obtain ⟨label', ha, hb⟩ := ih hrest hothers (by omega) hend'
      exact ⟨label', List.mem_append_right _ ha, List.mem_append_right _ hb⟩

/-- The nodes with certain labels. -/
theorem mem_nodesLabelled {parts : List (L × BuildGraph T)} {p : L → Bool} {id : ℕ} :
    id ∈ nodesLabelled parts p ↔ ∃ label, (label, id) ∈ labelled 0 parts ∧ p label = true := by
  rw [nodesLabelled, List.mem_map]
  constructor
  · rintro ⟨⟨label, id⟩, hmem, rfl⟩
    exact ⟨label, List.mem_filter.mp hmem⟩
  · rintro ⟨label, hmem, hp⟩
    exact ⟨(label, id), List.mem_filter.mpr ⟨hmem, hp⟩, rfl⟩

/-- The nodes with certain labels are nodes. -/
theorem lt_of_mem_nodesLabelled {parts : List (L × BuildGraph T)} {p : L → Bool} {id : ℕ}
    (h : id ∈ nodesLabelled parts p) : id < totalLen parts := by
  obtain ⟨label, hmem, -⟩ := mem_nodesLabelled.mp h
  have hid : id ∈ (labelled 0 parts).map Prod.snd := List.mem_map_of_mem hmem
  rw [labelled_ids] at hid
  have hrange := (List.mem_range'_1.mp hid).2
  omega

/-- A node does not have both one of certain labels and another. -/
theorem notMem_nodesLabelled {parts : List (L × BuildGraph T)} {p : L → Bool} {id : ℕ}
    (h : id ∈ nodesLabelled parts fun label => !p label) : id ∉ nodesLabelled parts p := by
  intro h'
  obtain ⟨label, hmem, hlabel⟩ := mem_nodesLabelled.mp h
  obtain ⟨label', hmem', hlabel'⟩ := mem_nodesLabelled.mp h'
  rw [labelled_unique hmem hmem', hlabel'] at hlabel
  exact Bool.false_ne_true hlabel

/-- Edges from the other labels into certain labels are all accepted. -/
theorem Copies.unionInto {g : BuildGraph T} (hwf : g.WellFormed) {parts : List (L × BuildGraph T)}
    (h : g.Copies 0 parts) (hlen : g.len = totalLen parts) (hparts : ∀ part ∈ parts, part.2.WellFormed) (p : L → Bool)
    {edges : List (NodeId × NodeId)}
    (hedges : edges.Perm ((nodesLabelled parts fun label => !p label).product (nodesLabelled parts p))) :
    UnionInto parts p (BuildGraph.addEdges edges g) := by
  have hsame : ∀ a b, g.Edge a b → (a ∈ nodesLabelled parts p ↔ b ∈ nodesLabelled parts p) := by
    intro a b hedge
    obtain ⟨label, ha, hb⟩ := h.same_label hwf hparts hedge (Nat.zero_le _)
      (by rw [Nat.zero_add, ← hlen]; exact hwf.inRange a b hedge)
    have hiff (id : ℕ) (hid : (label, id) ∈ labelled 0 parts) : id ∈ nodesLabelled parts p ↔ p label = true := by
      rw [mem_nodesLabelled]
      exact ⟨fun ⟨label', hmem, hp⟩ => labelled_unique hid hmem ▸ hp, fun hp => ⟨label, hid, hp⟩⟩
    rw [hiff a ha, hiff b hb]
  refine ⟨g, edges, hlen, h, hedges, ?_⟩
  refine (hwf.addEdges (acyclic_or_into hwf.acyclic hsame) (fun a b hedge => Or.inl hedge) fun edge hmem => ?_).1
  obtain ⟨hleft, hright⟩ := List.mem_product.mp (hedges.mem_iff.mp hmem)
  rw [hlen]
  exact ⟨lt_of_mem_nodesLabelled hleft, lt_of_mem_nodesLabelled hright, Or.inr ⟨notMem_nodesLabelled hleft, hright⟩⟩

/-- A graph with more edges has as many nodes. -/
theorem UnionInto.len {parts : List (L × BuildGraph T)} {p : L → Bool} {g : BuildGraph T} (h : UnionInto parts p g) :
    g.len = totalLen parts := by
  obtain ⟨union, edges, hlen, -, -, hadds⟩ := h
  rw [← hlen, hadds.len_eq]

/-! ## Graphs without nodes -/

/-- The graphs that have nodes. -/
def withNodes (parts : List (L × BuildGraph T)) : List (L × BuildGraph T) :=
  parts.filter fun part => part.2.len ≠ 0

/-- A graph without nodes is left out. -/
theorem withNodes_cons (label : L) (other : BuildGraph T) (parts : List (L × BuildGraph T)) :
    withNodes ((label, other) :: parts) = if other.len = 0 then withNodes parts else (label, other) :: withNodes parts := by
  rw [withNodes, List.filter_cons, ← withNodes]
  by_cases hempty : other.len = 0
  · rw [if_pos hempty, if_neg (by simp [hempty])]
  · rw [if_neg hempty, if_pos (by simp [hempty])]

/-- Graphs without nodes add none. -/
theorem totalLen_withNodes (parts : List (L × BuildGraph T)) : totalLen (withNodes parts) = totalLen parts := by
  induction parts with
  | nil => rfl
  | cons part parts ih =>
    obtain ⟨label, other⟩ := part
    rw [withNodes_cons, totalLen_cons, ← ih]
    by_cases hempty : other.len = 0
    · rw [if_pos hempty, hempty, Nat.zero_add]
    · rw [if_neg hempty, totalLen_cons]

/-- Graphs without nodes label none. -/
theorem labelled_withNodes (start : ℕ) (parts : List (L × BuildGraph T)) :
    labelled start (withNodes parts) = labelled start parts := by
  induction parts generalizing start with
  | nil => rfl
  | cons part parts ih =>
    obtain ⟨label, other⟩ := part
    rw [withNodes_cons, labelled, ← ih]
    by_cases hempty : other.len = 0
    · rw [if_pos hempty, hempty]
      rfl
    · rw [if_neg hempty, labelled]

/-- Graphs without nodes are copied by doing nothing. -/
theorem copies_withNodes {g : BuildGraph T} (start : ℕ) (parts : List (L × BuildGraph T)) :
    g.Copies start (withNodes parts) ↔ g.Copies start parts := by
  induction parts generalizing start with
  | nil => exact Iff.rfl
  | cons part parts ih =>
    obtain ⟨label, other⟩ := part
    rw [withNodes_cons, Copies, ← ih]
    by_cases hempty : other.len = 0
    · have hcopied : g.CopiedAt start other :=
        ⟨fun id hid => absurd hid (by omega), fun id hid => absurd hid (by omega), fun id hid => absurd hid (by omega)⟩
      rw [if_pos hempty, hempty, Nat.add_zero]
      exact ⟨fun h => ⟨hcopied, h⟩, And.right⟩
    · rw [if_neg hempty, Copies]

/-- Graphs without nodes do not matter for a union. -/
theorem unionInto_withNodes {parts : List (L × BuildGraph T)} {p : L → Bool} {g : BuildGraph T} :
    UnionInto (withNodes parts) p g ↔ UnionInto parts p g := by
  simp only [UnionInto, nodesLabelled, totalLen_withNodes, labelled_withNodes, copies_withNodes]

end Forge.Graph.BuildGraph
