import Mathlib.Data.Finset.Card
import Mathlib.Data.List.Chain
import Mathlib.Logic.Relation

/-!
# Breadth-first search finds shortest paths

The search keeps a queue, a visited set and the parent through which each vertex was first
seen. The invariant adds a depth for every visited vertex. Depths never decrease along the
queue and never exceed the depth of the vertex being expanded by more than one, so the
depth of the vertex at the front of the queue is a lower bound for every path to it, while
its parents spell out a path of exactly that length.
-/

namespace Forge.Common

open Relation

variable {α : Type*} {edge : α → α → Prop}

/-- A path as the list of the vertices it visits. -/
structure IsPath (edge : α → α → Prop) (a b : α) (path : List α) : Prop where
  chain : path.IsChain edge
  head : path.head? = some a
  last : path.getLast? = some b

/-- Every vertex of a path is reached from its start. -/
theorem IsPath.reaches_mem {a b c : α} {path : List α} (h : IsPath edge a b path)
    (hc : c ∈ path) : ReflTransGen edge a c := by
  induction path generalizing a with
  | nil => exact absurd hc List.not_mem_nil
  | cons d path ih =>
    obtain ⟨hchain, hhead, hlast⟩ := h
    have hd : d = a := by simpa using hhead
    subst hd
    cases List.mem_cons.mp hc with
    | inl heq => rw [heq]
    | inr hmem =>
      cases path with
      | nil => exact absurd hmem List.not_mem_nil
      | cons e path =>
        obtain ⟨hedge, htail⟩ := List.isChain_cons_cons.mp hchain
        exact .head hedge (ih ⟨htail, rfl, by rwa [List.getLast?_cons_cons] at hlast⟩ hmem)

/-- The start of a path lies on it. -/
theorem IsPath.head_mem {a b : α} {path : List α} (h : IsPath edge a b path) : a ∈ path :=
  List.mem_of_mem_head? h.head

/-- The ends of a path are connected. -/
theorem IsPath.reaches {a b : α} {path : List α} (h : IsPath edge a b path) :
    ReflTransGen edge a b :=
  h.reaches_mem (List.mem_of_getLast? h.last)

/-- A path of least length between two vertices. -/
def IsShortestPath (edge : α → α → Prop) (a b : α) (path : List α) : Prop :=
  IsPath edge a b path ∧ ∀ other, IsPath edge a b other → path.length ≤ other.length

/-- The state of a search while `rest` is what remains to be scanned of the successors of
`current`. The vertices of `done` have been taken from the queue. -/
structure Layered (edge : α → α → Prop) (root : α) (depth : α → ℕ) (parent : α → Option α)
    (visited done : Finset α) (queue : List α) (current : α) (rest : List α) : Prop where
  rootMem : root ∈ visited
  rootDepth : depth root = 0
  rootParent : parent root = none
  parentStep : ∀ a p, parent a = some p → edge p a ∧ p ∈ visited ∧ depth a = depth p + 1
  parentNone : ∀ a ∈ visited, parent a = none → a = root
  depthLt : ∀ a ∈ visited, depth a < visited.card
  sorted : queue.Pairwise fun a b => depth a ≤ depth b
  above : ∀ a ∈ queue, depth current ≤ depth a
  below : ∀ a ∈ visited, depth a ≤ depth current + 1
  queued : ∀ a ∈ queue, a ∈ visited
  split : ∀ a ∈ visited, a ∈ done ∨ a ∈ queue
  doneMem : ∀ a ∈ done, a ∈ visited
  closed : ∀ a ∈ done, ∀ b, edge a b →
    (b ∈ visited ∧ depth b ≤ depth a + 1) ∨ (a = current ∧ b ∈ rest)

variable {root current : α} {depth : α → ℕ} {parent : α → Option α} {visited done : Finset α}
  {queue rest : List α}

/-- A search starts with its root in the queue. -/
theorem Layered.start (edge : α → α → Prop) (root : α) :
    Layered edge root (fun _ => 0) (fun _ => none) {root} ∅ [root] root [] where
  rootMem := Finset.mem_singleton_self root
  rootDepth := rfl
  rootParent := rfl
  parentStep := by simp
  parentNone := by simp
  depthLt := by simp
  sorted := List.pairwise_singleton _ _
  above := by simp
  below := by simp
  queued := by simp
  split := by simp
  doneMem := by simp
  closed := by simp

/-- Taking a vertex from the queue starts the scan of its successors. -/
theorem Layered.pop [DecidableEq α] {a : α} (h : Layered edge root depth parent visited done (a :: queue) current [])
    (rest : List α) (hrest : ∀ b, edge a b → b ∈ rest) :
    Layered edge root depth parent visited (insert a done) queue a rest where
  rootMem := h.rootMem
  rootDepth := h.rootDepth
  rootParent := h.rootParent
  parentStep := h.parentStep
  parentNone := h.parentNone
  depthLt := h.depthLt
  sorted := (List.pairwise_cons.mp h.sorted).2
  above := (List.pairwise_cons.mp h.sorted).1
  below := by
    intro b hb
    have hcurrent := h.above a List.mem_cons_self
    have hbelow := h.below b hb
    omega
  queued := fun b hb => h.queued b (List.mem_cons_of_mem _ hb)
  split := by
    intro b hb
    rw [Finset.mem_insert]
    cases h.split b hb with
    | inl hdone => exact Or.inl (Or.inr hdone)
    | inr hqueue =>
      cases List.mem_cons.mp hqueue with
      | inl heq => exact Or.inl (Or.inl heq)
      | inr hmem => exact Or.inr hmem
  doneMem := by
    intro b hb
    cases Finset.mem_insert.mp hb with
    | inl heq => exact heq ▸ h.queued a List.mem_cons_self
    | inr hdone => exact h.doneMem b hdone
  closed := by
    intro b hb c hedge
    cases Finset.mem_insert.mp hb with
    | inl heq =>
      subst heq
      exact Or.inr ⟨rfl, hrest c hedge⟩
    | inr hdone =>
      cases h.closed b hdone c hedge with
      | inl hseen => exact Or.inl hseen
      | inr hpending => exact absurd hpending.2 List.not_mem_nil

/-- A successor that was visited before needs no new entry. -/
theorem Layered.skip {b : α} (h : Layered edge root depth parent visited done queue current (b :: rest))
    (hvisited : b ∈ visited) : Layered edge root depth parent visited done queue current rest where
  rootMem := h.rootMem
  rootDepth := h.rootDepth
  rootParent := h.rootParent
  parentStep := h.parentStep
  parentNone := h.parentNone
  depthLt := h.depthLt
  sorted := h.sorted
  above := h.above
  below := h.below
  queued := h.queued
  split := h.split
  doneMem := h.doneMem
  closed := by
    intro a ha c hedge
    cases h.closed a ha c hedge with
    | inl hseen => exact Or.inl hseen
    | inr hpending =>
      obtain ⟨hcurrent, hmem⟩ := hpending
      cases List.mem_cons.mp hmem with
      | inl heq =>
        subst heq hcurrent
        exact Or.inl ⟨hvisited, h.below c hvisited⟩
      | inr hrest => exact Or.inr ⟨hcurrent, hrest⟩

/-- A new successor joins the end of the queue, one level below the current vertex. -/
theorem Layered.push [DecidableEq α] {b : α} (h : Layered edge root depth parent visited done queue current (b :: rest))
    (hcurrent : current ∈ visited) (hedge : edge current b) (hnew : b ∉ visited) :
    Layered edge root (Function.update depth b (depth current + 1))
      (Function.update parent b (some current)) (insert b visited) done (queue ++ [b]) current
      rest := by
  have hdepth : ∀ a ∈ visited, Function.update depth b (depth current + 1) a = depth a := by
    intro a ha
    have hne : a ≠ b := fun heq => hnew (heq ▸ ha)
    exact Function.update_of_ne hne _ _
  have hroot : root ≠ b := fun heq => hnew (heq ▸ h.rootMem)
  have hnewDepth : Function.update depth b (depth current + 1) b = depth current + 1 :=
    Function.update_self ..
  constructor
  case rootMem => exact Finset.mem_insert_of_mem h.rootMem
  case rootDepth => rw [hdepth root h.rootMem, h.rootDepth]
  case rootParent => rw [Function.update_of_ne hroot, h.rootParent]
  case parentStep =>
    intro a p hp
    by_cases heq : a = b
    · subst heq
      rw [Function.update_self, Option.some.injEq] at hp
      subst hp
      rw [hnewDepth, hdepth current hcurrent]
      exact ⟨hedge, Finset.mem_insert_of_mem hcurrent, rfl⟩
    · rw [Function.update_of_ne heq] at hp
      obtain ⟨hstep, hmem, hlevel⟩ := h.parentStep a p hp
      rw [Function.update_of_ne heq, hdepth p hmem]
      exact ⟨hstep, Finset.mem_insert_of_mem hmem, hlevel⟩
  case parentNone =>
    intro a ha hnone
    by_cases heq : a = b
    · subst heq
      rw [Function.update_self] at hnone
      contradiction
    · rw [Function.update_of_ne heq] at hnone
      exact h.parentNone a (Finset.mem_of_mem_insert_of_ne ha heq) hnone
  case depthLt =>
    intro a ha
    rw [Finset.card_insert_of_notMem hnew]
    by_cases heq : a = b
    · subst heq
      have hlt := h.depthLt current hcurrent
      rw [hnewDepth]
      omega
    · have hmem := Finset.mem_of_mem_insert_of_ne ha heq
      have hlt := h.depthLt a hmem
      rw [hdepth a hmem]
      omega
  case sorted =>
    refine List.pairwise_append.mpr ⟨?_, List.pairwise_singleton _ _, ?_⟩
    · refine h.sorted.imp_of_mem fun ha hc hle => ?_
      rw [hdepth _ (h.queued _ ha), hdepth _ (h.queued _ hc)]
      exact hle
    · intro a ha c hc
      rw [List.mem_singleton.mp hc, hnewDepth, hdepth a (h.queued a ha)]
      exact h.below a (h.queued a ha)
  case above =>
    intro a ha
    rw [hdepth current hcurrent]
    cases List.mem_append.mp ha with
    | inl hold =>
      rw [hdepth a (h.queued a hold)]
      exact h.above a hold
    | inr hlast =>
      rw [List.mem_singleton.mp hlast, hnewDepth]
      omega
  case below =>
    intro a ha
    rw [hdepth current hcurrent]
    by_cases heq : a = b
    · rw [heq, hnewDepth]
    · have hmem := Finset.mem_of_mem_insert_of_ne ha heq
      rw [hdepth a hmem]
      exact h.below a hmem
  case queued =>
    intro a ha
    rw [Finset.mem_insert]
    cases List.mem_append.mp ha with
    | inl hold => exact Or.inr (h.queued a hold)
    | inr hlast => exact Or.inl (List.mem_singleton.mp hlast)
  case split =>
    intro a ha
    by_cases heq : a = b
    · exact Or.inr (by simp [heq])
    · cases h.split a (Finset.mem_of_mem_insert_of_ne ha heq) with
      | inl hdone => exact Or.inl hdone
      | inr hqueue => exact Or.inr (List.mem_append_left _ hqueue)
  case doneMem => exact fun a ha => Finset.mem_insert_of_mem (h.doneMem a ha)
  case closed =>
    intro a ha c hstep
    rw [hdepth a (h.doneMem a ha)]
    cases h.closed a ha c hstep with
    | inl hseen =>
      rw [hdepth c hseen.1]
      exact Or.inl ⟨Finset.mem_insert_of_mem hseen.1, hseen.2⟩
    | inr hpending =>
      obtain ⟨heq, hmem⟩ := hpending
      cases List.mem_cons.mp hmem with
      | inl hb =>
        subst hb heq
        exact Or.inl ⟨Finset.mem_insert_self c visited, hnewDepth.le⟩
      | inr hrest => exact Or.inr ⟨heq, hrest⟩

/-- The vertex at the front of the queue is no deeper than any path to it is long. -/
theorem Layered.depth_le_length {target a : α}
    (h : Layered edge root depth parent visited done (target :: queue) current []) (path : List α)
    (ha : a ∈ visited) (hchain : (a :: path).IsChain edge)
    (hlast : (a :: path).getLast? = some target) : depth target ≤ depth a + path.length := by
  induction path generalizing a with
  | nil =>
    have heq : a = target := by simpa using hlast
    rw [heq]
    exact Nat.le_add_right _ _
  | cons b path ih =>
    obtain ⟨hedge, htail⟩ := List.isChain_cons_cons.mp hchain
    rw [List.length_cons]
    cases h.split a ha with
    | inl hdone =>
      cases h.closed a hdone b hedge with
      | inl hseen =>
        have hle := ih hseen.1 htail (by rwa [List.getLast?_cons_cons] at hlast)
        have hstep := hseen.2
        omega
      | inr hpending => exact absurd hpending.2 List.not_mem_nil
    | inr hqueue =>
      -- the path leaves the expanded vertices here, no higher than the front of the queue
      have hfront : depth target ≤ depth a := by
        cases List.mem_cons.mp hqueue with
        | inl heq => rw [heq]
        | inr hmem => exact (List.pairwise_cons.mp h.sorted).1 a hmem
      omega

/-- With an empty queue every vertex the root reaches has been expanded. -/
theorem Layered.exhausted (h : Layered edge root depth parent visited done [] current []) {b : α}
    (hpath : ReflTransGen edge root b) : b ∈ done := by
  have hdone : ∀ a ∈ visited, a ∈ done := by
    intro a ha
    cases h.split a ha with
    | inl hdone => exact hdone
    | inr hqueue => exact absurd hqueue List.not_mem_nil
  induction hpath with
  | refl => exact hdone _ h.rootMem
  | tail _ hedge ih =>
    cases h.closed _ ih _ hedge with
    | inl hseen => exact hdone _ hseen.1
    | inr hpending => exact absurd hpending.2 List.not_mem_nil

/-- Follow the parents of a vertex, appending them to the path. -/
def followParents (parent : α → Option α) : ℕ → α → List α → List α
  | 0, _, path => path
  | fuel + 1, a, path =>
    match parent a with
    | some p => followParents parent fuel p (path ++ [p])
    | none => path

/-- The parents of a visited vertex lead back to the root, one level at a time. -/
theorem Layered.followParents_spec
    (h : Layered edge root depth parent visited done queue current rest) (target : α) (fuel : ℕ)
    (a : α) (path : List α) (ha : a ∈ visited) (hfuel : depth a ≤ fuel)
    (hpath : IsPath edge a target path.reverse) :
    IsPath edge root target (followParents parent fuel a path).reverse ∧
      (followParents parent fuel a path).length = path.length + depth a := by
  induction fuel generalizing a path with
  | zero =>
    have hroot : a = root := by
      apply h.parentNone a ha
      cases hp : parent a with
      | none => rfl
      | some p =>
        have hlevel := (h.parentStep a p hp).2.2
        omega
    rw [followParents, hroot, h.rootDepth]
    exact ⟨hroot ▸ hpath, rfl⟩
  | succ fuel ih =>
    rw [followParents]
    cases hp : parent a with
    | none =>
      have hroot := h.parentNone a ha hp
      rw [hroot, h.rootDepth]
      exact ⟨hroot ▸ hpath, rfl⟩
    | some p =>
      obtain ⟨hedge, hmem, hlevel⟩ := h.parentStep a p hp
      have hnext : IsPath edge p target (path ++ [p]).reverse := by
        rw [List.reverse_append, List.reverse_singleton, List.singleton_append]
        obtain ⟨hchain, hhead, hlast⟩ := hpath
        cases hrev : path.reverse with
        | nil =>
          rw [hrev] at hhead
          contradiction
        | cons c tail =>
          rw [hrev] at hchain hhead hlast
          have hc : c = a := by simpa using hhead
          refine ⟨List.isChain_cons_cons.mpr ⟨hc ▸ hedge, hchain⟩, rfl, ?_⟩
          rwa [List.getLast?_cons_cons]
      obtain ⟨hresult, hlength⟩ := ih p (path ++ [p]) hmem (by omega) hnext
      refine ⟨hresult, ?_⟩
      rw [hlength, List.length_append, List.length_singleton]
      omega

/-- When a vertex comes to the front of the queue, its parents spell out a shortest path. -/
theorem Layered.isShortestPath {target : α}
    (h : Layered edge root depth parent visited done (target :: queue) current []) {fuel : ℕ}
    (hfuel : visited.card ≤ fuel) :
    IsShortestPath edge root target (followParents parent fuel target [target]).reverse := by
  have htarget := h.queued target List.mem_cons_self
  have hdepth := h.depthLt target htarget
  have htrivial : IsPath edge target target [target].reverse :=
    ⟨List.isChain_singleton _, rfl, rfl⟩
  obtain ⟨hpath, hlength⟩ :=
    h.followParents_spec target fuel target [target] htarget (by omega) htrivial
  refine ⟨hpath, ?_⟩
  intro other hother
  obtain ⟨hchain, hhead, hlast⟩ := hother
  cases other with
  | nil => contradiction
  | cons b other =>
    have hb : b = root := by simpa using hhead
    subst hb
    have hle := h.depth_le_length other h.rootMem hchain hlast
    rw [h.rootDepth] at hle
    rw [List.length_reverse, hlength, List.length_singleton, List.length_cons]
    omega

end Forge.Common
