import Forge.Common.DependencyCounts
import Forge.Common.Reachability
import Forge.Fingerprint.DirectoryTree
import Forge.Project.BuildOrder

/-!
# The order in which members are built

Members are taken by name when everything they depend on has been taken. Dependencies for
tests count here like the others. Names are turned back into members, and of several members
with one name this gives the last. What a cycle leaves over is appended in the order in which
the members are listed.
-/

namespace Forge.Project

open Relation Forge.Common Forge.Fingerprint

/-- Take the least name. -/
def popReady : List String → Option (String × List String)
  | [] => none
  | first :: rest =>
    let name := rest.foldl (fun least name => if NameLe (utf8Bytes least) (utf8Bytes name) then least else name) first
    some (name, (first :: rest).erase name)

namespace Metadata

/-- The name of a package. -/
def nameOf (m : Metadata) (id : PackageId) : Option String := (m.package id).map (·.name)

/-- The dependencies between different members, in the order of the metadata. -/
def memberEdges (m : Metadata) : List (PackageId × PackageId) :=
  m.resolvedNodes.flatMap fun node =>
    if node.id ∈ m.workspaceMembers then
      node.deps.filterMap fun dep =>
        if dep.pkg ∈ m.workspaceMembers ∧ node.id ≠ dep.pkg then some (dep.pkg, node.id) else none
    else []

/-- The member with a name, the last of them. -/
def nameToId (m : Metadata) (name : String) : Option PackageId :=
  m.workspaceMembers.reverse.find? fun id => m.nameOf id = some name

/-- Count down the dependencies of dependents, and put the names of those without any more to the
ready ones. To count below zero is a panic. -/
def releaseMembers (m : Metadata) : List PackageId → (PackageId → ℕ) → List String →
    Option ((PackageId → ℕ) × List String)
  | [], indegree, ready => some (indegree, ready)
  | dependent :: dependents, indegree, ready =>
    match indegree dependent with
    | 0 => none
    | degree + 1 =>
      let indegree := Function.update indegree dependent degree
      if degree = 0 then
        match m.nameOf dependent with
        | none => none
        | some name => releaseMembers m dependents indegree (name :: ready)
      else releaseMembers m dependents indegree ready

/-- Take ready names as long as there are some. -/
def orderLoop (m : Metadata) : ℕ → (PackageId → ℕ) → List String → List PackageId → Option (List PackageId)
  | 0, _, ready, order => if ready = [] then some order else none
  | fuel + 1, indegree, ready, order =>
    match popReady ready with
    | none => some order
    | some (name, ready) =>
      match m.nameToId name with
      | none => none
      | some id =>
        match m.releaseMembers (successors m.memberEdges id) indegree ready with
        | none => none
        | some (indegree, ready) => orderLoop m fuel indegree ready (order ++ [id])

/-- The members in the order in which they are built, unless that panics. -/
def buildOrder (m : Metadata) : Option (List PackageId) :=
  match m.resolve with
  | none => some m.workspaceMembers
  | some _ =>
    let indegree := fun id => m.memberEdges.countP fun edge => edge.2 = id
    match (m.workspaceMembers.filter fun id => indegree id = 0).mapM m.nameOf with
    | none => none
    | some ready =>
      match m.orderLoop m.workspaceMembers.length indegree ready [] with
      | none => none
      | some order =>
        if order.length < m.workspaceMembers.dedup.length then
          some (order ++ m.workspaceMembers.filter fun id => id ∉ order)
        else some order

/-! ## Which members are taken -/

/-- The name of a member stands for a member. -/
def TakenFor (m : Metadata) (id other : PackageId) : Prop :=
  ∃ name, m.nameOf id = some name ∧ m.nameToId name = some other

/-- The turn of a member comes: everything that it depends on is taken, under the name of a member
whose turn comes. -/
inductive Taken (m : Metadata) : PackageId → Prop where
  | intro {id : PackageId} (hmember : id ∈ m.workspaceMembers) (takenBy : PackageId → PackageId)
      (hturn : ∀ dep, (dep, id) ∈ m.memberEdges → m.Taken (takenBy dep))
      (hfor : ∀ dep, (dep, id) ∈ m.memberEdges → m.TakenFor (takenBy dep) dep) : m.Taken id

/-- No two members whose turn comes have the same name. -/
def DistinctlyTaken (m : Metadata) : Prop :=
  ∀ id other, m.Taken id → m.Taken other → m.nameOf id = m.nameOf other → id = other

/-- No member whose turn comes is taken for a later one with its name. -/
def Settled (m : Metadata) : Prop := ∀ id, m.Taken id → m.TakenFor id id

end Metadata

/-- The least name is one of the names, and the others are left. -/
theorem popReady_perm {ready ready' : List String} {name : String} (h : popReady ready = some (name, ready')) :
    ready.Perm (name :: ready') := by
  cases ready with
  | nil => exact absurd h nofun
  | cons first rest =>
    obtain ⟨rfl, rfl⟩ := Prod.mk.inj (Option.some.inj h)
    refine List.perm_cons_erase ?_
    have hfold : ∀ (l : List String) (start : String),
        l.foldl (fun least name => if NameLe (utf8Bytes least) (utf8Bytes name) then least else name) start ∈
          start :: l := by
      intro l
      induction l with
      | nil => exact fun start => List.mem_singleton_self start
      | cons name l ih =>
        intro start
        rw [List.foldl_cons]
        rcases List.mem_cons.mp (ih _) with heq | hmem
        · rw [heq]
          split
          · exact List.mem_cons_self
          · exact List.mem_cons_of_mem _ List.mem_cons_self
        · exact List.mem_cons_of_mem _ (List.mem_cons_of_mem _ hmem)
    exact hfold rest first

/-- There is a name to take unless none is ready. -/
theorem popReady_eq_none_iff {ready : List String} : popReady ready = none ↔ ready = [] := by
  cases ready with
  | nil => exact iff_of_true rfl rfl
  | cons first rest => exact iff_of_false nofun nofun

namespace Metadata

variable {m : Metadata}

/-- The dependencies that count are those between different members. -/
theorem mem_memberEdges_iff {dep id : PackageId} :
    (dep, id) ∈ m.memberEdges ↔ m.Declared (fun _ => true) dep id ∧ id ≠ dep := by
  rw [memberEdges, List.mem_flatMap]
  constructor
  · rintro ⟨node, hnode, hmem⟩
    split at hmem
    · rename_i hmember
      obtain ⟨d, hd, heq⟩ := List.mem_filterMap.mp hmem
      split at heq
      · rename_i hpkg
        obtain ⟨rfl, rfl⟩ := Prod.mk.inj (Option.some.inj heq)
        exact ⟨⟨hpkg.1, hmember, node, hnode, rfl, d, hd, rfl, rfl⟩, hpkg.2⟩
      · exact absurd heq nofun
    · exact absurd hmem List.not_mem_nil
  · rintro ⟨⟨hdep, hid, node, hnode, rfl, d, hd, rfl, -⟩, hne⟩
    refine ⟨node, hnode, ?_⟩
    rw [if_pos hid]
    exact List.mem_filterMap.mpr ⟨d, hd, if_pos ⟨hdep, hne⟩⟩

/-- The dependents of a member are members. -/
theorem member_of_mem_successors {dep id : PackageId} (h : id ∈ successors m.memberEdges dep) :
    id ∈ m.workspaceMembers := (mem_memberEdges_iff.mp (mem_successors_iff.mp h)).1.2.1

/-- A member whose turn comes is a member. -/
theorem Taken.member {id : PackageId} (h : m.Taken id) : id ∈ m.workspaceMembers := by
  cases h with
  | intro hmember => exact hmember

/-- A name stands for a member with that name. -/
theorem nameOf_of_nameToId {name : String} {id : PackageId} (h : m.nameToId name = some id) :
    id ∈ m.workspaceMembers ∧ m.nameOf id = some name :=
  ⟨List.mem_reverse.mp (List.mem_of_find?_eq_some h), by simpa using List.find?_some h⟩

/-- The name of a member stands for some member. -/
theorem exists_nameToId {name : String} {id : PackageId} (hid : id ∈ m.workspaceMembers)
    (hname : m.nameOf id = some name) : ∃ other, m.nameToId name = some other := by
  refine Option.isSome_iff_exists.mp ?_
  rw [nameToId, List.find?_isSome]
  exact ⟨id, List.mem_reverse.mpr hid, decide_eq_true hname⟩

/-! ## What the loop keeps -/

/-- What the loop keeps about the counts, the ready names and the order. The names that were taken
and the members that were ready, and the dependents that are still to be counted down, are given
beside. -/
structure Ordering (m : Metadata) (indegree : PackageId → ℕ) (ready : List String) (order : List PackageId)
    (taken : List String) (turns pending : List PackageId) : Prop where
  nodup : order.Nodup
  turnsNodup : turns.Nodup
  count : ∀ id, indegree id = waitsFor m.memberEdges order id + pending.count id
  zero : ∀ id ∈ m.workspaceMembers, indegree id = 0 ↔ id ∈ turns
  turn : ∀ id ∈ turns, m.Taken id
  names : ((ready ++ taken).map some).Perm (turns.map m.nameOf)
  order_eq : order.map some = taken.map m.nameToId
  before : ∀ earlier id later, order = earlier ++ id :: later →
    ∃ other ∈ turns, m.TakenFor other id ∧ ∀ dep, (dep, other) ∈ m.memberEdges → dep ∈ earlier

section Ordering

variable {indegree : PackageId → ℕ} {ready : List String} {order : List PackageId} {taken : List String}
  {turns pending : List PackageId}

/-- What is taken is taken for a member whose turn came. -/
theorem Ordering.exists_turn (h : Ordering m indegree ready order taken turns pending) {id : PackageId}
    (hid : id ∈ order) : ∃ other ∈ turns, m.TakenFor other id := by
  obtain ⟨earlier, later, heq⟩ := List.append_of_mem hid
  obtain ⟨other, hother, hfor, -⟩ := h.before earlier id later heq
  exact ⟨other, hother, hfor⟩

/-- The turn of a member comes when all its dependencies are taken. -/
theorem Ordering.taken_of_deps (h : Ordering m indegree ready order taken turns pending) {id : PackageId}
    (hid : id ∈ m.workspaceMembers) (hdeps : ∀ dep, (dep, id) ∈ m.memberEdges → dep ∈ order) : m.Taken id := by
  have hturn : ∀ dep, ∃ other, (dep, id) ∈ m.memberEdges → m.Taken other ∧ m.TakenFor other dep := by
    intro dep
    by_cases hmem : (dep, id) ∈ m.memberEdges
    · obtain ⟨other, hother, hfor⟩ := h.exists_turn (hdeps dep hmem)
      exact ⟨other, fun _ => ⟨h.turn other hother, hfor⟩⟩
    · exact ⟨dep, fun hmem' => absurd hmem' hmem⟩
  choose takenBy htakenBy using hturn
  exact .intro hid takenBy (fun dep hmem => (htakenBy dep hmem).1) fun dep hmem => (htakenBy dep hmem).2

/-- A ready or taken name is that of a member whose turn came. -/
theorem Ordering.exists_named (h : Ordering m indegree ready order taken turns pending) {name : String}
    (hname : name ∈ ready ++ taken) : ∃ id ∈ turns, m.nameOf id = some name :=
  List.mem_map.mp (h.names.mem_iff.mp (List.mem_map_of_mem hname))

/-- As many names were ready as there were turns. -/
theorem Ordering.length_eq (h : Ordering m indegree ready order taken turns pending) :
    ready.length + order.length = turns.length := by
  have hnames := h.names.length_eq
  have horder := congrArg List.length h.order_eq
  simp only [List.length_map, List.length_append] at hnames horder
  omega

/-- There are no more turns than members. -/
theorem Ordering.length_le (h : Ordering m indegree ready order taken turns pending) :
    turns.length ≤ m.workspaceMembers.length :=
  (List.subperm_of_subset h.turnsNodup fun id hid => (h.turn id hid).member).length_le

/-- A member that is still to be counted down is not ready yet. -/
theorem Ordering.notMem_turns {dependent : PackageId} (hmember : dependent ∈ m.workspaceMembers)
    (h : Ordering m indegree ready order taken turns (dependent :: pending)) : dependent ∉ turns := by
  intro hmem
  have hcount := h.count dependent
  rw [List.count_cons_self, (h.zero dependent hmember).mpr hmem] at hcount
  omega

/-- Counting a dependent down leaves those that are to be counted down after it. -/
theorem Ordering.count_update {dependent : PackageId} {degree : ℕ}
    (h : Ordering m indegree ready order taken turns (dependent :: pending))
    (hdegree : indegree dependent = degree + 1) (id : PackageId) :
    Function.update indegree dependent degree id = waitsFor m.memberEdges order id + pending.count id := by
  by_cases hid : id = dependent
  · have hcount := h.count dependent
    rw [List.count_cons_self] at hcount
    rw [hid, Function.update_self]
    omega
  · rw [Function.update_of_ne hid, h.count id, List.count_cons_of_ne (Ne.symm hid)]

/-- A dependent that waits for more is counted down. -/
theorem Ordering.countDown {dependent : PackageId} {degree : ℕ} (hmember : dependent ∈ m.workspaceMembers)
    (h : Ordering m indegree ready order taken turns (dependent :: pending))
    (hdegree : indegree dependent = degree + 1) (hmore : degree ≠ 0) :
    Ordering m (Function.update indegree dependent degree) ready order taken turns pending where
  nodup := h.nodup
  turnsNodup := h.turnsNodup
  count := h.count_update hdegree
  zero := by
    intro id hid
    by_cases heq : id = dependent
    · rw [heq, Function.update_self]
      exact iff_of_false hmore (h.notMem_turns hmember)
    · rw [Function.update_of_ne heq, h.zero id hid]
  turn := h.turn
  names := h.names
  order_eq := h.order_eq
  before := h.before

/-- A dependent that waits for nothing more gets ready. -/
theorem Ordering.countDown_last {dependent : PackageId} {degree : ℕ} {name : String}
    (hmember : dependent ∈ m.workspaceMembers) (hname : m.nameOf dependent = some name)
    (h : Ordering m indegree ready order taken turns (dependent :: pending))
    (hdegree : indegree dependent = degree + 1) (hlast : degree = 0) :
    Ordering m (Function.update indegree dependent degree) (name :: ready) order taken (dependent :: turns)
      pending where
  nodup := h.nodup
  turnsNodup := List.nodup_cons.mpr ⟨h.notMem_turns hmember, h.turnsNodup⟩
  count := h.count_update hdegree
  zero := by
    intro id hid
    by_cases heq : id = dependent
    · rw [heq, Function.update_self]
      exact iff_of_true hlast List.mem_cons_self
    · rw [Function.update_of_ne heq, h.zero id hid, List.mem_cons, or_iff_right heq]
  turn := by
    have hcount := h.count_update hdegree dependent
    rw [Function.update_self, hlast] at hcount
    have hdone : waitsFor m.memberEdges order dependent = 0 := by omega
    have hturn := h.taken_of_deps hmember (waitsFor_eq_zero_iff.mp hdone)
    exact fun id hid => (List.mem_cons.mp hid).elim (fun heq => heq ▸ hturn) (h.turn id)
  names := by
    rw [List.cons_append, List.map_cons, List.map_cons, hname]
    exact h.names.cons (some name)
  order_eq := h.order_eq
  before := by
    intro earlier id later heq
    obtain ⟨other, hother, hrest⟩ := h.before earlier id later heq
    exact ⟨other, List.mem_cons_of_mem _ hother, hrest⟩

/-- The dependents of what was taken are counted down. -/
theorem Ordering.release (hnamed : ∀ id ∈ m.workspaceMembers, (m.nameOf id).isSome)
    (h : Ordering m indegree ready order taken turns pending) (hpending : ∀ id ∈ pending, id ∈ m.workspaceMembers) :
    ∃ indegree' ready' turns', m.releaseMembers pending indegree ready = some (indegree', ready') ∧
      Ordering m indegree' ready' order taken turns' [] := by
  induction pending generalizing indegree ready turns with
  | nil => exact ⟨indegree, ready, turns, rfl, h⟩
  | cons dependent pending ih =>
    obtain ⟨hmember, hrest⟩ := List.forall_mem_cons.mp hpending
    have hcount := h.count dependent
    rw [List.count_cons_self] at hcount
    obtain ⟨degree, hdegree⟩ : ∃ degree, indegree dependent = degree + 1 := ⟨_, hcount⟩
    rw [releaseMembers, hdegree]
    dsimp only
    by_cases hlast : degree = 0
    · obtain ⟨name, hname⟩ := Option.isSome_iff_exists.mp (hnamed dependent hmember)
      rw [if_pos hlast, hname]
      exact ih (h.countDown_last hmember hname hdegree hlast) hrest
    · rw [if_neg hlast]
      exact ih (h.countDown hmember hdegree hlast) hrest

/-- A name that is ready is taken for a new member. -/
theorem Ordering.take (h : Ordering m indegree ready order taken turns []) {name : String} {rest : List String}
    (hready : ready.Perm (name :: rest)) {id : PackageId} (hid : m.nameToId name = some id) (hnew : id ∉ order) :
    Ordering m indegree rest (order ++ [id]) (taken ++ [name]) turns (successors m.memberEdges id) where
  nodup := List.nodup_append.mpr ⟨h.nodup, List.nodup_singleton id,
    fun a ha b hb heq => hnew (List.mem_singleton.mp hb ▸ heq ▸ ha)⟩
  turnsNodup := h.turnsNodup
  count := by
    intro id'
    rw [h.count id', List.count_nil, Nat.add_zero]
    exact waitsFor_concat hnew id'
  zero := h.zero
  turn := h.turn
  names := by
    refine List.Perm.trans (List.Perm.map some ?_) h.names
    rw [← List.append_assoc]
    refine List.perm_append_comm.trans ?_
    exact (hready.append_right taken).symm
  order_eq := by
    rw [List.map_append, List.map_append, h.order_eq, List.map_singleton, List.map_singleton, hid]
  before := by
    intro earlier id' later heq
    rcases List.eq_nil_or_concat later with rfl | ⟨later, last, rfl⟩
    · obtain ⟨rfl, hlast⟩ := List.append_inj' heq rfl
      obtain rfl := List.singleton_inj.mp hlast
      have hmem : name ∈ ready ++ taken := List.mem_append_left _ (hready.mem_iff.mpr List.mem_cons_self)
      obtain ⟨other, hother, hname⟩ := h.exists_named hmem
      refine ⟨other, hother, ⟨name, hname, hid⟩, waitsFor_eq_zero_iff.mp ?_⟩
      have hzero := (h.zero other (h.turn other hother).member).mpr hother
      rw [h.count other, List.count_nil, Nat.add_zero] at hzero
      exact hzero
    · have heq' : order ++ [id] = (earlier ++ id' :: later) ++ [last] := by
        rw [heq, List.concat_eq_append, List.append_assoc, List.cons_append]
      exact h.before earlier id' later (List.append_inj' heq' rfl).1

/-- When no two members whose turn comes have the same name, no name is ready twice. -/
theorem Ordering.names_nodup (h : Ordering m indegree ready order taken turns pending) (hdistinct : m.DistinctlyTaken) :
    (ready ++ taken).Nodup := by
  have hturns : (turns.map m.nameOf).Nodup :=
    List.Nodup.map_on (fun id hid other hother => hdistinct id other (h.turn id hid) (h.turn other hother)) h.turnsNodup
  exact List.Nodup.of_map some (h.names.nodup_iff.mpr hturns)

/-- A name that is taken for a member again is that of two members whose turn comes. -/
theorem Ordering.not_distinctlyTaken (h : Ordering m indegree ready order taken turns pending) {name : String}
    (hready : name ∈ ready) {id : PackageId} (hid : m.nameToId name = some id) (hold : id ∈ order) :
    ¬ m.DistinctlyTaken := by
  intro hdistinct
  have hmem : some id ∈ taken.map m.nameToId := h.order_eq ▸ List.mem_map_of_mem hold
  obtain ⟨other, hother, hsame⟩ := List.mem_map.mp hmem
  have hname := (nameOf_of_nameToId hid).2.symm.trans (nameOf_of_nameToId hsame).2
  obtain rfl := Option.some.inj hname
  exact (List.nodup_append.mp (h.names_nodup hdistinct)).2.2 name hready name hother rfl

/-- The loop only adds to the order. -/
theorem prefix_orderLoop {fuel : ℕ} {order' : List PackageId}
    (hloop : m.orderLoop fuel indegree ready order = some order') : order <+: order' := by
  induction fuel generalizing indegree ready order with
  | zero =>
    rw [orderLoop] at hloop
    split at hloop
    · exact Option.some.inj hloop ▸ List.prefix_rfl
    · exact absurd hloop nofun
  | succ fuel ih =>
    rw [orderLoop] at hloop
    split at hloop
    · exact Option.some.inj hloop ▸ List.prefix_rfl
    · split at hloop
      · exact absurd hloop nofun
      · split at hloop
        · exact absurd hloop nofun
        · exact (List.prefix_append order _).trans (ih hloop)

/-- The loop ends with no name ready, unless two members whose turn comes have the same name and some
member is taken twice. -/
theorem Ordering.run (hnamed : ∀ id ∈ m.workspaceMembers, (m.nameOf id).isSome) (fuel : ℕ)
    (h : Ordering m indegree ready order taken turns [])
    (hfuel : m.workspaceMembers.length ≤ fuel + order.length) :
    (∃ order', m.orderLoop fuel indegree ready order = some order' ∧
      ∃ indegree' taken' turns', Ordering m indegree' [] order' taken' turns' []) ∨
      (¬ m.DistinctlyTaken ∧ ∀ order', m.orderLoop fuel indegree ready order = some order' → ¬ order'.Nodup) := by
  induction fuel generalizing indegree ready order taken turns with
  | zero =>
    have hlength := h.length_eq
    have hle := h.length_le
    obtain rfl : ready = [] := List.eq_nil_of_length_eq_zero (by omega)
    exact Or.inl ⟨order, rfl, indegree, taken, turns, h⟩
  | succ fuel ih =>
    cases hpop : popReady ready with
    | none =>
      obtain rfl := popReady_eq_none_iff.mp hpop
      exact Or.inl ⟨order, rfl, indegree, taken, turns, h⟩
    | some popped =>
      obtain ⟨name, rest⟩ := popped
      have hperm := popReady_perm hpop
      have hready : name ∈ ready := hperm.mem_iff.mpr List.mem_cons_self
      obtain ⟨turn, hturn, hname⟩ := h.exists_named (List.mem_append_left taken hready)
      obtain ⟨id, hid⟩ := exists_nameToId (h.turn turn hturn).member hname
      by_cases hold : id ∈ order
      · refine Or.inr ⟨h.not_distinctlyTaken hready hid hold, fun order' hloop hnodup => ?_⟩
        rw [orderLoop, hpop] at hloop
        dsimp only at hloop
        rw [hid] at hloop
        dsimp only at hloop
        split at hloop
        · exact absurd hloop nofun
        · have htwice := (prefix_orderLoop hloop).sublist.nodup hnodup
          exact (List.nodup_append.mp htwice).2.2 id hold id (List.mem_singleton_self id) rfl
      · obtain ⟨indegree', ready', turns', hrelease, hnext⟩ :=
          (h.take hperm hid hold).release hnamed fun id hid => member_of_mem_successors hid
        have hbound : m.workspaceMembers.length ≤ fuel + (order ++ [id]).length := by
          rw [List.length_append, List.length_singleton]
          omega
        rw [orderLoop, hpop]
        dsimp only
        rw [hid]
        dsimp only
        rw [hrelease]
        exact ih hnext hbound

end Ordering

/-! ## The order -/

/-- Packages with names have a list of their names. -/
theorem exists_mapM_nameOf {ids : List PackageId} (hnamed : ∀ id ∈ ids, (m.nameOf id).isSome) :
    ∃ names, ids.mapM m.nameOf = some names ∧ names.map some = ids.map m.nameOf := by
  induction ids with
  | nil => exact ⟨[], rfl, rfl⟩
  | cons id ids ih =>
    obtain ⟨hid, hrest⟩ := List.forall_mem_cons.mp hnamed
    obtain ⟨name, hname⟩ := Option.isSome_iff_exists.mp hid
    obtain ⟨names, hmap, hnames⟩ := ih hrest
    refine ⟨name :: names, ?_, ?_⟩
    · rw [List.mapM_cons, hname, hmap]
      rfl
    · rw [List.map_cons, List.map_cons, hname, hnames]

/-- At the beginning it is the turn of the members without dependencies. -/
theorem ordering_start (hnodup : m.workspaceMembers.Nodup) {ready : List String}
    (hready : ready.map some =
      (m.workspaceMembers.filter fun id => m.memberEdges.countP (fun edge => edge.2 = id) = 0).map m.nameOf) :
    Ordering m (fun id => m.memberEdges.countP fun edge => edge.2 = id) ready [] []
      (m.workspaceMembers.filter fun id => m.memberEdges.countP (fun edge => edge.2 = id) = 0) [] where
  nodup := List.nodup_nil
  turnsNodup := hnodup.filter _
  count := fun id => (waitsFor_nil m.memberEdges id).symm
  zero := by
    intro id hid
    rw [List.mem_filter, decide_eq_true_eq, and_iff_right hid]
  turn := by
    intro id hid
    obtain ⟨hmember, hzero⟩ := List.mem_filter.mp hid
    have hnone : ∀ dep, (dep, id) ∉ m.memberEdges := by
      intro dep hmem
      exact (List.countP_eq_zero.mp (of_decide_eq_true hzero)) (dep, id) hmem (decide_eq_true rfl)
    exact .intro hmember (fun dep => dep) (fun dep hmem => absurd hmem (hnone dep)) fun dep hmem => absurd hmem (hnone dep)
  names := by rw [List.append_nil, hready]
  order_eq := rfl
  before := by
    intro earlier id later heq
    exact absurd heq (by simp)

section Ended

variable {indegree : PackageId → ℕ} {order : List PackageId} {taken : List String} {turns : List PackageId}

/-- In the end everything was taken whose name a turn has. -/
theorem Ordering.mem_order_of_takenFor (h : Ordering m indegree [] order taken turns []) {id other : PackageId}
    (hid : id ∈ turns) (hfor : m.TakenFor id other) : other ∈ order := by
  obtain ⟨name, hname, hother⟩ := hfor
  have hsome : some name ∈ turns.map m.nameOf := hname ▸ List.mem_map_of_mem hid
  obtain ⟨name', hname', heq⟩ := List.mem_map.mp (h.names.mem_iff.mpr hsome)
  obtain rfl := Option.some.inj heq
  have hordered : some other ∈ order.map some := by
    rw [h.order_eq, ← hother]
    exact List.mem_map_of_mem hname'
  obtain ⟨other', hother', heq⟩ := List.mem_map.mp hordered
  exact Option.some.inj heq ▸ hother'

/-- In the end it was the turn of the members that the dependencies and the names give. -/
theorem Ordering.mem_turns_iff (h : Ordering m indegree [] order taken turns []) {id : PackageId} :
    id ∈ turns ↔ m.Taken id := by
  refine ⟨h.turn id, fun htaken => ?_⟩
  induction htaken with
  | @intro id hmember takenBy _ hfor ih =>
    have hdeps : ∀ dep, (dep, id) ∈ m.memberEdges → dep ∈ order :=
      fun dep hmem => h.mem_order_of_takenFor (ih dep hmem) (hfor dep hmem)
    have hzero := waitsFor_eq_zero_iff.mpr hdeps
    refine (h.zero id hmember).mp ?_
    rw [h.count id, hzero, List.count_nil]

/-- In the end no two members whose turn came have the same name. -/
theorem Ordering.distinctlyTaken (h : Ordering m indegree [] order taken turns []) : m.DistinctlyTaken := by
  have htaken : taken.Nodup := by
    refine List.Nodup.of_map m.nameToId ?_
    rw [← h.order_eq]
    exact h.nodup.map (Option.some_injective _)
  have hturns : (turns.map m.nameOf).Nodup :=
    h.names.nodup_iff.mp (htaken.map (Option.some_injective _))
  intro id other hid hother hname
  exact List.inj_on_of_nodup_map hturns (h.mem_turns_iff.mpr hid) (h.mem_turns_iff.mpr hother) hname

/-- What was taken are members. -/
theorem Ordering.order_subset (h : Ordering m indegree [] order taken turns []) : order ⊆ m.workspaceMembers := by
  intro id hid
  obtain ⟨_, -, _, -, hid⟩ := h.exists_turn hid
  exact (nameOf_of_nameToId hid).1

/-- What was taken and the members that are left over are all members. -/
theorem Ordering.perm (h : Ordering m indegree [] order taken turns []) (hnodup : m.workspaceMembers.Nodup) :
    (order ++ m.workspaceMembers.filter fun id => id ∉ order).Perm m.workspaceMembers := by
  have horder : order.Perm (m.workspaceMembers.filter fun id => id ∈ order) := by
    refine (List.perm_ext_iff_of_nodup h.nodup (hnodup.filter _)).mpr fun id => ?_
    rw [List.mem_filter, decide_eq_true_eq]
    exact ⟨fun hid => ⟨h.order_subset hid, hid⟩, And.right⟩
  refine (horder.append_right _).trans ?_
  have hsplit := List.filter_append_perm (fun id => decide (id ∈ order)) m.workspaceMembers
  simpa using hsplit

/-- Without members that are left over nothing is appended. -/
theorem Ordering.filter_eq_nil (h : Ordering m indegree [] order taken turns [])
    (hlength : m.workspaceMembers.length ≤ order.length) :
    (m.workspaceMembers.filter fun id => id ∉ order) = [] := by
  have hperm := (List.subperm_of_subset h.nodup h.order_subset).perm_of_length_le hlength
  rw [List.filter_eq_nil_iff]
  intro id hid hnot
  exact of_decide_eq_true hnot (hperm.mem_iff.mpr hid)

/-- When every turn is taken for itself, what was taken are the members whose turn comes. -/
theorem Ordering.mem_order_iff (h : Ordering m indegree [] order taken turns []) (hsettled : m.Settled)
    {id : PackageId} : id ∈ order ↔ m.Taken id := by
  constructor
  · intro hid
    obtain ⟨other, hother, name, hname, hfor⟩ := h.exists_turn hid
    obtain ⟨name', hname', hself⟩ := hsettled other (h.turn other hother)
    obtain rfl := Option.some.inj (hname.symm.trans hname')
    obtain rfl := Option.some.inj (hfor.symm.trans hself)
    exact h.turn id hother
  · intro htaken
    exact h.mem_order_of_takenFor (h.mem_turns_iff.mpr htaken) (hsettled id htaken)

/-- When every turn is taken for itself, what a member depends on is taken before it. -/
theorem Ordering.deps_before (h : Ordering m indegree [] order taken turns []) (hsettled : m.Settled)
    {earlier later : List PackageId} {id : PackageId} (heq : order = earlier ++ id :: later) {dep : PackageId}
    (hdep : (dep, id) ∈ m.memberEdges) : dep ∈ earlier := by
  obtain ⟨other, hother, ⟨name, hname, hfor⟩, hdeps⟩ := h.before earlier id later heq
  obtain ⟨name', hname', hself⟩ := hsettled other (h.turn other hother)
  obtain rfl := Option.some.inj (hname.symm.trans hname')
  obtain rfl := Option.some.inj (hfor.symm.trans hself)
  exact hdeps dep hdep

end Ended

/-- The order is what was taken and what is left over, unless two members whose turn comes have the same
name and some member is in the order twice. -/
theorem buildOrder_cases (hnodup : m.workspaceMembers.Nodup)
    (hnamed : ∀ id ∈ m.workspaceMembers, (m.nameOf id).isSome) (hresolve : m.resolve.isSome) :
    (∃ indegree order taken turns, Ordering m indegree [] order taken turns [] ∧
      m.buildOrder = some (order ++ m.workspaceMembers.filter fun id => id ∉ order)) ∨
      (¬ m.DistinctlyTaken ∧ ∀ order, m.buildOrder = some order → ¬ order.Nodup) := by
  obtain ⟨resolve, hresolve⟩ := Option.isSome_iff_exists.mp hresolve
  have hstart : ∀ id ∈ m.workspaceMembers.filter fun id => m.memberEdges.countP (fun edge => edge.2 = id) = 0,
      (m.nameOf id).isSome := fun id hid => hnamed id (List.mem_filter.mp hid).1
  obtain ⟨ready, hmap, hready⟩ := exists_mapM_nameOf hstart
  have hbound : m.workspaceMembers.length ≤ m.workspaceMembers.length + ([] : List PackageId).length := le_rfl
  rcases (ordering_start hnodup hready).run hnamed m.workspaceMembers.length hbound with
    ⟨order, hloop, indegree, taken, turns, hend⟩ | ⟨hsame, htwice⟩
  · refine Or.inl ⟨indegree, order, taken, turns, hend, ?_⟩
    rw [buildOrder, hresolve]
    dsimp only
    rw [hmap]
    dsimp only
    rw [hloop]
    dsimp only
    rw [hnodup.dedup]
    split
    · rfl
    · rename_i hlength
      rw [hend.filter_eq_nil (Nat.le_of_not_lt hlength), List.append_nil]
  · refine Or.inr ⟨hsame, fun order horder hnodup' => ?_⟩
    rw [buildOrder, hresolve] at horder
    dsimp only at horder
    rw [hmap] at horder
    dsimp only at horder
    split at horder
    · exact absurd horder nofun
    · rename_i order' hloop
      refine htwice order' hloop ?_
      split at horder
      · rw [← Option.some.inj horder] at hnodup'
        exact (List.nodup_append.mp hnodup').1
      · rwa [← Option.some.inj horder] at hnodup'

end Metadata

/-- An order of the members: each of them once, and if the dependencies that are not only declared for
tests have no cycle, each behind the members that it depends on through them. -/
structure BuildOrdered (m : Metadata) (order : List PackageId) : Prop where
  once : order.Perm m.workspaceMembers
  before : Acyclic m.BuildDependency → ∀ dep id, m.BuildDependency dep id → [dep, id].Sublist order

/-- Members whose turn never comes are listed behind the members that they depend on through dependencies
that are not only declared for tests, if these have no cycle. -/
def LeftInOrder (m : Metadata) : Prop :=
  Acyclic m.BuildDependency → ∀ dep id, m.BuildDependency dep id → ¬ m.Taken dep → ¬ m.Taken id →
    [dep, id].Sublist m.workspaceMembers

namespace Metadata

variable {m : Metadata}

/-- Members that are taken for themselves have different names. -/
theorem Settled.distinctlyTaken (h : m.Settled) : m.DistinctlyTaken := by
  intro id other hid hother hname
  obtain ⟨name, hnameId, hself⟩ := h id hid
  obtain ⟨name', hnameOther, hself'⟩ := h other hother
  rw [hnameId, hnameOther] at hname
  obtain rfl := Option.some.inj hname
  exact Option.some.inj (hself.symm.trans hself')

/-- Without a cycle a dependency of the build counts. -/
theorem mem_memberEdges_of_buildDependency (hacyclic : Acyclic m.BuildDependency) {dep id : PackageId}
    (h : m.BuildDependency dep id) : (dep, id) ∈ m.memberEdges := by
  have hne : dep ≠ id := hacyclic.irrefl h
  obtain ⟨hdep, hid, node, hnode, hnodeId, d, hd, hpkg, -⟩ := h
  exact mem_memberEdges_iff.mpr ⟨⟨hdep, hid, node, hnode, hnodeId, d, hd, hpkg, rfl⟩, hne.symm⟩

/-- Members with different names are taken for themselves. -/
theorem settled_of_names (hnamed : ∀ id ∈ m.workspaceMembers, (m.nameOf id).isSome)
    (hnames : ∀ id ∈ m.workspaceMembers, ∀ other ∈ m.workspaceMembers, m.nameOf id = m.nameOf other → id = other) :
    m.Settled := by
  intro id htaken
  obtain ⟨name, hname⟩ := Option.isSome_iff_exists.mp (hnamed id htaken.member)
  obtain ⟨other, hother⟩ := exists_nameToId htaken.member hname
  obtain ⟨hmember, hsame⟩ := nameOf_of_nameToId hother
  obtain rfl := hnames other hmember id htaken.member (hsame.trans hname.symm)
  exact ⟨name, hname, hother⟩

/-- What comes in order among the members that are left over comes in order among all members, and
among what was taken with the members that are left over behind it. -/
theorem sublist_left_iff {order : List PackageId} {dep id : PackageId} (hdep : dep ∉ order) (hid : id ∉ order) :
    [dep, id].Sublist (order ++ m.workspaceMembers.filter fun id => id ∉ order) ↔
      [dep, id].Sublist m.workspaceMembers := by
  constructor
  · intro hbefore
    obtain ⟨first, rest, heq, hfirst, hrest⟩ := List.sublist_append_iff.mp hbefore
    cases first with
    | nil =>
      rw [List.nil_append] at heq
      rw [heq]
      exact hrest.trans List.filter_sublist
    | cons head tail =>
      obtain ⟨rfl, -⟩ := List.cons.inj heq
      exact absurd (hfirst.subset List.mem_cons_self) hdep
  · intro hbefore
    have hkept := hbefore.filter fun id => decide (id ∉ order)
    rw [List.filter_cons, if_pos (decide_eq_true hdep), List.filter_cons, if_pos (decide_eq_true hid)] at hkept
    exact hkept.trans (List.sublist_append_right order _)

/-- Each member is once in the order exactly when no two members whose turn comes have the same name. When
none of them is taken for a later member with its name, each member is behind those that it depends
on exactly when those whose turn never comes are listed in order. -/
theorem buildOrder_ordered_iff (m : Metadata) (hnodup : m.workspaceMembers.Nodup)
    (hpackages : ∀ id ∈ m.workspaceMembers, (m.package id).isSome) (hresolve : m.resolve.isSome) :
    ((∃ order, m.buildOrder = some order ∧ order.Perm m.workspaceMembers) ↔ m.DistinctlyTaken) ∧
      (m.Settled → ((∃ order, m.buildOrder = some order ∧ BuildOrdered m order) ↔ LeftInOrder m)) := by
  have hnamed : ∀ id ∈ m.workspaceMembers, (m.nameOf id).isSome := by
    intro id hid
    rw [nameOf, Option.isSome_map]
    exact hpackages id hid
  rcases buildOrder_cases hnodup hnamed hresolve with ⟨indegree, order, taken, turns, hend, horder⟩ | ⟨hsame, htwice⟩
  · have hperm := hend.perm hnodup
    refine ⟨iff_of_true ⟨_, horder, hperm⟩ hend.distinctlyTaken, fun hsettled => ?_⟩
    have hmem : ∀ {id}, id ∈ order ↔ m.Taken id := hend.mem_order_iff hsettled
    constructor
    · rintro ⟨order', horder', hordered⟩ hacyclic dep id hneeded hdep hid
      obtain rfl := Option.some.inj (horder.symm.trans horder')
      exact (sublist_left_iff (fun h => hdep (hmem.mp h)) fun h => hid (hmem.mp h)).mp
        (hordered.before hacyclic dep id hneeded)
    · intro hleft
      refine ⟨_, horder, hperm, fun hacyclic dep id hneeded => ?_⟩
      by_cases hid : id ∈ order
      · obtain ⟨earlier, later, heq⟩ := List.append_of_mem hid
        have hdep := hend.deps_before hsettled heq (mem_memberEdges_of_buildDependency hacyclic hneeded)
        have hbefore : [dep, id].Sublist order := by
          rw [heq]
          exact (List.singleton_sublist.mpr hdep).append (List.singleton_sublist.mpr List.mem_cons_self)
        exact hbefore.trans (List.sublist_append_left order _)
      · by_cases hdep : dep ∈ order
        · have hlast : id ∈ m.workspaceMembers.filter fun id => id ∉ order :=
            List.mem_filter.mpr ⟨hneeded.2.1, decide_eq_true hid⟩
          exact (List.singleton_sublist.mpr hdep).append (List.singleton_sublist.mpr hlast)
        · exact (sublist_left_iff hdep hid).mpr
            (hleft hacyclic dep id hneeded (fun h => hdep (hmem.mpr h)) fun h => hid (hmem.mpr h))
  · have hnone : ∀ order, m.buildOrder = some order → ¬ order.Perm m.workspaceMembers :=
      fun order horder hperm => htwice order horder (hperm.nodup_iff.mpr hnodup)
    refine ⟨iff_of_false (fun ⟨order, horder, hperm⟩ => hnone order horder hperm) hsame, fun hsettled => ?_⟩
    exact absurd hsettled.distinctlyTaken hsame

end Metadata

/-! ## A cycle for tests -/

/-- The tests of `core` use `util`, which needs `core`. When `core` is listed first, both are left over in
the order of the build. -/
theorem buildOrder_core_first :
    ∃ order, (sampleMetadata sampleNodes).buildOrder = some order ∧ BuildOrdered (sampleMetadata sampleNodes) order := by
  have hnamed : ∀ id ∈ (sampleMetadata sampleNodes).workspaceMembers,
      ((sampleMetadata sampleNodes).nameOf id).isSome := by decide
  have hsettled := Metadata.settled_of_names hnamed (by decide)
  have hiff := ((sampleMetadata sampleNodes).buildOrder_ordered_iff (by decide) (by decide) (by decide)).2 hsettled
  refine hiff.mpr fun _ dep id hneeded _ _ => ?_
  obtain ⟨rfl, rfl⟩ := sampleMetadata_buildDependency (fun _ h => h) hneeded
  exact List.Sublist.refl _

/-- The same workspace with `util` listed first. -/
def utilFirst : Metadata := { sampleMetadata sampleNodes with workspaceMembers := ["util", "core"] }

/-- When `util` is listed first, it comes before `core`, which it needs. -/
theorem not_buildOrdered_util_first :
    utilFirst.workspaceMembers.Nodup ∧ (∀ id ∈ utilFirst.workspaceMembers, (utilFirst.package id).isSome) ∧
      utilFirst.resolve.isSome ∧ Acyclic utilFirst.BuildDependency ∧ utilFirst.BuildDependency "core" "util" ∧
      utilFirst.buildOrder = some ["util", "core"] ∧
      ¬ ∃ order, utilFirst.buildOrder = some order ∧ BuildOrdered utilFirst order := by
  have horder : utilFirst.buildOrder = some ["util", "core"] := by decide
  have hdependency : ∀ dep id, utilFirst.BuildDependency dep id → (sampleMetadata sampleNodes).BuildDependency dep id := by
    rintro dep id ⟨hdep, hid, hnode⟩
    have hswap : ∀ x, x ∈ utilFirst.workspaceMembers → x ∈ (sampleMetadata sampleNodes).workspaceMembers := by
      intro x hx
      simpa [utilFirst, sampleMetadata, or_comm] using hx
    exact ⟨hswap dep hdep, hswap id hid, hnode⟩
  have hacyclic : Acyclic utilFirst.BuildDependency :=
    (sampleMetadata_acyclic fun _ h => h).mono hdependency
  have hneeded : utilFirst.BuildDependency "core" "util" :=
    ⟨by decide, by decide, ⟨"util", [⟨"core", [.normal, .development]⟩]⟩, by decide, rfl,
      ⟨"core", [.normal, .development]⟩, List.mem_singleton.mpr rfl, rfl, by decide⟩
  refine ⟨by decide, by decide, rfl, hacyclic, hneeded, horder, ?_⟩
  rintro ⟨order, heq, hordered⟩
  obtain rfl := Option.some.inj (horder.symm.trans heq)
  have hbefore := hordered.before hacyclic "core" "util" hneeded
  exact absurd hbefore (by decide)

/-- Of two members with one name, the last is taken for both. -/
example : ({ sampleMetadata [] with
    packages := [⟨"core", "lib", [], []⟩, ⟨"util", "lib", [], []⟩] } : Metadata).buildOrder = some ["util", "util"] := by
  decide

end Forge.Project
