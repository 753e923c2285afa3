import Mathlib.Data.Int.Notation
import Mathlib.Data.List.Basic
import Mathlib.Data.List.Nodup
import Forge.Common.Machine
import Mathlib.Algebra.Group.Nat.Defs
import Mathlib.Algebra.Group.Int.Defs
import Mathlib.Data.List.Count

/-!
# The load balancer of the worker gateway

The gateway keeps a record for every registered worker, with the number of operations that
are running on it. A selection counts one operation more, a release one operation less. The
operations hold the balancer's lock, so what concurrent callers do is a sequence of
operations. The records are told apart by their names, which never repeat.

The counters are exact as long as no worker is registered anew while selections of its
former record are outstanding: a new record starts at zero, and the releases of the old
selections are counted against it.
-/

namespace Forge.Gateway

open Forge.Common

/-- A registered worker. -/
structure WorkerTarget where
  id : String
  address : String
  weight : ℤ
  activeOps : ℤ
  healthy : Bool
deriving DecidableEq, Repr

/-- Addition on 64-bit signed integers. -/
def addInt64 (a b : ℤ) : ℤ :=
  (a + b).bmod (2 ^ 64)

/-- Addition on 64-bit unsigned integers. -/
def addUint64 (a b : ℕ) : ℕ :=
  (a + b) % 2 ^ 64

/-- A sum in the range of the integers is the sum. -/
theorem addInt64_eq {a b : ℤ} (hlow : -2 ^ 63 ≤ a + b) (hhigh : a + b < 2 ^ 63) : addInt64 a b = a + b := by
  unfold addInt64
  exact Int.bmod_eq_of_le (by omega) (by omega)

/-- Change the first record of a name. -/
def withTarget (id : String) (f : WorkerTarget → WorkerTarget) : List WorkerTarget → List WorkerTarget
  | [] => []
  | t :: targets => if t.id = id then f t :: targets else t :: withTarget id f targets

/-- Changing a record keeps the names. -/
theorem withTarget_ids {id : String} {f : WorkerTarget → WorkerTarget} (hf : ∀ t, (f t).id = t.id)
    (targets : List WorkerTarget) : (withTarget id f targets).map (·.id) = targets.map (·.id) := by
  induction targets with
  | nil => rfl
  | cons t targets ih =>
    unfold withTarget
    split
    · simp only [List.map_cons, hf]
    · simp only [List.map_cons, ih]

/-- With names that do not repeat, a record after a change is the changed one or had another name. -/
theorem mem_withTarget {id : String} {f : WorkerTarget → WorkerTarget} {targets : List WorkerTarget}
    (hunique : (targets.map (·.id)).Nodup) {u : WorkerTarget} (hu : u ∈ withTarget id f targets) :
    (∃ t ∈ targets, t.id = id ∧ u = f t) ∨ (u ∈ targets ∧ u.id ≠ id) := by
  induction targets with
  | nil => exact absurd hu List.not_mem_nil
  | cons t targets ih =>
    obtain ⟨hfresh, hrest⟩ := List.nodup_cons.mp hunique
    by_cases hid : t.id = id
    · rw [withTarget, if_pos hid] at hu
      rcases List.mem_cons.mp hu with rfl | hu
      · exact .inl ⟨t, List.mem_cons_self, hid, rfl⟩
      · have hother : u.id ≠ id := fun hsame =>
          hfresh (List.mem_map.mpr ⟨u, hu, hsame.trans hid.symm⟩)
        exact .inr ⟨List.mem_cons_of_mem t hu, hother⟩
    · rw [withTarget, if_neg hid] at hu
      rcases List.mem_cons.mp hu with rfl | hu
      · exact .inr ⟨List.mem_cons_self, hid⟩
      · rcases ih hrest hu with ⟨t', ht', hid', hchanged⟩ | ⟨hu', hother⟩
        · exact .inl ⟨t', List.mem_cons_of_mem t ht', hid', hchanged⟩
        · exact .inr ⟨List.mem_cons_of_mem t hu', hother⟩

/-- The balancer: the registered workers and the counter of the round robin. -/
structure LoadBalancer where
  targets : List WorkerTarget
  counter : ℕ
  unique : (targets.map (·.id)).Nodup

/-- Why no worker was selected. -/
inductive SelectError where
  | noHealthyTargets
deriving DecidableEq, Repr

/-- The text of an error. -/
def SelectError.message : SelectError → String
  | .noHealthyTargets => "no healthy targets available"

namespace LoadBalancer

/-- A balancer without workers. -/
def newLoadBalancer : LoadBalancer where
  targets := []
  counter := 0
  unique := List.nodup_nil

/-- Change the record of a name, if there is one. -/
def change (lb : LoadBalancer) (id : String) (f : WorkerTarget → WorkerTarget)
    (hf : ∀ t, (f t).id = t.id) : LoadBalancer where
  targets := withTarget id f lb.targets
  counter := lb.counter
  unique := by rw [withTarget_ids hf]; exact lb.unique

/-- Whether a name is registered. -/
def Registered (lb : LoadBalancer) (id : String) : Prop :=
  id ∈ lb.targets.map (·.id)

/-- Whether a name is registered can be computed. -/
instance (lb : LoadBalancer) (id : String) : Decidable (lb.Registered id) :=
  inferInstanceAs (Decidable (id ∈ lb.targets.map (·.id)))

/-- Register a worker, or update the record it has. -/
def addTargetWithWeight (lb : LoadBalancer) (id address : String) (weight : ℤ) : LoadBalancer :=
  let weight := if weight ≤ 0 then 1 else weight
  if h : lb.Registered id then
    lb.change id (fun t => { t with address := address, weight := weight, healthy := true }) fun _ => rfl
  else
    { targets := lb.targets ++ [{ id := id, address := address, weight := weight, activeOps := 0, healthy := true }]
      counter := lb.counter
      unique := by
        rw [List.map_append]
        exact List.Nodup.append lb.unique (List.nodup_singleton _) (by simpa [Registered] using h) }

/-- Register a worker of weight one. -/
def addTarget (lb : LoadBalancer) (id address : String) : LoadBalancer :=
  lb.addTargetWithWeight id address 1

/-- Drop the record of a name. -/
def removeTarget (lb : LoadBalancer) (id : String) : LoadBalancer where
  targets := lb.targets.eraseP fun t => decide (t.id = id)
  counter := lb.counter
  unique := lb.unique.sublist (List.eraseP_sublist.map _)

/-- Set the health of a worker. -/
def setHealth (lb : LoadBalancer) (targetID : String) (healthy : Bool) : LoadBalancer :=
  lb.change targetID (fun t => { t with healthy := healthy }) fun _ => rfl

/-- Count an operation on a worker, or its end. -/
def countOps (lb : LoadBalancer) (id : String) (delta : ℤ) : LoadBalancer :=
  lb.change id (fun t => { t with activeOps := addInt64 t.activeOps delta }) fun _ => rfl

/-- One worker of the scan for the least loaded one. -/
def better (best : Option WorkerTarget) (t : WorkerTarget) : Option WorkerTarget :=
  if t.healthy = false then best
  else match best with
    | none => some t
    | some b => if t.activeOps < b.activeOps then some t else some b

/-- Select the healthy worker with the fewest operations, the first one among equals. -/
def selectLeastLoaded (lb : LoadBalancer) : Except SelectError (LoadBalancer × WorkerTarget) :=
  match lb.targets.foldl better none with
  | none => .error .noHealthyTargets
  | some best => .ok (lb.countOps best.id 1, { best with activeOps := addInt64 best.activeOps 1 })

/-- The workers that a round robin visits. -/
def healthyTargets (lb : LoadBalancer) : List WorkerTarget :=
  lb.targets.filter (·.healthy)

/-- Select the healthy workers one after another. -/
def selectRoundRobin (lb : LoadBalancer) : Except SelectError (LoadBalancer × WorkerTarget) :=
  if h : lb.healthyTargets.length = 0 then .error .noHealthyTargets
  else
    let counter := addUint64 lb.counter 1
    let selected := lb.healthyTargets.get ⟨counter % lb.healthyTargets.length, Nat.mod_lt _ (Nat.pos_of_ne_zero h)⟩
    .ok ({ lb.countOps selected.id 1 with counter := counter },
      { selected with activeOps := addInt64 selected.activeOps 1 })

/-- End an operation on a worker. -/
def release (lb : LoadBalancer) (targetID : String) : LoadBalancer :=
  lb.countOps targetID (-1)

/-- The number of registered workers. -/
def targetCount (lb : LoadBalancer) : ℕ :=
  lb.targets.length

end LoadBalancer

/-!
## What the counters of the balancer count

A run is a list of operations, with the selections that the callers have not released yet
as part of the state. A worker that is registered anew while selections of its former
record are outstanding gets a counter that misses them. Without such registrations every
counter is exact.
-/

open LoadBalancer

/-- An operation on the balancer. -/
inductive Operation where
  | addTarget (id address : String) (weight : ℤ)
  | removeTarget (id : String)
  | setHealth (id : String) (healthy : Bool)
  | selectLeastLoaded
  | selectRoundRobin
  | release (id : String)
deriving DecidableEq, Repr

/-- The balancer and the names of the selections not yet released. -/
structure Balancing where
  lb : LoadBalancer
  outstanding : List String

namespace Balancing

/-- The balancer before any operation. -/
def start : Balancing where
  lb := newLoadBalancer
  outstanding := []

/-- What a caller holds after a selection. -/
def selected (s : Balancing) : Except SelectError (LoadBalancer × WorkerTarget) → Balancing
  | .error _ => s
  | .ok (lb, t) => ⟨lb, t.id :: s.outstanding⟩

/-- One operation. Only a selection that is outstanding is released. -/
def step (s : Balancing) : Operation → Option Balancing
  | .addTarget id address weight => some { s with lb := s.lb.addTargetWithWeight id address weight }
  | .removeTarget id => some { s with lb := s.lb.removeTarget id }
  | .setHealth id healthy => some { s with lb := s.lb.setHealth id healthy }
  | .selectLeastLoaded => some (s.selected s.lb.selectLeastLoaded)
  | .selectRoundRobin => some (s.selected s.lb.selectRoundRobin)
  | .release id =>
    if id ∈ s.outstanding then some ⟨s.lb.release id, s.outstanding.erase id⟩ else none

/-- The balancer as a machine. -/
def machine : Machine Balancing Operation where
  step := step

/-- Every counter is the number of selections not yet released, and not negative. -/
def Exact (s : Balancing) : Prop :=
  ∀ t ∈ s.lb.targets, t.activeOps = s.outstanding.count t.id ∧ 0 ≤ t.activeOps

/-- Whether the counters are exact can be computed. -/
instance (s : Balancing) : Decidable s.Exact :=
  inferInstanceAs (Decidable (∀ t ∈ s.lb.targets, _ ∧ _))

/-- No operation registers a worker anew while selections of its former record are outstanding, and
none selects while a counter is at the largest integer. -/
def Settled (s : Balancing) : Operation → Prop
  | .addTarget id _ _ => s.lb.Registered id ∨ id ∉ s.outstanding
  | .selectLeastLoaded | .selectRoundRobin => ∀ t ∈ s.lb.targets, s.outstanding.count t.id < 2 ^ 63 - 1
  | _ => True

/-- Whether an operation is settled can be computed. -/
instance decidableSettled (s : Balancing) : (op : Operation) → Decidable (s.Settled op)
  | .addTarget id _ _ => inferInstanceAs (Decidable (s.lb.Registered id ∨ id ∉ s.outstanding))
  | .selectLeastLoaded => inferInstanceAs (Decidable (∀ t ∈ s.lb.targets, _ < _))
  | .selectRoundRobin => inferInstanceAs (Decidable (∀ t ∈ s.lb.targets, _ < _))
  | .removeTarget _ => inferInstanceAs (Decidable True)
  | .setHealth _ _ => inferInstanceAs (Decidable True)
  | .release _ => inferInstanceAs (Decidable True)

/-- The counters are exact and in the range of their integers. -/
def Counted (s : Balancing) : Prop :=
  ∀ t ∈ s.lb.targets, t.activeOps = s.outstanding.count t.id ∧ s.outstanding.count t.id < 2 ^ 63

/-- Counted counters are exact. -/
theorem Counted.exact {s : Balancing} (h : s.Counted) : s.Exact := fun t ht => by
  have hcount := (h t ht).1
  exact ⟨hcount, by omega⟩

/-- Nothing is registered at the start. -/
theorem start_counted : start.Counted := fun _ ht => absurd ht List.not_mem_nil

/-- A change of a record that keeps its name and its counter keeps the accounts. -/
theorem Counted.change {s : Balancing} (h : s.Counted) {id : String} {f : WorkerTarget → WorkerTarget}
    (hf : ∀ t, (f t).id = t.id) (hops : ∀ t, (f t).activeOps = t.activeOps) :
    Counted { s with lb := s.lb.change id f hf } := by
  intro u hu
  rcases mem_withTarget s.lb.unique hu with ⟨t, ht, -, rfl⟩ | ⟨hu, -⟩
  · rw [hf, hops]
    exact h t ht
  · exact h u hu

/-- A registration that is settled keeps the accounts. -/
theorem Counted.addTarget {s : Balancing} (h : s.Counted) {id : String} (address : String) (weight : ℤ)
    (hsettled : s.lb.Registered id ∨ id ∉ s.outstanding) :
    Counted { s with lb := s.lb.addTargetWithWeight id address weight } := by
  by_cases hregistered : s.lb.Registered id
  · simp only [addTargetWithWeight, dif_pos hregistered]
    exact h.change _ fun _ => rfl
  · have hnone : s.outstanding.count id = 0 :=
      List.count_eq_zero.mpr (hsettled.resolve_left hregistered)
    intro u hu
    simp only [addTargetWithWeight, dif_neg hregistered, List.mem_append, List.mem_singleton] at hu
    rcases hu with hu | rfl
    · exact h u hu
    · simp [hnone]

/-- A registration that is not settled leaves a counter that misses the outstanding selections. -/
theorem not_exact_addTarget {s : Balancing} {id : String} (address : String) (weight : ℤ)
    (hnew : ¬ s.lb.Registered id) (hheld : id ∈ s.outstanding) :
    ¬ Exact { s with lb := s.lb.addTargetWithWeight id address weight } := by
  intro hexact
  simp only [Exact, addTargetWithWeight, dif_neg hnew, List.mem_append, List.mem_singleton] at hexact
  have hcount : (0 : ℤ) = s.outstanding.count id := (hexact _ (.inr rfl)).1
  have hpos : 0 < s.outstanding.count id := List.count_pos_iff.mpr hheld
  omega

/-- Dropping a record keeps the accounts of the others. -/
theorem Counted.removeTarget {s : Balancing} (h : s.Counted) (id : String) :
    Counted { s with lb := s.lb.removeTarget id } := fun t ht =>
  h t (List.mem_of_mem_eraseP ht)

/-- Counting a selection of any worker keeps the accounts. Which worker it is, and what the round robin
counts, does not matter. -/
theorem Counted.select {s : Balancing} (h : s.Counted) (id : String) (counter : ℕ)
    (hroom : ∀ t ∈ s.lb.targets, s.outstanding.count t.id < 2 ^ 63 - 1) :
    Counted ⟨{ s.lb.countOps id 1 with counter := counter }, id :: s.outstanding⟩ := by
  intro u hu
  rcases mem_withTarget s.lb.unique hu with ⟨t, ht, rfl, rfl⟩ | ⟨hu, hother⟩
  · have hops := (h t ht).1
    have hsmall := hroom t ht
    have hcount : (t.id :: s.outstanding).count t.id = s.outstanding.count t.id + 1 := List.count_cons_self
    simp only [hcount]
    rw [addInt64_eq (by omega) (by omega), hops]
    exact ⟨by omega, by omega⟩
  · simp only [List.count_cons_of_ne (Ne.symm hother)]
    exact h u hu

/-- A successful or failed selection keeps the accounts. -/
theorem Counted.selected {s : Balancing} (h : s.Counted)
    {answer : Except SelectError (LoadBalancer × WorkerTarget)}
    (hroom : ∀ t ∈ s.lb.targets, s.outstanding.count t.id < 2 ^ 63 - 1)
    (hanswer : ∀ lb t, answer = .ok (lb, t) → ∃ counter, lb = { s.lb.countOps t.id 1 with counter := counter }) :
    (s.selected answer).Counted := by
  cases answer with
  | error e => exact h
  | ok selection =>
    obtain ⟨lb, t⟩ := selection
    obtain ⟨counter, rfl⟩ := hanswer lb t rfl
    exact h.select t.id counter hroom

/-- The least loaded selection counts one operation on what it returns. -/
theorem selectLeastLoaded_counts {lb lb' : LoadBalancer} {t : WorkerTarget}
    (hselect : lb.selectLeastLoaded = .ok (lb', t)) :
    ∃ counter, lb' = { lb.countOps t.id 1 with counter := counter } := by
  unfold selectLeastLoaded at hselect
  split at hselect
  · exact absurd hselect nofun
  · obtain ⟨rfl, rfl⟩ := Prod.mk.inj (Except.ok.inj hselect)
    exact ⟨lb.counter, rfl⟩

/-- The round robin counts one operation on what it returns. -/
theorem selectRoundRobin_counts {lb lb' : LoadBalancer} {t : WorkerTarget}
    (hselect : lb.selectRoundRobin = .ok (lb', t)) :
    ∃ counter, lb' = { lb.countOps t.id 1 with counter := counter } := by
  unfold selectRoundRobin at hselect
  split at hselect
  · exact absurd hselect nofun
  · obtain ⟨rfl, rfl⟩ := Prod.mk.inj (Except.ok.inj hselect)
    exact ⟨_, rfl⟩

/-- A release of an outstanding selection keeps the accounts. -/
theorem Counted.release {s : Balancing} (h : s.Counted) {id : String} (hheld : id ∈ s.outstanding) :
    Counted ⟨s.lb.release id, s.outstanding.erase id⟩ := by
  intro u hu
  rcases mem_withTarget s.lb.unique hu with ⟨t, ht, rfl, rfl⟩ | ⟨hu, hother⟩
  · obtain ⟨hops, hsmall⟩ := h t ht
    have hpos : 0 < s.outstanding.count t.id := List.count_pos_iff.mpr hheld
    have hcount : (s.outstanding.erase t.id).count t.id = s.outstanding.count t.id - 1 :=
      List.count_erase_self
    simp only [hcount]
    rw [addInt64_eq (by omega) (by omega), hops]
    exact ⟨by omega, by omega⟩
  · simp only [List.count_erase_of_ne hother]
    exact h u hu

/-- A settled operation keeps the accounts. -/
theorem counted_step {s s' : Balancing} {op : Operation} (h : s.Counted) (hsettled : s.Settled op)
    (hstep : machine.step s op = some s') : s'.Counted := by
  cases op with
  | addTarget id address weight =>
    exact Option.some.inj hstep ▸ h.addTarget address weight hsettled
  | removeTarget id => exact Option.some.inj hstep ▸ h.removeTarget id
  | setHealth id healthy => exact Option.some.inj hstep ▸ h.change _ fun _ => rfl
  | selectLeastLoaded =>
    exact Option.some.inj hstep ▸ h.selected hsettled fun _ _ => selectLeastLoaded_counts
  | selectRoundRobin =>
    exact Option.some.inj hstep ▸ h.selected hsettled fun _ _ => selectRoundRobin_counts
  | release id =>
    obtain ⟨hheld, hafter⟩ := Option.ite_none_right_eq_some.mp hstep
    exact Option.some.inj hafter ▸ h.release hheld

/-- In every run whose operations are settled, every counter is the number of selections of its worker
not yet released, and never negative. -/
theorem exact_of_settled {operations : List Operation} {s : Balancing}
    (hsettled : machine.Along Settled start operations) (hrun : machine.exec start operations = some s) :
    s.Exact :=
  (machine.invariant_along Counted Settled (fun _ _ _ => counted_step) start_counted hsettled hrun).exact

/-- Two workers that are selected, one of them taken out before its release. -/
def sampleOperations : List Operation :=
  [.addTarget "w1" "http://a" 1, .addTarget "w2" "http://b" 0, .selectLeastLoaded, .selectLeastLoaded,
    .removeTarget "w1", .release "w1", .selectRoundRobin]

/-- The run of the two workers. -/
theorem exact_of_settled_two : ∃ s, machine.exec start sampleOperations = some s ∧ s.Exact :=
  have hsettled : machine.Along Settled start sampleOperations := by decide
  ⟨_, rfl, exact_of_settled hsettled rfl⟩

/-- A worker registered anew before its selection is released counts minus one operation. -/
theorem not_exact_reregistered :
    ∃ s, machine.exec start [.addTarget "w1" "http://a" 1, .selectRoundRobin, .removeTarget "w1",
        .addTarget "w1" "http://a" 1, .release "w1"] = some s ∧
      s.outstanding = [] ∧ s.lb.targets.map (·.activeOps) = [-1] ∧ ¬ s.Exact :=
  ⟨_, rfl, by decide, by decide, by decide⟩

end Balancing

end Forge.Gateway
