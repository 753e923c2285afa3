import Mathlib.Algebra.BigOperators.Group.List.Basic
import Mathlib.Algebra.Order.BigOperators.Group.List
import Mathlib.Tactic.Linarith

/-!
# Longest jobs first, on the least loaded machine

Jobs with known lengths are given to machines one after another, each to a machine with the
least load so far. When the longest jobs come first, the greatest load is at most four
thirds of what any other distribution needs, less a third of a machine's share.

The last job on the machine with the greatest load decides. If it is short, the machine was
at most average before it. If it is long, so are all jobs before it; a machine within the
bound has room for two of them at most, and for one only if a second would not fit, and the
loads before the last job leave no such room.
-/

namespace Forge.Common

/-- The distributions that come about when each job in turn goes to a machine with the least load. -/
inductive LeastLoaded (machines : ℕ) : List ℕ → List (List ℕ) → Prop where
  | nil : LeastLoaded machines [] (List.replicate machines [])
  | snoc {jobs : List ℕ} {loads loads' rest : List (List ℕ)} {load : List ℕ} {job : ℕ} :
      LeastLoaded machines jobs loads → loads.Perm (load :: rest) → (∀ other ∈ rest, load.sum ≤ other.sum) →
      loads'.Perm ((load ++ [job]) :: rest) → LeastLoaded machines (jobs ++ [job]) loads'

/-- The jobs are distributed, to all of the machines. -/
theorem LeastLoaded.perm {machines : ℕ} {jobs : List ℕ} {loads : List (List ℕ)} (h : LeastLoaded machines jobs loads) :
    loads.flatten.Perm jobs ∧ loads.length = machines := by
  induction h with
  | nil => exact ⟨by rw [List.flatten_replicate_nil], List.length_replicate⟩
  | @snoc jobs loads loads' rest load job _ hbefore _ hafter ih =>
    obtain ⟨hperm, hlength⟩ := ih
    constructor
    · refine hafter.flatten.trans ?_
      rw [List.flatten_cons, List.append_assoc]
      refine (List.perm_append_comm.append_left load).trans ?_
      rw [← List.append_assoc, ← List.flatten_cons]
      exact (hbefore.flatten.symm.trans hperm).append_right [job]
    · rw [hafter.length_eq, List.length_cons, ← List.length_cons (a := load), ← hbefore.length_eq, hlength]

/-- A machine that has jobs got its last one when no other machine had a smaller load. -/
theorem LeastLoaded.last_job {machines : ℕ} {jobs : List ℕ} {loads : List (List ℕ)} (h : LeastLoaded machines jobs loads)
    {load : List ℕ} (hload : load ∈ loads) (hne : load ≠ []) :
    ∃ before job after earlier loads₀, jobs = before ++ job :: after ∧ load = earlier ++ [job] ∧
      LeastLoaded machines before loads₀ ∧ ∀ other ∈ loads₀, earlier.sum ≤ other.sum := by
  induction h with
  | nil => exact absurd (List.eq_of_mem_replicate hload) hne
  | @snoc jobs loads loads' rest least job hprefix hbefore hleast hafter ih =>
    rcases List.mem_cons.mp (hafter.mem_iff.mp hload) with rfl | hrest
    · refine ⟨jobs, job, [], least, loads, rfl, rfl, hprefix, fun other hother => ?_⟩
      rcases List.mem_cons.mp (hbefore.mem_iff.mp hother) with rfl | hrest
      · exact le_rfl
      · exact hleast other hrest
    · obtain ⟨before, last, after, earlier, loads₀, rfl, hload, hsteps, hmin⟩ :=
        ih (hbefore.mem_iff.mpr (List.mem_cons_of_mem _ hrest))
      exact ⟨before, last, after ++ [job], earlier, loads₀, by rw [List.append_assoc, List.cons_append], hload, hsteps, hmin⟩

/-- Loads that are all at least as great as one bound add up to at least its multiple. -/
theorem length_mul_le_sum {l : List ℕ} {n : ℕ} (h : ∀ x ∈ l, n ≤ x) : l.length * n ≤ l.sum := by
  have hsum := List.card_nsmul_le_sum l n h
  rwa [Nat.nsmul_eq_mul] at hsum

/-- The sum of a list of loads is the sum of all jobs. -/
theorem sum_map_sum (f : ℕ → ℕ) (loads : List (List ℕ)) :
    (loads.map fun load => (load.map f).sum).sum = (loads.flatten.map f).sum := by
  induction loads with
  | nil => rfl
  | cons load loads ih => rw [List.map_cons, List.sum_cons, ih, List.flatten_cons, List.map_append, List.sum_append]

/-- How much of a machine a job takes up, when jobs of at least a given length are placed on machines within a bound:
all of it when no second one fits besides, and else half of it. -/
def room (bound shortest job : ℕ) : ℕ :=
  if job < shortest then 0 else if bound < job + shortest then 2 else 1

/-- Three jobs do not fit on a machine, nor does a second one besides a job that takes up all of it. -/
theorem lt_sum_of_room {bound shortest : ℕ} (hshort : bound < 3 * shortest) (load : List ℕ) :
    (1 ≤ (load.map (room bound shortest)).sum → shortest ≤ load.sum) ∧
      (2 ≤ (load.map (room bound shortest)).sum → bound < load.sum + shortest) ∧
      (3 ≤ (load.map (room bound shortest)).sum → bound < load.sum) := by
  induction load with
  | nil =>
    rw [List.map_nil, List.sum_nil]
    refine ⟨fun h => ?_, fun h => ?_, fun h => ?_⟩ <;> omega
  | cons job load ih =>
    obtain ⟨hone, htwo, hthree⟩ := ih
    rw [List.map_cons, List.sum_cons, List.sum_cons, room]
    split
    · refine ⟨fun h => ?_, fun h => ?_, fun h => ?_⟩ <;> omega
    · split
      · refine ⟨fun h => ?_, fun h => ?_, fun h => ?_⟩ <;> omega
      · refine ⟨fun h => ?_, fun h => ?_, fun h => ?_⟩ <;> omega

/-- A machine on which no further job fits is taken up. -/
theorem two_le_room {bound shortest : ℕ} (hshort : shortest ≤ bound) {load : List ℕ} (hjobs : ∀ job ∈ load, shortest ≤ job)
    (hfull : bound < load.sum + shortest) : 2 ≤ (load.map (room bound shortest)).sum := by
  have hpos : ∀ job, shortest ≤ job → 1 ≤ room bound shortest job := by
    intro job hjob
    rw [room, if_neg (Nat.not_lt_of_le hjob)]
    split <;> decide
  match load with
  | [] => exact absurd hshort (by rw [List.sum_nil, Nat.zero_add] at hfull; omega)
  | [job] =>
    have hjob := hjobs job (List.mem_singleton_self job)
    rw [List.sum_singleton] at hfull
    rw [List.map_singleton, List.sum_singleton, room, if_neg (Nat.not_lt_of_le hjob), if_pos hfull]
  | job :: second :: load =>
    have hfirst := hpos job (hjobs job List.mem_cons_self)
    have hsecond := hpos second (hjobs second (List.mem_cons_of_mem _ List.mem_cons_self))
    rw [List.map_cons, List.map_cons, List.sum_cons, List.sum_cons]
    omega

/-- When all machines are taken up by jobs that are at least as long, one more such job does not fit within the bound,
however the jobs are distributed. -/
theorem load_le_of_long {machines bound : ℕ} {before after : List ℕ} {job : ℕ} {loads others : List (List ℕ)}
    (hloads : LeastLoaded machines before loads) (hsorted : ∀ longer ∈ before, job ≤ longer)
    (hothers : others.flatten.Perm (before ++ job :: after)) (hlength : others.length = machines)
    (hbound : ∀ other ∈ others, other.sum ≤ bound) (hlong : bound < 3 * job) {least : ℕ}
    (hleast : ∀ load ∈ loads, least ≤ load.sum) : least + job ≤ bound := by
  by_contra hover
  obtain ⟨hperm, hmachines⟩ := hloads.perm
  have hfits : job ≤ bound := by
    obtain ⟨other, hother, hjob⟩ := List.mem_flatten.mp
      (hothers.mem_iff.mpr (List.mem_append_right before List.mem_cons_self))
    exact (List.single_le_sum (fun _ _ => Nat.zero_le _) job hjob).trans (hbound other hother)
  have hfull : ∀ total ∈ loads.map fun load => (load.map (room bound job)).sum, 2 ≤ total := by
    intro total htotal
    obtain ⟨load, hload, rfl⟩ := List.mem_map.mp htotal
    have hjobs : ∀ longer ∈ load, job ≤ longer := fun longer hlonger =>
      hsorted longer (hperm.mem_iff.mp (List.mem_flatten.mpr ⟨load, hload, hlonger⟩))
    have hmin := hleast load hload
    exact two_le_room hfits hjobs (by omega)
  have hlower := length_mul_le_sum hfull
  rw [sum_map_sum, (hperm.map _).sum_eq, List.length_map, hmachines] at hlower
  have hupper : (others.map fun other => (other.map (room bound job)).sum).sum ≤ others.length * 2 := by
    have hle : ∀ total ∈ others.map fun other => (other.map (room bound job)).sum, total ≤ 2 := by
      intro total htotal
      obtain ⟨other, hother, rfl⟩ := List.mem_map.mp htotal
      by_contra hthree
      have hsum := (lt_sum_of_room hlong other).2.2 (by omega)
      exact absurd (hbound other hother) (Nat.not_le_of_lt hsum)
    have hsum := List.sum_le_card_nsmul _ 2 hle
    rwa [Nat.nsmul_eq_mul, List.length_map] at hsum
  have hself : 1 ≤ room bound job job := by
    rw [room, if_neg (Nat.lt_irrefl job)]
    split <;> decide
  rw [sum_map_sum, (hothers.map _).sum_eq, hlength, List.map_append, List.map_cons, List.sum_append, List.sum_cons]
    at hupper
  omega

/-- Longest jobs first: with `m` machines every load is at most `4/3 - 1/(3m)` times what any other distribution of the
same jobs needs. -/
theorem LeastLoaded.load_le {machines bound : ℕ} {jobs : List ℕ} {loads others : List (List ℕ)}
    (h : LeastLoaded machines jobs loads) (hsorted : jobs.Pairwise fun a b => b ≤ a)
    (hothers : others.flatten.Perm jobs) (hlength : others.length = machines)
    (hbound : ∀ other ∈ others, other.sum ≤ bound) {load : List ℕ} (hload : load ∈ loads) :
    3 * machines * load.sum ≤ (4 * machines - 1) * bound := by
  by_cases hne : load = []
  · rw [hne, List.sum_nil, Nat.mul_zero]
    exact Nat.zero_le _
  obtain ⟨before, job, after, earlier, loads₀, rfl, rfl, hsteps, hmin⟩ := h.last_job hload hne
  obtain ⟨hperm, hmachines⟩ := hsteps.perm
  rw [List.sum_append, List.sum_singleton]
  obtain ⟨rest, hrest⟩ : ∃ rest, machines = rest + 1 := by
    have hpos : 0 < machines := by
      rw [← h.perm.2]
      exact List.length_pos_of_mem hload
    exact ⟨machines - 1, by omega⟩
  by_cases hlong : bound < 3 * job
  · have hlonger : ∀ longer ∈ before, job ≤ longer := fun longer hlonger =>
      (List.pairwise_append.mp hsorted).2.2 longer hlonger job List.mem_cons_self
    have hle := load_le_of_long hsteps hlonger hothers hlength hbound hlong hmin
    calc 3 * machines * (earlier.sum + job) ≤ 3 * machines * bound := Nat.mul_le_mul_left _ hle
      _ ≤ (4 * machines - 1) * bound := Nat.mul_le_mul_right _ (by omega)
  · -- A short last job: before it, the machine was at most average.
    have haverage : machines * earlier.sum ≤ before.sum := by
      have hall : ∀ total ∈ loads₀.map List.sum, earlier.sum ≤ total := by
        intro total htotal
        obtain ⟨other, hother, rfl⟩ := List.mem_map.mp htotal
        exact hmin other hother
      have hsum := length_mul_le_sum hall
      rwa [List.length_map, hmachines, ← List.sum_flatten, hperm.sum_eq] at hsum
    have htotal : before.sum + job ≤ machines * bound := by
      have hall : ∀ total ∈ others.map List.sum, total ≤ bound := by
        intro total htotal
        obtain ⟨other, hother, rfl⟩ := List.mem_map.mp htotal
        exact hbound other hother
      have hsum := List.sum_le_card_nsmul _ bound hall
      rw [Nat.nsmul_eq_mul, List.length_map, hlength, ← List.sum_flatten, hothers.sum_eq, List.sum_append,
        List.sum_cons] at hsum
      omega
    have hshort : rest * (3 * job) ≤ rest * bound := Nat.mul_le_mul_left _ (Nat.le_of_not_lt hlong)
    have hfactor : 4 * machines - 1 = 4 * rest + 3 := by omega
    rw [hfactor]
    subst hrest
    nlinarith only [haverage, htotal, hshort]

end Forge.Common
