import Mathlib

/-!
# The registry of the coordinator

The registry keeps the workers by name, with the time of their last heartbeat. A worker is
selected for a toolchain and a table of required tags: of the healthy workers that support the
toolchain and match the tags, the first one with the fewest active jobs. The workers are
visited in the order of an iteration of the table, which is any order.

A tag that a worker does not have is read as the empty text, and so it matches a requirement
of the empty text.
-/

namespace Forge.Coordinator

/-- A registered worker. -/
structure WorkerNode where
  id : String
  supportedToolchains : List String
  tags : AList fun _ : String => String
  activeJobs : ℤ
  lastHeartbeat : ℤ
deriving DecidableEq

namespace WorkerNode

/-- Whether a worker supports a toolchain. The empty toolchain is supported by a worker that supports any. -/
def supports (w : WorkerNode) (toolchain : String) : Bool :=
  w.supportedToolchains.any fun tc => tc == toolchain || tc == "*" || toolchain == ""

/-- The value of a tag. -/
def tag (w : WorkerNode) (k : String) : String := (w.tags.lookup k).getD ""

/-- Whether every required tag has the required value. -/
def matchedTags (w : WorkerNode) (requiredTags : AList fun _ : String => String) : Bool :=
  requiredTags.entries.all fun required => w.tag required.1 == required.2

/-- Whether a worker is taken by a selection. -/
def suitable (w : WorkerNode) (toolchain : String) (requiredTags : AList fun _ : String => String) : Bool :=
  w.supports toolchain && w.matchedTags requiredTags

/-- Every required tag is there, with the required value. -/
def Carries (w : WorkerNode) (requiredTags : AList fun _ : String => String) : Prop :=
  ∀ k v, requiredTags.lookup k = some v → w.tags.lookup k = some v

end WorkerNode

/-- The registry, with the time after which a worker that is not heard of is not healthy any more. -/
structure NodeRegistry where
  workers : AList fun _ : String => WorkerNode
  timeout : ℤ

namespace NodeRegistry

/-- The registered workers. -/
def nodes (r : NodeRegistry) : List WorkerNode := r.workers.entries.map Sigma.snd

/-- An order in which the workers are visited. -/
structure Iteration (r : NodeRegistry) where
  order : List WorkerNode
  perm : order.Perm r.nodes

/-- The time of the oldest heartbeat that does not count any more. Durations are 64-bit integers. -/
def cutoff (r : NodeRegistry) (now : ℤ) : ℤ := now + (-r.timeout).bmod (2 ^ 64)

/-- Whether a worker was heard of after the cutoff. -/
def healthy (r : NodeRegistry) (now : ℤ) (w : WorkerNode) : Bool := r.cutoff now < w.lastHeartbeat

/-- The healthy workers, in the order of the iteration. -/
def listHealthyWorkers (r : NodeRegistry) (it : r.Iteration) (now : ℤ) : List WorkerNode :=
  it.order.filter (r.healthy now)

/-- The better one of the best worker so far and another worker. -/
def better (best : Option WorkerNode) (w : WorkerNode) : Option WorkerNode :=
  match best with
  | none => some w
  | some b => if w.activeJobs < b.activeJobs then some w else some b

/-- The best one of the workers that support the toolchain and match the tags. -/
def best (healthy : List WorkerNode) (toolchain : String) (requiredTags : AList fun _ : String => String) :
    Option WorkerNode :=
  healthy.foldl (fun best w =>
    if !w.supports toolchain then best
    else if !w.matchedTags requiredTags then best
    else better best w) none

/-- Select a worker for a toolchain and required tags. -/
def selectWorkerWithTags (r : NodeRegistry) (it : r.Iteration) (now : ℤ) (toolchain : String)
    (requiredTags : AList fun _ : String => String) : Except String WorkerNode :=
  let healthy := r.listHealthyWorkers it now
  if healthy.length = 0 then .error "no healthy workers available"
  else
    match best healthy toolchain requiredTags with
    | none => .error "no suitable worker found"
    | some w => .ok w

/-- Select a worker for a toolchain. -/
def selectOptimalWorker (r : NodeRegistry) (it : r.Iteration) (now : ℤ) (toolchain : String) :
    Except String WorkerNode :=
  r.selectWorkerWithTags it now toolchain ∅

/-- A registered healthy worker that supports the toolchain and carries the required tags. -/
structure Eligible (r : NodeRegistry) (now : ℤ) (toolchain : String)
    (requiredTags : AList fun _ : String => String) (w : WorkerNode) : Prop where
  registered : w ∈ r.nodes
  healthy : r.healthy now w
  supports : toolchain ∈ w.supportedToolchains ∨ "*" ∈ w.supportedToolchains ∨
    toolchain = "" ∧ w.supportedToolchains ≠ []
  carries : w.Carries requiredTags

/-- The result of a selection is an error without an eligible worker, else one with the fewest active jobs. -/
def LeastLoaded (r : NodeRegistry) (now : ℤ) (toolchain : String)
    (requiredTags : AList fun _ : String => String) (result : Except String WorkerNode) : Prop :=
  ((∃ e, result = .error e) ↔ ∀ w, ¬ r.Eligible now toolchain requiredTags w) ∧
    ∀ w, result = .ok w → r.Eligible now toolchain requiredTags w ∧
      ∀ v, r.Eligible now toolchain requiredTags v → w.activeJobs ≤ v.activeJobs

end NodeRegistry

/-! ### The predicates of the selection -/

/-- The toolchain is in the list, or everything is, or the empty one is asked for. -/
theorem WorkerNode.supports_iff (w : WorkerNode) (toolchain : String) :
    w.supports toolchain ↔ toolchain ∈ w.supportedToolchains ∨ "*" ∈ w.supportedToolchains ∨
      toolchain = "" ∧ w.supportedToolchains ≠ [] := by
  simp only [supports, List.any_eq_true, Bool.or_eq_true, beq_iff_eq]
  constructor
  · rintro ⟨tc, hmem, (rfl | rfl) | hempty⟩
    · exact .inl hmem
    · exact .inr (.inl hmem)
    · exact .inr (.inr ⟨hempty, List.ne_nil_of_mem hmem⟩)
  · rintro (hmem | hmem | ⟨hempty, hne⟩)
    · exact ⟨toolchain, hmem, .inl (.inl rfl)⟩
    · exact ⟨"*", hmem, .inl (.inr rfl)⟩
    · obtain ⟨tc, hmem⟩ := List.exists_mem_of_ne_nil _ hne
      exact ⟨tc, hmem, .inr hempty⟩

/-- The tags match if each required tag has the required value, a missing one read as empty. -/
theorem WorkerNode.matchedTags_iff (w : WorkerNode) (requiredTags : AList fun _ : String => String) :
    w.matchedTags requiredTags ↔ ∀ k v, requiredTags.lookup k = some v → w.tag k = v := by
  simp only [matchedTags, List.all_eq_true, beq_iff_eq]
  constructor
  · intro h k v hlookup
    exact h ⟨k, v⟩ (AList.mem_lookup_iff.mp hlookup)
  · rintro h ⟨k, v⟩ hmem
    exact h k v (AList.mem_lookup_iff.mpr hmem)

/-- A worker that carries the tags matches them. -/
theorem WorkerNode.Carries.matchedTags {w : WorkerNode} {requiredTags : AList fun _ : String => String}
    (h : w.Carries requiredTags) : w.matchedTags requiredTags :=
  (w.matchedTags_iff requiredTags).mpr fun k v hlookup => by rw [tag, h k v hlookup, Option.getD_some]

namespace NodeRegistry

variable {r : NodeRegistry} {now : ℤ} {toolchain : String} {requiredTags : AList fun _ : String => String}

/-- An eligible worker is suitable. -/
theorem Eligible.suitable {w : WorkerNode} (h : r.Eligible now toolchain requiredTags w) :
    w.suitable toolchain requiredTags := by
  rw [WorkerNode.suitable, (w.supports_iff toolchain).mpr h.supports, h.carries.matchedTags]
  rfl

/-! ### The loop -/

/-- The loop takes the first suitable worker with the fewest active jobs. -/
theorem best_eq_argmin (healthy : List WorkerNode) (toolchain : String)
    (requiredTags : AList fun _ : String => String) :
    best healthy toolchain requiredTags =
      (healthy.filter (·.suitable toolchain requiredTags)).argmin WorkerNode.activeJobs := by
  unfold best List.argmin
  rw [List.foldl_filter]
  congr
  funext best w
  rw [WorkerNode.suitable]
  cases w.supports toolchain
  · rfl
  · cases w.matchedTags requiredTags
    · rfl
    · cases best <;> rfl

/-- The workers among which the loop takes one. -/
def candidates (r : NodeRegistry) (it : r.Iteration) (now : ℤ) (toolchain : String)
    (requiredTags : AList fun _ : String => String) : List WorkerNode :=
  (r.listHealthyWorkers it now).filter (·.suitable toolchain requiredTags)

/-- The candidates are the registered healthy suitable workers. -/
theorem mem_candidates {it : r.Iteration} {w : WorkerNode} :
    w ∈ r.candidates it now toolchain requiredTags ↔
      w ∈ r.nodes ∧ r.healthy now w ∧ w.suitable toolchain requiredTags := by
  rw [candidates, listHealthyWorkers, List.mem_filter, List.mem_filter, it.perm.mem_iff, and_assoc]

/-- A selection succeeds with the first candidate that has the fewest active jobs. -/
theorem selectWorkerWithTags_ok {it : r.Iteration} {w : WorkerNode} :
    r.selectWorkerWithTags it now toolchain requiredTags = .ok w ↔
      w ∈ (r.candidates it now toolchain requiredTags).argmin WorkerNode.activeJobs := by
  unfold selectWorkerWithTags candidates
  simp only
  split
  · rename_i hnone
    rw [List.length_eq_zero_iff.mp hnone]
    exact iff_of_false nofun nofun
  · rw [best_eq_argmin]
    split
    · rename_i hnone
      rw [hnone]
      exact iff_of_false nofun nofun
    · rename_i v hsome
      rw [hsome, Option.mem_some_iff]
      exact ⟨fun h => Except.ok.inj h, congrArg Except.ok⟩

/-- A selection is an error if there is no candidate. -/
theorem selectWorkerWithTags_error {it : r.Iteration} :
    (∃ e, r.selectWorkerWithTags it now toolchain requiredTags = .error e) ↔
      r.candidates it now toolchain requiredTags = [] := by
  rw [← List.argmin_eq_none (f := WorkerNode.activeJobs)]
  cases hresult : r.selectWorkerWithTags it now toolchain requiredTags with
  | error e =>
    refine iff_of_true ⟨e, rfl⟩ (Option.eq_none_iff_forall_not_mem.mpr fun w hw => ?_)
    rw [selectWorkerWithTags_ok.mpr hw] at hresult
    cases hresult
  | ok w =>
    refine iff_of_false nofun fun hnone => ?_
    have hw := selectWorkerWithTags_ok.mp hresult
    rw [hnone] at hw
    cases hw

/-! ### The result of a selection -/

/-- The iteration that visits a worker first. -/
def Iteration.visiting {w : WorkerNode} (hmem : w ∈ r.nodes) : r.Iteration :=
  ⟨w :: r.nodes.erase w, (List.perm_cons_erase hmem).symm⟩

/-- A candidate that is visited first is taken, unless another one has fewer active jobs. -/
theorem selectWorkerWithTags_visiting {w v : WorkerNode} (hmem : w ∈ r.nodes)
    (hcandidate : w ∈ r.candidates (.visiting hmem) now toolchain requiredTags)
    (hselect : r.selectWorkerWithTags (.visiting hmem) now toolchain requiredTags = .ok v)
    (hleast : w.activeJobs ≤ v.activeJobs) : v = w := by
  obtain ⟨-, hhealthy, hsuitable⟩ := mem_candidates.mp hcandidate
  have hcandidates : r.candidates (.visiting hmem) now toolchain requiredTags =
      w :: ((r.nodes.erase w).filter (r.healthy now)).filter (·.suitable toolchain requiredTags) := by
    unfold candidates listHealthyWorkers Iteration.visiting
    rw [List.filter_cons_of_pos hhealthy]
    exact List.filter_cons_of_pos hsuitable
  have hfirst := List.index_of_argmin (selectWorkerWithTags_ok.mp hselect) hcandidate hleast
  rw [hcandidates, List.idxOf_cons_self, Nat.le_zero] at hfirst
  by_contra hne
  rw [List.idxOf_cons_ne _ (Ne.symm hne)] at hfirst
  exact absurd hfirst (Nat.succ_ne_zero _)

/-- A worker that is suitable only because its missing tags are read as empty has more active jobs than an eligible one. -/
def Outdone (r : NodeRegistry) (now : ℤ) (toolchain : String) (requiredTags : AList fun _ : String => String) : Prop :=
  ∀ w ∈ r.nodes, r.healthy now w → w.suitable toolchain requiredTags → ¬ w.Carries requiredTags →
    ∃ v, r.Eligible now toolchain requiredTags v ∧ v.activeJobs < w.activeJobs

/-- A candidate is eligible, or has more active jobs than an eligible worker. -/
theorem Outdone.of_candidate (hout : r.Outdone now toolchain requiredTags) {it : r.Iteration} {w : WorkerNode}
    (hw : w ∈ r.candidates it now toolchain requiredTags) :
    r.Eligible now toolchain requiredTags w ∨
      ∃ v, r.Eligible now toolchain requiredTags v ∧ v.activeJobs < w.activeJobs := by
  obtain ⟨hmem, hhealthy, hsuitable⟩ := mem_candidates.mp hw
  by_cases hcarries : w.Carries requiredTags
  · have hsupports := (w.supports_iff toolchain).mp (Bool.and_eq_true_iff.mp hsuitable).1
    exact .inl ⟨hmem, hhealthy, hsupports, hcarries⟩
  · exact .inr (hout w hmem hhealthy hsuitable hcarries)

/-- An eligible worker is a candidate. -/
theorem Eligible.mem_candidates {w : WorkerNode} (h : r.Eligible now toolchain requiredTags w) (it : r.Iteration) :
    w ∈ r.candidates it now toolchain requiredTags :=
  NodeRegistry.mem_candidates.mpr ⟨h.registered, h.healthy, h.suitable⟩

/-- A selection gives an eligible worker with the fewest active jobs when the others are outdone. -/
theorem Outdone.leastLoaded (hout : r.Outdone now toolchain requiredTags) (it : r.Iteration) :
    r.LeastLoaded now toolchain requiredTags (r.selectWorkerWithTags it now toolchain requiredTags) := by
  refine ⟨selectWorkerWithTags_error.trans ⟨fun hnone w hw => ?_, fun hnone => ?_⟩, fun w hw => ?_⟩
  · have hmem := hw.mem_candidates it
    rw [hnone] at hmem
    exact List.not_mem_nil hmem
  · refine List.eq_nil_iff_forall_not_mem.mpr fun w hw => ?_
    obtain heligible | ⟨v, heligible, -⟩ := hout.of_candidate hw
    · exact hnone w heligible
    · exact hnone v heligible
  · have hargmin := selectWorkerWithTags_ok.mp hw
    have hleast : ∀ v, r.Eligible now toolchain requiredTags v → w.activeJobs ≤ v.activeJobs := fun v hv =>
      List.le_of_mem_argmin (hv.mem_candidates it) hargmin
    obtain heligible | ⟨v, heligible, hless⟩ := hout.of_candidate (List.argmin_mem hargmin)
    · exact ⟨heligible, hleast⟩
    · exact absurd hless (not_lt_of_ge (hleast v heligible))

/-- In every order of the visits a selection is an error exactly when no worker is eligible, and
else gives an eligible one with the fewest active jobs, if and only if each worker that is
suitable only by its missing tags has more active jobs than an eligible one. -/
theorem selectWorkerWithTags_leastLoaded_iff (r : NodeRegistry) (now : ℤ) (toolchain : String)
    (requiredTags : AList fun _ : String => String) :
    (∀ it, r.LeastLoaded now toolchain requiredTags (r.selectWorkerWithTags it now toolchain requiredTags)) ↔
      r.Outdone now toolchain requiredTags := by
  refine ⟨fun h w hmem hhealthy hsuitable hlacks => ?_, fun hout it => hout.leastLoaded it⟩
  have hcandidate : w ∈ r.candidates (.visiting hmem) now toolchain requiredTags :=
    mem_candidates.mpr ⟨hmem, hhealthy, hsuitable⟩
  cases hresult : r.selectWorkerWithTags (.visiting hmem) now toolchain requiredTags with
  | error e =>
    rw [selectWorkerWithTags_error.mp ⟨e, hresult⟩] at hcandidate
    exact absurd hcandidate List.not_mem_nil
  | ok v =>
    have hv := ((h _).2 v hresult).1
    refine ⟨v, hv, Int.not_le.mp fun hleast => hlacks ?_⟩
    -- A worker with as few active jobs as the selected one is selected when it is visited first.
    rw [← selectWorkerWithTags_visiting hmem hcandidate hresult hleast]
    exact hv.carries

/-- A healthy worker without tags. -/
def untagged : NodeRegistry := ⟨AList.singleton "a" ⟨"a", ["go"], ∅, 0, 0⟩, 30⟩

/-- A worker without the tag is selected when the required value is empty. -/
theorem selectWorkerWithTags_not_leastLoaded :
    ¬ ∀ (r : NodeRegistry) (it : r.Iteration) (now : ℤ) (toolchain : String)
      (requiredTags : AList fun _ : String => String),
      r.LeastLoaded now toolchain requiredTags (r.selectWorkerWithTags it now toolchain requiredTags) := by
  intro h
  have hok : untagged.selectWorkerWithTags ⟨untagged.nodes, .refl _⟩ 0 "go" (AList.singleton "zone" "") =
      .ok ⟨"a", ["go"], ∅, 0, 0⟩ := by rfl
  have hcarries := ((h untagged ⟨untagged.nodes, .refl _⟩ 0 "go" (AList.singleton "zone" "")).2 _ hok).1.carries
  exact absurd (hcarries "zone" "" rfl) (by decide)

end NodeRegistry

end Forge.Coordinator
