import Forge.Common.Concatenations
import Forge.Common.Unfoldings
import Forge.Plugin.TaskGraph

/-!
# What the fingerprint of a rule tells

The fingerprint of a rule is that of what is hashed for it, and of the fingerprints of its
dependencies in any order. What is hashed runs together: the name, the command, the
arguments, the environment and the contents of the inputs stand one behind the other, with
nothing between them, and neither the patterns of the inputs nor the names of directories
are among them. So rules can be alike that are not the same.
-/

namespace Forge.Plugin

open Relation Forge.Common Forge.Graph Forge.Graph.BuildGraph Forge.Fingerprint Forge.Executor Forge.Backend

/-- A file that an input pattern of a rule names, with its path below what the pattern leads to, and its
content. -/
def NamedFile (files : PluginFiles) (rule : RuleSpec) (pattern : String) (rel : Path) (content : Bytes) : Prop :=
  pattern ∈ rule.inputs ∧ isFile (files.target pattern) rel = some content

/-- Two rules do the same with the same files. -/
structure SameRule (files files' : PluginFiles) (rule rule' : RuleSpec) : Prop where
  command : rule.command = rule'.command
  args : rule.args = rule'.args
  env : rule.env = rule'.env
  inputs : ∀ pattern rel content, NamedFile files rule pattern rel content ↔ NamedFile files' rule' pattern rel content

/-- A rule of a manifest on which a rule depends, over others or not. -/
def Upstream (manifest : PluginRulesManifest) (rule dep : RuleSpec) : Prop :=
  dep ∈ manifest.rules ∧ TransGen (Needs manifest) dep.name rule.name

/-- Two rules do the same, and so do the rules on which they depend, by their names. -/
structure SameUpstream (files files' : PluginFiles) (manifest manifest' : PluginRulesManifest) (rule rule' : RuleSpec) :
    Prop where
  same : SameRule files files' rule rule'
  left : ∀ dep, Upstream manifest rule dep →
    ∃ dep', Upstream manifest' rule' dep' ∧ dep.name = dep'.name ∧ SameRule files files' dep dep'
  right : ∀ dep', Upstream manifest' rule' dep' →
    ∃ dep, Upstream manifest rule dep ∧ dep.name = dep'.name ∧ SameRule files files' dep dep'

/-- The task of a rule in a graph, the one with its key. -/
def TaskOf (hash : Bytes → String) (root : String) (g : BuildGraph Task) (rule : RuleSpec) (task : Task) : Prop :=
  task ∈ g.nodes.map (·.payload) ∧ ∃ fp, task.cache = some ⟨ruleKey hash root rule, fp⟩

/-- Tasks of two graphs with the same key and fingerprint are those of rules that do the same. -/
def FingerprintsSound (hash : Bytes → String) (root : String) (files files' : PluginFiles)
    (manifest manifest' : PluginRulesManifest) (g g' : BuildGraph Task) : Prop :=
  ∀ rule ∈ manifest.rules, ∀ rule' ∈ manifest'.rules, ∀ task task',
    TaskOf hash root g rule task → TaskOf hash root g' rule' task' → task.cache = task'.cache →
      SameUpstream files files' manifest manifest' rule rule'

/-- The rules that a rule lists, by their names. -/
def listed (manifest : PluginRulesManifest) (rule : RuleSpec) : List RuleSpec :=
  rule.dependsOn.filterMap fun dep => manifest.rules.find? (·.name = dep)

/-- What is hashed for a rule with what is hashed for the rules that it lists. -/
def memberText (hash : Bytes → String) (text : Bytes) (texts : List Bytes) : Bytes :=
  utf8Bytes (hash text) ++ (sortStrings (texts.map hash)).flatMap utf8Bytes

/-! ## Fingerprints that are the same -/

section Fingerprints

variable {hash : Bytes → String} {files files' : PluginFiles} {manifest manifest' : PluginRulesManifest} {root : String}

/-- What is hashed with further hashes is told, and so are these up to their order. -/
theorem memberText_eq_iff (hfree : PrefixFree hash) (text text' : Bytes) (texts texts' : List Bytes) :
    memberText hash text texts = memberText hash text' texts' ↔ text = text' ∧ texts.Perm texts' := by
  constructor
  · intro h
    have hnonempty : ∀ text, utf8Bytes (hash text) ≠ [] := by
      intro text hnil
      have hone : text = [0] := hfree text [0] (hnil ▸ List.nil_prefix)
      have htwo : text = [1] := hfree text [1] (hnil ▸ List.nil_prefix)
      exact absurd (hone.symm.trans htwo) (by decide)
    have hwords : ∀ {text : Bytes} {texts : List Bytes},
        ∀ word ∈ (hash text :: sortStrings (texts.map hash)).map utf8Bytes, ∃ text, utf8Bytes (hash text) = word := by
      intro text texts word hword
      obtain ⟨fp, hfp, rfl⟩ := List.mem_map.mp hword
      rcases List.mem_cons.mp hfp with rfl | hfp
      · exact ⟨text, rfl⟩
      · obtain ⟨text, -, rfl⟩ := List.mem_map.mp ((sortStrings_perm _).mem_iff.mp hfp)
        exact ⟨text, rfl⟩
    have hsame : (hash text :: sortStrings (texts.map hash)).map utf8Bytes =
        (hash text' :: sortStrings (texts'.map hash)).map utf8Bytes := by
      refine eq_of_flatten_eq (fun word hword => ?_) (fun word hword => ?_) (fun word hword word' hword' h => ?_) ?_
      · obtain ⟨text, rfl⟩ := hwords word hword
        exact hnonempty text
      · obtain ⟨text, rfl⟩ := hwords word hword
        exact hnonempty text
      · obtain ⟨text, rfl⟩ := hwords word hword
        obtain ⟨text', rfl⟩ := hwords word' hword'
        rcases h with h | h
        · rw [hfree text text' h]
        · rw [hfree text' text h]
      · rw [List.map_cons, List.map_cons, List.flatten_cons, List.flatten_cons, ← List.flatMap_def, ← List.flatMap_def]
        exact h
    obtain ⟨hhash, hsorted⟩ := List.cons.inj (List.map_injective_iff.mpr utf8Bytes_injective hsame)
    exact ⟨hfree.injective hhash, (List.map_perm_map_iff hfree.injective).mp (sortStrings_eq_iff.mp hsorted)⟩
  · rintro ⟨rfl, hperm⟩
    rw [memberText, memberText, sortStrings_eq_iff.mpr (hperm.map hash)]

/-- A rule that is listed is one of the manifest, and its name is on the list. -/
theorem mem_listed {rule dep : RuleSpec} (hdep : dep ∈ listed manifest rule) :
    dep ∈ manifest.rules ∧ dep.name ∈ rule.dependsOn := by
  obtain ⟨name, hname, hfind⟩ := List.mem_filterMap.mp hdep
  obtain rfl : dep.name = name := by simpa using List.find?_some hfind
  exact ⟨List.mem_of_find?_eq_some hfind, hname⟩

/-- Listed rules are found by their names. -/
theorem listed_eq (hunique : (manifest.rules.map (·.name)).Nodup) {rule : RuleSpec} {members : List RuleSpec}
    (hmem : ∀ member ∈ members, member ∈ manifest.rules) (hnames : members.map (·.name) = rule.dependsOn) :
    listed manifest rule = members := by
  have hfind : ∀ member ∈ members, manifest.rules.find? (·.name = member.name) = some member := by
    intro member hmember
    cases hfound : manifest.rules.find? (·.name = member.name) with
    | none => exact absurd (decide_eq_true rfl) (List.find?_eq_none.mp hfound member (hmem member hmember))
    | some other =>
      have hnamed : other.name = member.name := by simpa using List.find?_some hfound
      rw [List.inj_on_of_nodup_map hunique (List.mem_of_find?_eq_some hfound) (hmem member hmember) hnamed]
  rw [listed, ← hnames, List.filterMap_map]
  exact (List.filterMap_congr hfind).trans List.filterMap_some

/-- Rules that can be put in order list each other without a cycle. -/
theorem Consistent.listed_wf (hc : Consistent manifest) : WellFounded fun dep rule => dep ∈ listed manifest rule := by
  have hwf := hc.needs_wf
  have hacc : ∀ name, ∀ rule ∈ manifest.rules, rule.name = name → Acc (fun dep rule => dep ∈ listed manifest rule) rule := by
    intro name
    induction name using hwf.induction with
    | _ name ih =>
      rintro rule hrule rfl
      refine Acc.intro rule fun dep hdep => ?_
      obtain ⟨hmem, hlists⟩ := mem_listed hdep
      exact ih dep.name ⟨rule, hrule, rfl, hlists⟩ dep hmem rfl
  exact ⟨fun rule => Acc.intro rule fun dep hdep => hacc dep.name dep (mem_listed hdep).1 rfl⟩

/-- What is hashed in the end for a rule. -/
noncomputable def foldedText (hash : Bytes → String) (files : PluginFiles) (hc : Consistent manifest) : RuleSpec → Bytes :=
  combined (ruleText files) (listed manifest) (memberText hash) hc.listed_wf

/-- A fingerprint is the hash of what is hashed in the end. -/
theorem HasFingerprint.eq_hash (hc : Consistent manifest) {rule : RuleSpec} {fp : String}
    (h : HasFingerprint hash files manifest rule fp) : fp = hash (foldedText hash files hc rule) := by
  induction h with
  | @mk rule members hnames hmem hfps ih =>
    have hlisted : listed manifest rule = members.map Prod.fst := by
      refine listed_eq hc.nodup (fun member hmember => ?_) (by rw [← hnames, List.map_map]; rfl)
      obtain ⟨found, hfound, rfl⟩ := List.mem_map.mp hmember
      exact hmem found hfound
    have hvalues : members.map Prod.snd = ((listed manifest rule).map (foldedText hash files hc)).map hash := by
      rw [hlisted, List.map_map, List.map_map]
      exact List.map_congr_left ih
    rw [foldedText, combined_eq, ← foldedText, hvalues]
    rfl

/-- Rules have the same fingerprint exactly when they look alike. -/
theorem foldedText_eq_iff (hfree : PrefixFree hash) (hc : Consistent manifest) (hc' : Consistent manifest')
    {rule rule' : RuleSpec} (hrule : rule ∈ manifest.rules) (hrule' : rule' ∈ manifest'.rules) :
    foldedText hash files hc rule = foldedText hash files' hc' rule' ↔
      Alike (ruleText files) (listed manifest) (ruleText files') (listed manifest') rule rule' := by
  have hvalue : ∀ {files : PluginFiles} {manifest : PluginRulesManifest} (hc : Consistent manifest),
      ∀ rule ∈ manifest.rules, foldedText hash files hc rule =
        memberText hash (ruleText files rule) ((listed manifest rule).map (foldedText hash files hc)) :=
    fun hc rule _ => combined_eq _ _ _ hc.listed_wf rule
  exact alike_iff (memberText_eq_iff hfree) hc.listed_wf (hvalue hc) (hvalue hc') (fun _ _ _ hdep => (mem_listed hdep).1)
    (fun _ _ _ hdep => (mem_listed hdep).1) hrule hrule'

/-- Names tell keys. -/
theorem ruleKey_eq_iff {rule rule' : RuleSpec} : ruleKey hash root rule = ruleKey hash root rule' ↔ rule.name = rule'.name := by
  constructor
  · intro h
    have hchars := congrArg String.toList h
    simp only [ruleKey, String.toList_append, List.append_assoc, List.append_cancel_left_eq] at hchars
    exact String.toList_injective hchars
  · intro h
    rw [ruleKey, h, ruleKey]

/-- Where there is a graph, the rules can be put in order. -/
theorem consistent_of_ok {g : BuildGraph Task} (hok : buildTaskGraph hash files manifest root = .returned (.ok g)) :
    Consistent manifest := by
  rcases buildTaskGraph_cases hash files manifest root with
    ⟨-, hend⟩ | ⟨-, message, hend⟩ | ⟨order, state, g', htaken, hdone, -, -, -⟩
  · exact absurd (hok.symm.trans hend) nofun
  · exact absurd (hok.symm.trans hend) nofun
  · exact htaken.consistent hdone

/-- The task of a rule has the hash of what is hashed in the end. -/
theorem taskOf_iff {g : BuildGraph Task} (hok : buildTaskGraph hash files manifest root = .returned (.ok g))
    (hc : Consistent manifest) {rule : RuleSpec} (hrule : rule ∈ manifest.rules) (task : Task) :
    TaskOf hash root g rule task ↔ task = ruleTask hash manifest root rule (hash (foldedText hash files hc rule)) := by
  rcases buildTaskGraph_cases hash files manifest root with
    ⟨-, hend⟩ | ⟨-, message, hend⟩ | ⟨order, state, g', htaken, hdone, hrealizes, hnodes, hend⟩
  · exact absurd (hok.symm.trans hend) nofun
  · exact absurd (hok.symm.trans hend) nofun
  obtain rfl := Except.ok.inj (BuildOutcome.returned.inj (hok.symm.trans hend))
  have htasks := htaken.tasks
  unfold TaskOf
  rw [← hnodes] at htasks
  constructor
  · rintro ⟨hmem, fp, hcache⟩
    obtain ⟨other, hother, fp', hfp, rfl⟩ := exists_of_forall₂_mem htasks.flip hmem
    obtain ⟨hkey, -⟩ := CacheEntry.mk.inj (Option.some.inj hcache)
    obtain rfl := List.inj_on_of_nodup_map hc.nodup (htaken.subset other hother) hrule (ruleKey_eq_iff.mp hkey)
    rw [hfp.eq_hash hc]
  · rintro rfl
    obtain ⟨task, htask, fp, hfp, rfl⟩ := exists_of_forall₂_mem htasks (hrealizes.perm.mem_iff.mpr hrule)
    rw [hfp.eq_hash hc] at htask
    exact ⟨htask, _, rfl⟩

/-- Tasks tell what their rules do exactly when rules of one name that look alike do the same: when the same is
hashed for them, one thing behind the other, and so for the rules that they list, in some order. -/
theorem fingerprintsSound_iff (hash : Bytes → String) (hfree : PrefixFree hash) (root : String) (files files' : PluginFiles)
    (manifest manifest' : PluginRulesManifest) (g g' : BuildGraph Task)
    (hok : buildTaskGraph hash files manifest root = .returned (.ok g))
    (hok' : buildTaskGraph hash files' manifest' root = .returned (.ok g')) :
    FingerprintsSound hash root files files' manifest manifest' g g' ↔
      ∀ rule ∈ manifest.rules, ∀ rule' ∈ manifest'.rules, rule.name = rule'.name →
        Alike (ruleText files) (listed manifest) (ruleText files') (listed manifest') rule rule' →
          SameUpstream files files' manifest manifest' rule rule' := by
  have hc := consistent_of_ok hok
  have hc' := consistent_of_ok hok'
  refine forall₂_congr fun rule hrule => forall₂_congr fun rule' hrule' => ?_
  have hcache : (ruleTask hash manifest root rule (hash (foldedText hash files hc rule))).cache =
      (ruleTask hash manifest' root rule' (hash (foldedText hash files' hc' rule'))).cache ↔ rule.name = rule'.name ∧
        Alike (ruleText files) (listed manifest) (ruleText files') (listed manifest') rule rule' := by
    rw [← foldedText_eq_iff hfree hc hc' hrule hrule', ← hfree.injective.eq_iff, ← @ruleKey_eq_iff hash root]
    simp only [ruleTask, Option.some.injEq, CacheEntry.mk.injEq]
  constructor
  · intro hsound hname halike
    exact hsound _ _ ((taskOf_iff hok hc hrule _).mpr rfl) ((taskOf_iff hok' hc' hrule' _).mpr rfl)
      (hcache.mpr ⟨hname, halike⟩)
  · intro hsame task task' htask htask' heq
    rw [(taskOf_iff hok hc hrule task).mp htask, (taskOf_iff hok' hc' hrule' task').mp htask', hcache] at heq
    exact hsame heq.1 heq.2

/-- A rule does the same as itself. -/
theorem SameUpstream.refl (files : PluginFiles) (manifest : PluginRulesManifest) (rule : RuleSpec) :
    SameUpstream files files manifest manifest rule rule := by
  have hsame : ∀ rule, SameRule files files rule rule := fun rule => ⟨rfl, rfl, rfl, fun _ _ _ => Iff.rfl⟩
  exact ⟨hsame rule, fun dep hdep => ⟨dep, hdep, rfl, hsame dep⟩, fun dep hdep => ⟨dep, hdep, rfl, hsame dep⟩⟩

end Fingerprints

/-- There is a graph of the two rules that run a script, and its tasks tell what the rules do. -/
theorem fingerprintsSound_customEngine :
    ∃ g, buildTaskGraph (digestOf customEngineDigests) noFiles customEngine "/ws" = .returned (.ok g) ∧
      FingerprintsSound (digestOf customEngineDigests) "/ws" noFiles noFiles customEngine customEngine g g := by
  obtain ⟨g, hok⟩ := exists_buildTaskGraph (digestOf customEngineDigests) noFiles "/ws" customEngine_consistent
    fun rule _ pattern _ => rfl
  refine ⟨g, hok, ?_⟩
  rw [fingerprintsSound_iff (digestOf customEngineDigests) (digestOf_prefixFree _) "/ws" noFiles noFiles customEngine
    customEngine g g hok hok]
  intro rule hrule rule' hrule' hname _
  obtain rfl := List.inj_on_of_nodup_map customEngine_consistent.nodup hrule hrule' hname
  exact .refl _ _ _

/-- A rule that prints its arguments. -/
def printRule (args : List String) : RuleSpec := ⟨"gen", "printf", args, [], [], [], ⟨[], StringMap.sorted_nil⟩⟩

/-- A manifest with this rule. -/
def printing (args : List String) : PluginRulesManifest := ⟨"", [printRule args]⟩

/-- This rule depends on no other one. -/
theorem printing_consistent (args : List String) : Consistent (printing args) := by
  have hnone : ∀ rule ∈ (printing args).rules, rule.dependsOn = [] := by
    intro rule hrule
    rw [List.mem_singleton.mp hrule]
    rfl
  refine ⟨List.nodup_singleton _, fun rule hrule dep hdep => ?_, fun name hcycle => ?_⟩
  · rw [hnone rule hrule] at hdep
    exact absurd hdep List.not_mem_nil
  · obtain ⟨next, ⟨rule, hrule, -, hdep⟩, -⟩ := TransGen.head'_iff.mp hcycle
    rw [hnone rule hrule] at hdep
    exact absurd hdep List.not_mem_nil

/-- The values that are hashed for such a manifest. -/
def printingDigests : Digests where
  known := [
    (utf8Bytes "/ws", "3da3aac414e1e666067db9238d67ee514abc1b10d25ef183e925691b993d355a"),
    (utf8Bytes "genprintfabcall_sources", "4204bee4e8ededc77ce59702b4b41d202b6e558b45f0e272764fcd5d8130cf48"),
    (utf8Bytes "4204bee4e8ededc77ce59702b4b41d202b6e558b45f0e272764fcd5d8130cf48",
      "e461485143c59ded5a8d9b66b263082f2bb5801c7c35eefce76118b5648a37f1")]
  values_nodup := by decide +kernel
  length_eq := by decide +kernel
  nonzero := by decide +kernel

/-- A rule that prints `ab` and `c` and one that prints `a` and `bc` have tasks with the same key and
fingerprint. -/
theorem not_fingerprintsSound_printing :
    ∃ g g', buildTaskGraph (digestOf printingDigests) noFiles (printing ["ab", "c"]) "/ws" = .returned (.ok g) ∧
      buildTaskGraph (digestOf printingDigests) noFiles (printing ["a", "bc"]) "/ws" = .returned (.ok g') ∧
      ¬ FingerprintsSound (digestOf printingDigests) "/ws" noFiles noFiles (printing ["ab", "c"]) (printing ["a", "bc"])
        g g' := by
  have hok : ∀ args, ∃ g, buildTaskGraph (digestOf printingDigests) noFiles (printing args) "/ws" = .returned (.ok g) :=
    fun args => exists_buildTaskGraph _ noFiles "/ws" (printing_consistent args) fun rule _ pattern _ => rfl
  obtain ⟨g, hg⟩ := hok ["ab", "c"]
  obtain ⟨g', hg'⟩ := hok ["a", "bc"]
  refine ⟨g, g', hg, hg', fun hsound => ?_⟩
  have halike : Alike (ruleText noFiles) (listed (printing ["ab", "c"])) (ruleText noFiles) (listed (printing ["a", "bc"]))
      (printRule ["ab", "c"]) (printRule ["a", "bc"]) := .intro (by decide) [] .nil .nil
  have hrule : ∀ args, printRule args ∈ (printing args).rules := fun args => List.mem_singleton_self _
  have htask := (taskOf_iff hg (printing_consistent _) (hrule _) _).mpr rfl
  have htask' := (taskOf_iff hg' (printing_consistent _) (hrule _) _).mpr rfl
  have hfolded := (foldedText_eq_iff (digestOf_prefixFree printingDigests) (printing_consistent _) (printing_consistent _)
    (hrule _) (hrule _)).mpr halike
  have hsame := hsound _ (hrule _) _ (hrule _) _ _ htask htask' (by rw [hfolded]; rfl)
  exact absurd hsame.same.args (by decide)

end Forge.Plugin
