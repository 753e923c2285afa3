import Forge.Common.Reachability
import Mathlib.Data.Finset.Basic
import Mathlib.Data.Set.Finite.Basic

/-!
# Scans that follow what they find

A scan takes items from the front of a list. An item leads to a key or nowhere, or it makes the
scan fail. A key that is met for the first time is expanded, and the items behind it come in
front of the others, unless it makes the scan fail. A scan ends without a failure exactly when
its items reach finitely many keys and nothing that is met fails, and then it has expanded what
is reached, each key once.
-/

namespace Forge.Common

open Relation

/-- What a scan makes of its items and its keys. -/
structure Scanner (ι κ ε : Type*) where
  look : ι → Except ε (Option κ)
  expand : κ → Except ε (List ι)

namespace Scanner

variable {ι κ ε : Type*} [DecidableEq κ] (m : Scanner ι κ ε)

/-- Scan items. The keys that are expanded are listed, the first one in front. -/
def scan : ℕ → List ι → List κ → Option (Except ε (List κ))
  | _, [], _ => some (.ok [])
  | 0, _ :: _, _ => none
  | fuel + 1, item :: pending, visited =>
    match m.look item with
    | .error e => some (.error e)
    | .ok none => scan fuel pending visited
    | .ok (some k) =>
      if k ∈ visited then scan fuel pending visited
      else
        match m.expand k with
        | .error e => some (.error e)
        | .ok items => (scan fuel (items ++ pending) (k :: visited)).map (Except.map (k :: ·))

/-- The items behind a key. -/
def behind (k : κ) : List ι :=
  match m.expand k with
  | .ok items => items
  | .error _ => []

/-- From one key to the key of an item behind it. -/
def Leads (k k' : κ) : Prop := ∃ item ∈ m.behind k, m.look item = .ok (some k')

/-- The keys of items. -/
def entries (items : List ι) : Set κ := {k | ∃ item ∈ items, m.look item = .ok (some k)}

/-- The keys that items reach. -/
def reached (items : List ι) : Set κ := reachSet m.Leads (m.entries items)

/-- None of the items makes a scan fail. -/
def Fine (items : List ι) : Prop := ∀ item ∈ items, ∃ found, m.look item = .ok found

/-- Neither a key nor the items behind it make a scan fail. -/
def Opens (k : κ) : Prop := ∃ items, m.expand k = .ok items ∧ m.Fine items

variable {m} {fuel : ℕ} {items pending : List ι} {item : ι} {visited keys : List κ} {k : κ} {roots : Set κ}

omit [DecidableEq κ] in
/-- The keys of two lists of items. -/
theorem entries_append (items pending : List ι) : m.entries (items ++ pending) = m.entries items ∪ m.entries pending := by
  ext k
  simp only [entries, Set.mem_ofPred_eq, Set.mem_union, List.mem_append, or_and_right, exists_or]

omit [DecidableEq κ] in
/-- An item that leads nowhere has no key. -/
theorem entries_cons_none (hlook : m.look item = .ok none) : m.entries (item :: pending) = m.entries pending := by
  ext k
  simp [entries, hlook]

omit [DecidableEq κ] in
/-- The key of an item is one of the keys. -/
theorem entries_cons_some (hlook : m.look item = .ok (some k)) :
    m.entries (item :: pending) = insert k (m.entries pending) := by
  ext k'
  simp [entries, hlook, eq_comm]

omit [DecidableEq κ] in
/-- The keys that come behind a key. -/
theorem leads_iff {k' : κ} (hexpand : m.expand k = .ok items) : m.Leads k k' ↔ k' ∈ m.entries items := by
  simp only [Leads, behind, hexpand, entries, Set.mem_ofPred_eq]

/-- An item that makes the scan fail. -/
theorem scan_fail {e : ε} (hlook : m.look item = .error e) :
    m.scan (fuel + 1) (item :: pending) visited = some (.error e) := by
  simp only [scan, hlook]

/-- An item that leads nowhere is passed over. -/
theorem scan_nowhere (hlook : m.look item = .ok none) :
    m.scan (fuel + 1) (item :: pending) visited = m.scan fuel pending visited := by
  simp only [scan, hlook]

/-- An item whose key was met before is passed over. -/
theorem scan_visited (hlook : m.look item = .ok (some k)) (hk : k ∈ visited) :
    m.scan (fuel + 1) (item :: pending) visited = m.scan fuel pending visited := by
  simp only [scan, hlook, if_pos hk]

/-- A key that makes the scan fail. -/
theorem scan_closed {e : ε} (hlook : m.look item = .ok (some k)) (hk : k ∉ visited) (hexpand : m.expand k = .error e) :
    m.scan (fuel + 1) (item :: pending) visited = some (.error e) := by
  simp only [scan, hlook, if_neg hk, hexpand]

/-- A key that is met for the first time is expanded. -/
theorem scan_new (hlook : m.look item = .ok (some k)) (hk : k ∉ visited) (hexpand : m.expand k = .ok items) :
    m.scan (fuel + 1) (item :: pending) visited =
      (m.scan fuel (items ++ pending) (k :: visited)).map (Except.map (k :: ·)) := by
  simp only [scan, hlook, if_neg hk, hexpand]

omit [DecidableEq κ] in
/-- What a scan can do with an item. -/
theorem look_cases (m : Scanner ι κ ε) (item : ι) (visited : List κ) :
    (∃ e, m.look item = .error e) ∨ m.look item = .ok none ∨
      ∃ k, m.look item = .ok (some k) ∧
        (k ∈ visited ∨ k ∉ visited ∧ ((∃ e, m.expand k = .error e) ∨ ∃ items, m.expand k = .ok items)) := by
  rcases hlook : m.look item with e | (_ | k)
  · exact .inl ⟨e, rfl⟩
  · exact .inr (.inl rfl)
  · refine .inr (.inr ⟨k, rfl, ?_⟩)
    by_cases hk : k ∈ visited
    · exact .inl hk
    · rcases hexpand : m.expand k with e | items
      · exact .inr ⟨hk, .inl ⟨e, rfl⟩⟩
      · exact .inr ⟨hk, .inr ⟨items, rfl⟩⟩

/-- A scan that ended does not need more steps. -/
theorem scan_mono {fuel' : ℕ} (hle : fuel ≤ fuel') {result : Except ε (List κ)}
    (h : m.scan fuel pending visited = some result) : m.scan fuel' pending visited = some result := by
  induction fuel generalizing fuel' pending visited result with
  | zero =>
    cases pending with
    | nil => rwa [scan] at h ⊢
    | cons item pending => exact absurd h nofun
  | succ fuel ih =>
    obtain ⟨more, rfl⟩ : ∃ more, fuel' = more + 1 := ⟨fuel' - 1, by omega⟩
    have hmore : fuel ≤ more := by omega
    cases pending with
    | nil => exact h
    | cons item pending =>
      obtain ⟨e, hlook⟩ | hlook | ⟨k, hlook, hk | ⟨hk, ⟨e, hexpand⟩ | ⟨items, hexpand⟩⟩⟩ := m.look_cases item visited
      · rwa [scan_fail hlook] at h ⊢
      · rw [scan_nowhere hlook] at h ⊢
        exact ih hmore h
      · rw [scan_visited hlook hk] at h ⊢
        exact ih hmore h
      · rwa [scan_closed hlook hk hexpand] at h ⊢
      · rw [scan_new hlook hk hexpand] at h ⊢
        obtain ⟨rest, hrest, rfl⟩ := Option.map_eq_some_iff.mp h
        exact Option.map_eq_some_iff.mpr ⟨rest, ih hmore hrest, rfl⟩

/-- Two scans of the same items end alike. -/
theorem scan_det {fuel' : ℕ} {result result' : Except ε (List κ)} (h : m.scan fuel pending visited = some result)
    (h' : m.scan fuel' pending visited = some result') : result = result' := by
  have hmax := scan_mono (le_max_left fuel fuel') h
  rw [scan_mono (le_max_right fuel fuel') h'] at hmax
  exact (Option.some.inj hmax).symm

/-- What a scan has done when it ended without a failure: the search is complete, each key was
expanded once, and nothing failed. -/
structure Ended (m : Scanner ι κ ε) (roots : Set κ) (pending : List ι) (visited keys : List κ) : Prop where
  frontier : Frontier m.Leads roots {k | k ∈ visited ++ keys} ∅
  nodup : keys.Nodup
  new : ∀ k ∈ keys, k ∉ visited
  fine : m.Fine pending
  opens : ∀ k ∈ keys, m.Opens k

/-- A scan that ends without a failure has done its work. -/
theorem ended_of_scan (hfrontier : Frontier m.Leads roots {k | k ∈ visited} (m.entries pending))
    (h : m.scan fuel pending visited = some (.ok keys)) : m.Ended roots pending visited keys := by
  induction fuel generalizing pending visited keys with
  | zero =>
    cases pending with
    | nil =>
      obtain rfl : [] = keys := by simpa [scan] using h
      refine ⟨?_, List.nodup_nil, fun _ hk => absurd hk List.not_mem_nil, fun _ hitem => absurd hitem List.not_mem_nil,
        fun _ hk => absurd hk List.not_mem_nil⟩
      have hnone : m.entries [] = ∅ := by simp [entries]
      rwa [hnone, ← List.append_nil visited] at hfrontier
    | cons item pending => exact absurd h nofun
  | succ fuel ih =>
    cases pending with
    | nil => exact ih hfrontier (by rwa [scan] at h ⊢)
    | cons item pending =>
      obtain ⟨e, hlook⟩ | hlook | ⟨k, hlook, hk | ⟨hk, ⟨e, hexpand⟩ | ⟨items, hexpand⟩⟩⟩ := m.look_cases item visited
      · rw [scan_fail hlook] at h
        cases h
      · rw [scan_nowhere hlook] at h
        rw [entries_cons_none hlook] at hfrontier
        have hend := ih hfrontier h
        exact { hend with fine := List.forall_mem_cons.mpr ⟨⟨none, hlook⟩, hend.fine⟩ }
      · rw [scan_visited hlook hk] at h
        rw [entries_cons_some hlook] at hfrontier
        have hend := ih (hfrontier.advance ?_ ?_ ?_) h
        · exact { hend with fine := List.forall_mem_cons.mpr ⟨⟨some k, hlook⟩, hend.fine⟩ }
        · rintro a (ha | rfl | ha)
          · exact .inl ha
          · exact .inl hk
          · exact .inr ha
        · rintro a (ha | ha)
          · exact .inl (.inl ha)
          · exact .inl (.inr (.inr ha))
        · exact fun a ha hnot => absurd ha hnot
      · rw [scan_closed hlook hk hexpand] at h
        cases h
      · rw [scan_new hlook hk hexpand] at h
        rw [entries_cons_some hlook] at hfrontier
        obtain ⟨result, hresult, hkeys⟩ := Option.map_eq_some_iff.mp h
        cases result with
        | error e => cases hkeys
        | ok rest =>
          obtain rfl := Except.ok.inj hkeys
          have hend := ih (hfrontier.advance ?_ ?_ ?_) hresult
          · refine ⟨?_, List.nodup_cons.mpr ⟨?_, hend.nodup⟩, ?_, ?_, ?_⟩
            · have hsame : {a | a ∈ k :: visited ++ rest} = {a | a ∈ visited ++ k :: rest} := by
                ext a
                exact List.perm_middle.symm.mem_iff
              rw [← hsame]
              exact hend.frontier
            · exact fun hrest => hend.new k hrest List.mem_cons_self
            · exact List.forall_mem_cons.mpr ⟨hk, fun a ha hvisited => hend.new a ha (List.mem_cons_of_mem _ hvisited)⟩
            · refine List.forall_mem_cons.mpr ⟨⟨some k, hlook⟩, fun other hother => ?_⟩
              exact hend.fine other (List.mem_append_right _ hother)
            · refine List.forall_mem_cons.mpr ⟨⟨items, hexpand, fun other hother => ?_⟩, hend.opens⟩
              exact hend.fine other (List.mem_append_left _ hother)
          · rw [entries_append]
            rintro a (ha | rfl | ha)
            · exact .inl (List.mem_cons_of_mem _ ha)
            · exact .inl List.mem_cons_self
            · exact .inr (.inr ha)
          · rw [entries_append]
            rintro a (ha | ha | ha)
            · rcases List.mem_cons.mp ha with rfl | ha
              · exact .inl (.inr (.inl rfl))
              · exact .inl (.inl ha)
            · exact .inr ⟨k, .inr (.inl rfl), (leads_iff hexpand).mpr ha⟩
            · exact .inl (.inr (.inr ha))
          · intro a ha hnot b hab
            obtain rfl : a = k := (List.mem_cons.mp ha).resolve_right hnot
            rw [entries_append]
            exact .inr (.inl ((leads_iff hexpand).mp hab))

/-- A scan ends without a failure if it stays in a finite set of keys in which nothing fails. -/
theorem exists_scan {carrier : Finset κ} (hopens : ∀ k ∈ carrier, m.Opens k)
    (hclosed : ∀ k ∈ carrier, ∀ k', m.Leads k k' → k' ∈ carrier) (hfine : m.Fine pending)
    (hpending : ∀ k ∈ m.entries pending, k ∈ carrier) :
    ∃ fuel keys, m.scan fuel pending visited = some (.ok keys) := by
  -- The outer induction is on the keys that were not met, the inner one on the items.
  generalize hsize : (carrier.filter fun k => k ∉ visited).card = size
  induction size using Nat.strong_induction_on generalizing pending visited with
  | _ size ihSize =>
    induction pending with
    | nil => exact ⟨0, [], rfl⟩
    | cons item pending ihPending =>
      obtain ⟨⟨found, hfound⟩, hrest⟩ := List.forall_mem_cons.mp hfine
      obtain ⟨e, hlook⟩ | hlook | ⟨k, hlook, hcases⟩ := m.look_cases item visited
      · rw [hfound] at hlook
        cases hlook
      · rw [entries_cons_none hlook] at hpending
        obtain ⟨fuel, keys, hscan⟩ := ihPending hrest hpending
        exact ⟨fuel + 1, keys, (scan_nowhere hlook).trans hscan⟩
      · rw [entries_cons_some hlook] at hpending
        have hothers : ∀ k' ∈ m.entries pending, k' ∈ carrier := fun k' hk' => hpending k' (.inr hk')
        have hcarrier : k ∈ carrier := hpending k (.inl rfl)
        obtain ⟨items, hexpand, hitems⟩ := hopens k hcarrier
        by_cases hk : k ∈ visited
        · obtain ⟨fuel, keys, hscan⟩ := ihPending hrest hothers
          exact ⟨fuel + 1, keys, (scan_visited hlook hk).trans hscan⟩
        · have hless : (carrier.filter fun a => a ∉ k :: visited).card < size := by
            rw [← hsize]
            refine Finset.card_lt_card (Finset.ssubset_iff_of_subset ?_ |>.mpr ⟨k, ?_, ?_⟩)
            · intro a ha
              rw [Finset.mem_filter] at ha ⊢
              exact ⟨ha.1, fun hvisited => ha.2 (List.mem_cons_of_mem _ hvisited)⟩
            · exact Finset.mem_filter.mpr ⟨hcarrier, hk⟩
            · exact fun h => (Finset.mem_filter.mp h).2 List.mem_cons_self
          obtain ⟨fuel, keys, hscan⟩ := @ihSize _ hless (items ++ pending) (k :: visited)
            (List.forall_mem_append.mpr ⟨hitems, hrest⟩) (fun k' hk' => by
              rw [entries_append] at hk'
              exact hk'.elim (fun h => hclosed k hcarrier k' ((leads_iff hexpand).mpr h)) (hothers k')) rfl
          refine ⟨fuel + 1, k :: keys, ?_⟩
          rw [scan_new hlook hk hexpand, hscan]
          rfl

/-- A scan that starts with items and ends without a failure has done its work. -/
theorem Ended.of_scan (h : m.scan fuel items [] = some (.ok keys)) : m.Ended (m.entries items) items [] keys := by
  refine ended_of_scan ?_ h
  have hnone : {k | k ∈ ([] : List κ)} = ∅ := by simp
  rw [hnone]
  exact Frontier.start _ _

/-- A scan that ends without a failure has expanded what its items reach, each key once. -/
theorem scan_spec (h : m.scan fuel items [] = some (.ok keys)) : keys.Nodup ∧ ∀ k, k ∈ keys ↔ k ∈ m.reached items :=
  ⟨(Ended.of_scan h).nodup, fun k => Set.ext_iff.mp (Ended.of_scan h).frontier.complete k⟩

/-- A scan ends without a failure exactly when its items reach finitely many keys, and neither the items
nor what they reach makes it fail. -/
theorem exists_scan_iff : (∃ fuel keys, m.scan fuel items [] = some (.ok keys)) ↔
    (m.reached items).Finite ∧ m.Fine items ∧ ∀ k ∈ m.reached items, m.Opens k := by
  constructor
  · rintro ⟨fuel, keys, h⟩
    obtain ⟨-, hkeys⟩ := scan_spec h
    have hend := Ended.of_scan h
    exact ⟨(List.finite_toSet keys).subset fun k hk => (hkeys k).mpr hk, hend.fine,
      fun k hk => hend.opens k ((hkeys k).mpr hk)⟩
  · rintro ⟨hfinite, hfine, hopens⟩
    refine exists_scan (fun k hk => hopens k (hfinite.mem_toFinset.mp hk)) (fun k hk k' hleads => ?_) hfine fun k hk => ?_
    · obtain ⟨root, hroot, hpath⟩ := hfinite.mem_toFinset.mp hk
      exact hfinite.mem_toFinset.mpr ⟨root, hroot, hpath.tail hleads⟩
    · exact hfinite.mem_toFinset.mpr ⟨k, hk, .refl⟩

end Scanner

end Forge.Common
