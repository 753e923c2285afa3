import Forge.Common.Text
import Mathlib.Tactic.Common

/-!
# The validation of addresses and paths

An address is rejected when it does not begin with a scheme of the web, or when what comes
behind the scheme begins with the name of a host that must not be reached. The names are
compared with the text as it is written. So a host behind a user is not seen, nor one whose
name is written with capital letters. A path is freed of points and of going up.
-/

namespace Forge.Security.InputValidator

open Forge.Common

/-- Why an input is rejected. -/
inductive SecurityError where
  | invalidCommand (message : String)
deriving DecidableEq

/-- How the hosts begin that must not be reached. -/
def blockedPrefixes : List (List Char) :=
  ["localhost", "127.", "0.0.0.0", "[::1]", "::1", "169.254.", "10.", "192.168.", "172.16.", "172.17.", "172.18.",
    "172.19.", "172.20.", "172.21.", "172.22.", "172.23.", "172.24.", "172.25.", "172.26.", "172.27.", "172.28.",
    "172.29.", "172.30.", "172.31."].map String.toList

/-- The separator behind a scheme. -/
def schemeSeparator : List Char := [':', '/', '/']

/-- The second of the parts of an address between the separators. -/
def hostPart (url : List Char) : List Char :=
  match splitOnceText schemeSeparator url with
  | none => url
  | some (_, rest) =>
    match splitOnceText schemeSeparator rest with
    | none => rest
    | some (second, _) => second

/-- Accept an address, or say why not. -/
def validateUrl (url : List Char) : Except SecurityError Unit :=
  if ¬ "http://".toList <+: url ∧ ¬ "https://".toList <+: url then
    .error (.invalidCommand "URL must use http or https")
  else if blockedPrefixes.any fun start => start.isPrefixOf (hostPart url) then
    .error (.invalidCommand "Localhost or private network access not allowed")
  else .ok ()

example : validateUrl "https://example.com".toList = .ok () := by decide

/-- A path with slashes for backslashes. -/
def normalized (path : String) : List Char := path.toList.map fun c => if c = '\\' then '/' else c

/-- Go on with a component of a path. -/
def sanitizeStep (parts : List (List Char)) (component : List Char) : List (List Char) :=
  if component = [] ∨ component = ['.'] then parts
  else if component = ['.', '.'] then parts.dropLast
  else parts ++ [component]

/-- The components that are left of a path. -/
def sanitizedParts (path : String) : List (List Char) := ((normalized path).splitOn '/').foldl sanitizeStep []

/-- A path without points, and without going up. -/
def sanitizePath (path : String) : String := String.ofList (['/'].intercalate (sanitizedParts path))

example : sanitizePath "a/../../b\\./....//" = "b/...." := by decide

/-! ## The parts of an address -/

/-- What comes behind the scheme. -/
def afterScheme (url : List Char) : Option (List Char) :=
  (stripPrefix "http://".toList url).or (stripPrefix "https://".toList url)

/-- Where the host is, with its user and its port: up to a path, a query or a fragment. -/
def authority (rest : List Char) : List Char := rest.takeWhile fun c => c ∉ ['/', '?', '#']

/-- The user, which ends with the last at sign. -/
def userinfo (rest : List Char) : Option (List Char) := (rsplitOnce '@' (authority rest)).map Prod.fst

/-- The host behind the user, with its port. -/
def hostAndPort (rest : List Char) : List Char := ((rsplitOnce '@' (authority rest)).map Prod.snd).getD (authority rest)

/-- The host without a port. A host without brackets in which there are colons has none. -/
def dropPort (host : List Char) : List Char :=
  match rsplitOnce ':' host with
  | some (name, port) => if port.all Char.isDigit ∧ (':' ∉ name ∨ name.getLast? = some ']') then name else host
  | none => host

/-- The host of what comes behind a scheme. -/
def host (rest : List Char) : List Char := dropPort (hostAndPort rest)

/-- Whether text begins as the hosts do that must not be reached. -/
def Blocked (s : List Char) : Prop := ∃ start ∈ blockedPrefixes, start <+: s

/-- No accepted address has a host that must not be reached, in whatever case it is written. -/
def Confined (url : List Char) : Prop :=
  validateUrl url = .ok () → ∀ rest, afterScheme url = some rest → ¬ Blocked ((host rest).map Char.toLower)

/-- Addresses without a user whose host is not the local one in capital letters, and those
with a user that begins as a blocked host does, if the host is blocked. -/
def Plain (url : List Char) : Prop :=
  ∀ rest, afterScheme url = some rest →
    (userinfo rest = none → "localhost".toList <+: (host rest).map Char.toLower → "localhost".toList <+: host rest) ∧
    ∀ user, userinfo rest = some user → Blocked ((host rest).map Char.toLower) → Blocked user

/-! ## What the blocked prefixes are -/

/-- No blocked prefix has a character that ends a host, and none ends before a separator. -/
theorem blockedPrefixes_chars :
    ∀ start ∈ blockedPrefixes, (∀ c ∈ start, c ∉ ['/', '?', '#', '@']) ∧ start.getLast? ≠ some ':' := by
  simp only [← List.forall_iff_forall_mem]
  decide

/-- What follows a colon in a blocked prefix is no port. -/
theorem blockedPrefixes_port :
    ∀ start ∈ blockedPrefixes, ∀ k < start.length, start[k]? = some ':' →
      ¬ ((start.drop (k + 1)).all Char.isDigit = true ∧ (':' ∉ start.take k ∨ (start.take k).getLast? = some ']')) := by
  decide

/-- There are letters in the name of the local host only. -/
theorem blockedPrefixes_letters :
    ∀ start ∈ blockedPrefixes, start = "localhost".toList ∨ ∀ c ∈ start, c.toNat < 'a'.toNat := by
  simp only [← List.forall_iff_forall_mem]
  decide

/-- The other prefixes do not begin as the local host does. -/
theorem blockedPrefixes_head :
    ∀ start ∈ blockedPrefixes, start ≠ "localhost".toList → start ≠ [] ∧ start.head?.map Char.toLower ≠ some 'l' := by
  decide

/-- A host with a port begins as it does without. -/
theorem prefix_dropPort_iff {start : List Char} (hstart : start ∈ blockedPrefixes) (host : List Char) :
    start <+: dropPort host ↔ start <+: host := by
  rw [dropPort]
  split
  · rename_i name port hsplit
    obtain ⟨rfl, -⟩ := rsplitOnce_eq hsplit
    split
    · rename_i hport
      refine ⟨fun h => h.trans (List.prefix_append _ _), fun h => ?_⟩
      rcases List.prefix_or_prefix_of_prefix h (List.prefix_append name (':' :: port)) with hshort | ⟨more, rfl⟩
      · exact hshort
      · rw [List.prefix_append_right_inj] at h
        cases more with
        | nil => rw [List.append_nil]
        | cons c more =>
          obtain ⟨rfl, hmore⟩ := List.cons_prefix_cons.mp h
          have hdrop : (name ++ ':' :: more).drop (name.length + 1) = more := by
            rw [List.drop_length_add_append, List.drop_one, List.tail_cons]
          have hdigits : ((name ++ ':' :: more).drop (name.length + 1)).all Char.isDigit = true := by
            rw [hdrop, List.all_eq_true]
            exact fun d hd => List.all_eq_true.mp hport.1 d (hmore.subset hd)
          have hcolon : (name ++ ':' :: more)[name.length]? = some ':' := by
            rw [List.getElem?_append_right (Nat.le_refl _), Nat.sub_self]
            rfl
          have hlt : name.length < (name ++ ':' :: more).length := by
            rw [List.length_append, List.length_cons]
            omega
          refine absurd ⟨hdigits, ?_⟩ (blockedPrefixes_port _ hstart name.length hlt hcolon)
          rw [List.take_left]
          exact hport.2
    · exact Iff.rfl
  · exact Iff.rfl

/-- What comes behind a scheme begins as its authority does. -/
theorem prefix_authority_iff {start : List Char} (hstart : start ∈ blockedPrefixes) (rest : List Char) :
    start <+: authority rest ↔ start <+: rest := by
  refine prefix_takeWhile_iff fun c hc => decide_eq_true fun hmem => (blockedPrefixes_chars start hstart).1 c hc ?_
  exact List.mem_append_left ['@'] hmem

/-- What comes behind a scheme begins as its host does, when there is no user. -/
theorem prefix_host_iff {start : List Char} (hstart : start ∈ blockedPrefixes) {rest : List Char} (huser : userinfo rest = none) :
    start <+: host rest ↔ start <+: rest := by
  rw [userinfo, Option.map_eq_none_iff] at huser
  rw [host, prefix_dropPort_iff hstart, hostAndPort, huser]
  exact prefix_authority_iff hstart rest

/-- What comes behind a scheme begins as its user does, when there is one. -/
theorem prefix_user_iff {start : List Char} (hstart : start ∈ blockedPrefixes) {rest user : List Char}
    (huser : userinfo rest = some user) : start <+: user ↔ start <+: rest := by
  rw [userinfo, Option.map_eq_some_iff] at huser
  obtain ⟨⟨before, after⟩, hsplit, rfl⟩ := huser
  have hat : '@' ∉ start := fun hmem => (blockedPrefixes_chars start hstart).1 '@' hmem (by decide)
  rw [← prefix_authority_iff hstart rest, (rsplitOnce_eq hsplit).1, prefix_append_cons_iff hat]

/-- A character that is no small letter is none in any case. -/
theorem eq_of_toLower_eq {c d : Char} (hd : d.toNat < 'a'.toNat) (hlower : c.toLower = d) : c = d := by
  delta Char.toLower at hlower
  split at hlower
  · rename_i hupper
    exfalso
    have hval : d.toNat = (c.val + 32).toNat := by rw [← hlower]; rfl
    have hlow : 65 ≤ c.val.toNat := hupper.1
    have hhigh : c.val.toNat ≤ 90 := hupper.2
    have hsmall : d.toNat < 97 := hd
    rw [hval, UInt32.toNat_add] at hsmall
    change (c.val.toNat + 32) % 2 ^ 32 < 97 at hsmall
    omega
  · exact hlower

/-- A blocked prefix is found in a host in small letters, where it is in the host, unless it has letters. -/
theorem prefix_of_prefix_toLower {start s : List Char} (hstart : ∀ c ∈ start, c.toNat < 'a'.toNat)
    (h : start <+: s.map Char.toLower) : start <+: s := by
  induction start generalizing s with
  | nil => exact List.nil_prefix
  | cons c start ih =>
    cases s with
    | nil => exact absurd (List.prefix_nil.mp h) (List.cons_ne_nil c start)
    | cons d s =>
      obtain ⟨hc, hrest⟩ := List.forall_mem_cons.mp hstart
      obtain ⟨hd, hs⟩ := List.cons_prefix_cons.mp h
      exact List.cons_prefix_cons.mpr ⟨(eq_of_toLower_eq hc hd.symm).symm, ih hrest hs⟩

/-! ## What is rejected -/

/-- The part that is looked at begins as the text behind the scheme does. -/
theorem prefix_hostPart_iff {start : List Char} (hstart : start ∈ blockedPrefixes) {url rest : List Char}
    (hrest : afterScheme url = some rest) : start <+: hostPart url ↔ start <+: rest := by
  have hsplit : ∃ scheme, splitOnceText schemeSeparator url = some (scheme, rest) := by
    rw [afterScheme, Option.or_eq_some_iff] at hrest
    rcases hrest with hhttp | ⟨-, hhttps⟩
    · obtain rfl := stripPrefix_eq hhttp
      exact ⟨"http".toList, rfl⟩
    · obtain rfl := stripPrefix_eq hhttps
      exact ⟨"https".toList, rfl⟩
  obtain ⟨scheme, hscheme⟩ := hsplit
  rw [hostPart, hscheme]
  dsimp only
  split
  · exact Iff.rfl
  · rename_i second more hsecond
    rw [splitOnceText_eq hsecond, List.append_assoc]
    refine ⟨fun h => h.trans (List.prefix_append _ _), fun h => ?_⟩
    obtain ⟨hchars, hlast⟩ := blockedPrefixes_chars start hstart
    rcases List.prefix_or_prefix_of_prefix h (List.prefix_append second _) with hshort | ⟨beyond, rfl⟩
    · exact hshort
    -- Beyond the second part it would end with a colon, or have a slash.
    · rw [List.prefix_append_right_inj] at h
      cases beyond with
      | nil => rw [List.append_nil]
      | cons c beyond =>
        obtain ⟨rfl, hslash⟩ := List.cons_prefix_cons.mp h
        cases beyond with
        | nil => exact absurd List.getLast?_concat hlast
        | cons d beyond =>
          obtain ⟨rfl, -⟩ := List.cons_prefix_cons.mp hslash
          refine absurd ?_ (hchars '/' ?_)
          · decide
          · exact List.mem_append_right second (List.mem_cons_of_mem _ List.mem_cons_self)

/-- An address with a scheme is accepted when what comes behind it is not blocked. -/
theorem validateUrl_eq_ok_iff {url rest : List Char} (hrest : afterScheme url = some rest) :
    validateUrl url = .ok () ↔ ¬ Blocked rest := by
  have hscheme : ¬ (¬ "http://".toList <+: url ∧ ¬ "https://".toList <+: url) := by
    rw [afterScheme, Option.or_eq_some_iff] at hrest
    rintro ⟨hhttp, hhttps⟩
    rcases hrest with h | ⟨-, h⟩
    · exact hhttp (stripPrefix_eq h ▸ List.prefix_append _ _)
    · exact hhttps (stripPrefix_eq h ▸ List.prefix_append _ _)
  have hblocked : (blockedPrefixes.any fun start => start.isPrefixOf (hostPart url)) = true ↔ Blocked rest := by
    rw [List.any_eq_true]
    refine exists_congr fun start => and_congr_right fun hstart => ?_
    rw [List.isPrefixOf_iff_prefix, prefix_hostPart_iff hstart hrest]
  rw [validateUrl, if_neg hscheme, ← hblocked]
  split
  · rename_i hany
    exact iff_of_false nofun fun hnot => hnot hany
  · rename_i hnone
    exact iff_of_true rfl hnone

/-- An accepted address has no blocked host exactly when it is a plain one. -/
theorem validateUrl_confined_iff (url : List Char) : Confined url ↔ Plain url := by
  refine ⟨fun h rest hrest => ⟨fun huser hlocal => ?_, fun user huser hhost => ?_⟩, fun h hok rest hrest => ?_⟩
  · -- The host is blocked in small letters, so the address is rejected, for what its host begins with.
    have hblocked : Blocked rest := by
      by_contra hnot
      exact h ((validateUrl_eq_ok_iff hrest).mpr hnot) rest hrest ⟨_, by decide, hlocal⟩
    obtain ⟨start, hstart, hprefix⟩ := hblocked
    have hhost := (prefix_host_iff hstart huser).mpr hprefix
    rcases blockedPrefixes_letters start hstart with rfl | hletters
    · exact hhost
    · obtain ⟨hne, hhead⟩ := blockedPrefixes_head start hstart fun heq => absurd (hletters 'l') (heq ▸ by decide)
      obtain ⟨after, hafter⟩ := hhost
      rw [← hafter] at hlocal
      cases start with
      | nil => exact absurd rfl hne
      | cons c start => exact absurd (congrArg some (List.cons_prefix_cons.mp hlocal).1.symm) hhead
  · by_contra hnot
    refine h ((validateUrl_eq_ok_iff hrest).mpr fun hblocked => hnot ?_) rest hrest hhost
    obtain ⟨start, hstart, hprefix⟩ := hblocked
    exact ⟨start, hstart, (prefix_user_iff hstart huser).mpr hprefix⟩
  · obtain ⟨hlocal, hwith⟩ := h rest hrest
    rw [validateUrl_eq_ok_iff hrest] at hok
    rintro ⟨start, hstart, hprefix⟩
    cases huser : userinfo rest with
    | none =>
      refine hok ⟨start, hstart, (prefix_host_iff hstart huser).mp ?_⟩
      rcases blockedPrefixes_letters start hstart with rfl | hletters
      · exact hlocal huser hprefix
      · exact prefix_of_prefix_toLower hletters hprefix
    | some user =>
      obtain ⟨other, hother, huserPrefix⟩ := hwith user huser ⟨start, hstart, hprefix⟩
      exact hok ⟨other, hother, (prefix_user_iff hother huser).mp huserPrefix⟩

/-- An address of the local host behind a user is accepted. -/
theorem validateUrl_user : ¬ ∀ url, Confined url := by
  intro h
  refine h "http://user@localhost/".toList (by decide) "user@localhost/".toList (by decide) ⟨"localhost".toList, by decide, ?_⟩
  decide

end Forge.Security.InputValidator
