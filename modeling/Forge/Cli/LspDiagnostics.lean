import Forge.Cli.Lsp
import Forge.Common.Histories
import Mathlib.Data.List.Perm.Basic

/-!
# What the editor shows for a document

An editor shows the diagnostics of the last notification for a document. The server sends one
notification for each unknown key, and none for a text without unknown keys, so that the
editor shows one key at most, and shows it until another text has something to say. Of the
changes in a notification, the server reads the first.
-/

namespace Forge.Cli.Lsp

open Forge.Common

/-- A notification of the editor about a document. -/
inductive Notification where
  | didOpen (uri : String) (version : ℕ) (text : String)
  | didChange (uri : String) (version : ℕ) (first : String) (rest : List String)
  | didSave (uri : String) (text : Option String)

namespace Notification

/-- The document of a notification. -/
def uri : Notification → String
  | .didOpen uri _ _ => uri
  | .didChange uri _ _ _ => uri
  | .didSave uri _ => uri

/-- The text of the document after a notification: the one of the last change. -/
def newText : Notification → Option String
  | .didOpen _ _ text => some text
  | .didChange _ _ first rest => some ((first :: rest).getLast (List.cons_ne_nil first rest))
  | .didSave _ _ => none

/-- The first text in a notification. -/
def firstText : Notification → Option String
  | .didOpen _ _ text => some text
  | .didChange _ _ first _ => some first
  | .didSave _ _ => none

/-- A notification as a message. -/
def request : Notification → JsonValue
  | .didOpen uri version text =>
    .object [("jsonrpc", .string "2.0"), ("method", .string "textDocument/didOpen"),
      ("params", .object [("textDocument", .object
        [("uri", .string uri), ("languageId", .string "toml"), ("version", jsonNumber version), ("text", .string text)])])]
  | .didChange uri version first rest =>
    .object [("jsonrpc", .string "2.0"), ("method", .string "textDocument/didChange"),
      ("params", .object
        [("textDocument", .object [("uri", .string uri), ("version", jsonNumber version)]),
          ("contentChanges", .array ((first :: rest).map fun text => .object [("text", .string text)]))])]
  | .didSave uri text =>
    .object [("jsonrpc", .string "2.0"), ("method", .string "textDocument/didSave"),
      ("params", .object (("textDocument", .object [("uri", .string uri)]) ::
        (text.map fun text => ("text", JsonValue.string text)).toList))]

end Notification

/-! ## What is shown -/

/-- Whether a message has the diagnostics of a document. -/
def publishes (uri : String) (message : JsonValue) : Bool :=
  messageMethod message == "textDocument/publishDiagnostics" &&
    (getPath (some message) ["params", "uri"]).bind JsonValue.asStr == some uri

/-- The diagnostics in a message. -/
def diagnosticsOf (message : JsonValue) : List JsonValue :=
  ((getPath (some message) ["params", "diagnostics"]).map asArray).getD []

/-- What is shown for a document: the diagnostics of the last message for it. -/
def shown (uri : String) (sent : List JsonValue) : List JsonValue :=
  match (sent.filter (publishes uri)).getLast? with
  | some message => diagnosticsOf message
  | none => []

/-- The text of a diagnostic. -/
def entryMessage (entry : JsonValue) : Option String :=
  (entry.get "message").bind JsonValue.asStr

/-- The texts that are shown for a document. -/
def shownTexts (uri : String) (sent : List JsonValue) : List (Option String) :=
  (shown uri sent).map entryMessage

/-- The unknown keys of a value. -/
def unknownKeys (doc : TomlValue) : List String :=
  doc.keys.filter fun key => !isKnown key

section Runs

variable (parse : TomlParser)

/-- The server after notifications. -/
def after (history : List Notification) : Server :=
  runLsp parse (history.map Notification.request) Server.new

/-- The text of a document after notifications. -/
def currentText (history : List Notification) (uri : String) : Option String :=
  history.foldl (fun text event => if event.uri = uri then event.newText.or text else text) none

/-- The editor shows exactly the unknown keys of a document that is TOML, and the server keeps its text. -/
def Converged (history : List Notification) (uri : String) : Prop :=
  ∀ text, currentText history uri = some text → (after parse history).documents.lookup uri = some text ∧
    ∀ doc, parse text = some doc →
      (shownTexts uri (after parse history).sent).Perm ((unknownKeys doc).map fun key => some (unknownMessage key))

/-- All texts that a document had were TOML without unknown keys. -/
def Quiet (history : List Notification) (uri : String) : Prop :=
  ∀ event ∈ history, event.uri = uri → ∀ text, event.newText = some text → ∃ doc, parse text = some doc ∧ unknownKeys doc = []

/-- A notification starts with its last text, and this text is not TOML, or has one unknown key, or has none like all
texts of the document before. -/
def Ok (history : List Notification) (event : Notification) : Prop :=
  ∀ text, event.newText = some text → event.firstText = some text ∧
    ∀ doc, parse text = some doc → (unknownKeys doc).length = 1 ∨ unknownKeys doc = [] ∧ Quiet parse history event.uri

/-- What is said about a text. -/
def said (text : String) : List String :=
  match parse text with
  | none => ["invalid TOML in fish.toml"]
  | some doc => (unknownKeys doc).map unknownMessage

variable {parse}

/-! ## One notification -/

/-- How a notification is handled. -/
theorem handleRequest_request (event : Notification) (documents : Documents) :
    handleRequest parse (messageMethod event.request) event.request (event.request.get "id") documents =
      match event.firstText with
      | some text => (validateDocument parse event.uri text, documents.insert event.uri text)
      | none => ([], documents) := by
  cases event with
  | didOpen uri version text => rfl
  | didChange uri version first rest => rfl
  | didSave uri text => cases text <;> rfl

/-- The method of a notification. -/
def Notification.method : Notification → String
  | .didOpen _ _ _ => "textDocument/didOpen"
  | .didChange _ _ _ _ => "textDocument/didChange"
  | .didSave _ _ => "textDocument/didSave"

/-- No notification ends the server. -/
theorem messageMethod_request_ne (event : Notification) : messageMethod event.request ≠ "exit" := by
  have hmethod : messageMethod event.request = event.method := by cases event <;> rfl
  rw [hmethod]
  cases event with
  | didOpen uri version text => exact show "textDocument/didOpen" ≠ "exit" by decide
  | didChange uri version first rest => exact show "textDocument/didChange" ≠ "exit" by decide
  | didSave uri text => exact show "textDocument/didSave" ≠ "exit" by decide

/-- Messages that do not end the server are handled one after another. -/
theorem runLsp_append {messages later : List JsonValue} (hmessages : ∀ message ∈ messages, messageMethod message ≠ "exit")
    (server : Server) : runLsp parse (messages ++ later) server = runLsp parse later (runLsp parse messages server) := by
  induction messages generalizing server with
  | nil => rfl
  | cons message messages ih =>
    rw [List.cons_append, runLsp, runLsp, if_neg (hmessages message List.mem_cons_self),
      if_neg (hmessages message List.mem_cons_self)]
    exact ih (fun message hmem => hmessages message (List.mem_cons_of_mem _ hmem)) _

/-- The server after one more notification. -/
theorem after_concat (history : List Notification) (event : Notification) : after parse (history ++ [event]) =
    match event.firstText with
    | some text => ⟨(after parse history).documents.insert event.uri text,
        (after parse history).sent ++ validateDocument parse event.uri text⟩
    | none => after parse history := by
  have hexit : ∀ message ∈ history.map Notification.request, messageMethod message ≠ "exit" := by
    intro message hmem
    obtain ⟨event', -, rfl⟩ := List.mem_map.mp hmem
    exact messageMethod_request_ne event'
  rw [after, List.map_append, runLsp_append hexit, ← after, List.map_singleton, runLsp,
    if_neg (messageMethod_request_ne event), handleRequest_request]
  cases event.firstText with
  | some text => rfl
  | none =>
    dsimp only
    rw [runLsp, List.append_nil]

/-- A diagnostic is for its document. -/
theorem publishes_diagnostic (uri uri' : String) (line : ℕ) (message : String) (severity : ℕ) :
    publishes uri' (diagnostic uri line message severity) = (uri == uri') := by
  have hmethod : messageMethod (diagnostic uri line message severity) = "textDocument/publishDiagnostics" := rfl
  have huri : (getPath (some (diagnostic uri line message severity)) ["params", "uri"]).bind JsonValue.asStr = some uri := rfl
  rw [publishes, hmethod, huri, beq_self_eq_true, Bool.true_and]
  rfl

/-- The notifications for a text are diagnostics of what is said about it. -/
theorem validateDocument_eq (uri text : String) : ∃ lines : List (ℕ × String × ℕ),
    validateDocument parse uri text = lines.map (fun line => diagnostic uri line.1 line.2.1 line.2.2) ∧
      lines.map (·.2.1) = said parse text := by
  unfold validateDocument said
  cases parse text with
  | none => exact ⟨[(0, "invalid TOML in fish.toml", 1)], rfl, rfl⟩
  | some doc =>
    refine ⟨(unknownKeys doc).map fun key => (findKeyLine text key, unknownMessage key, 2), ?_, ?_⟩
    · rw [List.map_map]
      rfl
    · rw [List.map_map]
      rfl

/-- What is shown after the notifications for a text of a document. -/
theorem shownTexts_append (uri uri' text : String) (sent : List JsonValue) :
    shownTexts uri (sent ++ validateDocument parse uri' text) =
      if uri' = uri then
        match (said parse text).getLast? with
        | some message => [some message]
        | none => shownTexts uri sent
      else shownTexts uri sent := by
  obtain ⟨lines, hvalidate, hsaid⟩ := @validateDocument_eq parse uri' text
  rw [shownTexts, shown, List.filter_append, hvalidate]
  by_cases huri : uri' = uri
  · subst huri
    have hall : (lines.map fun line => diagnostic uri' line.1 line.2.1 line.2.2).filter (publishes uri') =
        lines.map fun line => diagnostic uri' line.1 line.2.1 line.2.2 := by
      rw [List.filter_eq_self]
      intro message hmem
      obtain ⟨line, -, rfl⟩ := List.mem_map.mp hmem
      rw [publishes_diagnostic, beq_self_eq_true]
    rw [hall, if_pos rfl, ← hsaid, List.getLast?_append, List.getLast?_map, List.getLast?_map]
    cases lines.getLast? with
    | none => rfl
    | some line => rfl
  · have hnone : (lines.map fun line => diagnostic uri' line.1 line.2.1 line.2.2).filter (publishes uri) = [] := by
      rw [List.filter_eq_nil_iff]
      intro message hmem
      obtain ⟨line, -, rfl⟩ := List.mem_map.mp hmem
      rw [publishes_diagnostic, beq_eq_false_iff_ne.mpr huri]
      exact Bool.false_ne_true
    rw [hnone, if_neg huri, List.append_nil]
    rfl

/-- The text of a document after one more notification. -/
theorem currentText_concat (history : List Notification) (event : Notification) (uri : String) :
    currentText (history ++ [event]) uri =
      if event.uri = uri then event.newText.or (currentText history uri) else currentText history uri := by
  rw [currentText, List.foldl_append, List.foldl_cons, List.foldl_nil, ← currentText]

/-- All texts were quiet after one more notification. -/
theorem quiet_concat {history : List Notification} {event : Notification} {uri : String} :
    Quiet parse (history ++ [event]) uri ↔ Quiet parse history uri ∧
      (event.uri = uri → ∀ text, event.newText = some text → ∃ doc, parse text = some doc ∧ unknownKeys doc = []) := by
  simp only [Quiet, List.mem_append, List.mem_singleton, or_imp, forall_and, forall_eq]

/-- Nothing is said about a text that is TOML without unknown keys. -/
theorem said_eq_nil_iff {text : String} :
    said parse text = [] ↔ ∃ doc, parse text = some doc ∧ unknownKeys doc = [] := by
  unfold said
  cases parse text with
  | none => simp
  | some doc => simp

/-- One entry for each unknown key is shown exactly when one thing is said and shown, or nothing is. -/
theorem perm_unknown_iff {doc : TomlValue} {before : List (Option String)} :
    (match ((unknownKeys doc).map unknownMessage).getLast? with
      | some message => [some message]
      | none => before).Perm ((unknownKeys doc).map fun key => some (unknownMessage key)) ↔
    (unknownKeys doc).length = 1 ∨ unknownKeys doc = [] ∧ before = [] := by
  cases hkeys : unknownKeys doc with
  | nil => simp
  | cons key keys =>
    cases keys with
    | nil => simp
    | cons key' keys =>
      constructor
      · intro hperm
        have hlength := hperm.length_eq
        rw [List.map_cons, List.map_cons, List.getLast?_cons_cons] at hlength
        cases hlast : (unknownMessage key' :: keys.map unknownMessage).getLast? with
        | none => exact absurd (List.getLast?_eq_none_iff.mp hlast) (List.cons_ne_nil _ _)
        | some message =>
          rw [hlast] at hlength
          simp at hlength
      · intro h
        rcases h with hone | ⟨hnil, -⟩
        · simp at hone
        · exact absurd hnil (List.cons_ne_nil _ _)

/-! ## Runs -/

/-- What is known between notifications: the editor shows the unknown keys, and shows nothing for the documents whose
texts were quiet. -/
structure Inv (parse : TomlParser) (history : List Notification) : Prop where
  converged : ∀ uri, Converged parse history uri
  quiet : ∀ uri, shownTexts uri (after parse history).sent = [] ↔ Quiet parse history uri

/-- Nothing is known at the start. -/
theorem inv_nil : Inv parse [] where
  converged := fun _ _ htext => absurd htext nofun
  quiet := fun _ => ⟨fun _ _ hmem => absurd hmem List.not_mem_nil, fun _ => rfl⟩

/-- A document is converged after a notification with a text of its own, exactly when the first text is the last, and this
text has one unknown key or none like what is shown. -/
theorem converged_concat_iff {history : List Notification} {event : Notification} {text : String}
    (hnew : event.newText = some text) {first : String} (hfirst : event.firstText = some first) :
    Converged parse (history ++ [event]) event.uri ↔ first = text ∧ ∀ doc, parse text = some doc →
      (match (said parse first).getLast? with
        | some message => [some message]
        | none => shownTexts event.uri (after parse history).sent).Perm
          ((unknownKeys doc).map fun key => some (unknownMessage key)) := by
  rw [Converged, currentText_concat, if_pos rfl, hnew, Option.some_or, after_concat, hfirst]
  simp only [Option.some.injEq, forall_eq', AList.lookup_insert, shownTexts_append, if_true]

/-- A notification with a text starts with one. -/
theorem exists_firstText {event : Notification} {text : String} (hnew : event.newText = some text) :
    ∃ first, event.firstText = some first := by
  cases event with
  | didOpen uri version text => exact ⟨_, rfl⟩
  | didChange uri version first rest => exact ⟨_, rfl⟩
  | didSave uri text => exact absurd hnew nofun

/-- A notification without a text starts with none. -/
theorem firstText_eq_none {event : Notification} (hnew : event.newText = none) : event.firstText = none := by
  cases event with
  | didOpen uri version text => exact absurd hnew nofun
  | didChange uri version first rest => exact absurd hnew nofun
  | didSave uri text => rfl

/-- A notification without a text changes nothing. -/
theorem after_concat_of_none {history : List Notification} {event : Notification} (hnew : event.newText = none) :
    after parse (history ++ [event]) = after parse history := by
  rw [after_concat, firstText_eq_none hnew]

/-- A notification leaves the other documents. -/
theorem after_concat_other {history : List Notification} {event : Notification} {uri : String} (huri : event.uri ≠ uri) :
    (after parse (history ++ [event])).documents.lookup uri = (after parse history).documents.lookup uri ∧
      shownTexts uri (after parse (history ++ [event])).sent = shownTexts uri (after parse history).sent := by
  rw [after_concat]
  cases event.firstText with
  | none => exact ⟨rfl, rfl⟩
  | some text =>
    dsimp only
    rw [AList.lookup_insert_ne (Ne.symm huri), shownTexts_append, if_neg huri]
    exact ⟨rfl, rfl⟩

/-- A document is converged after a notification about it exactly when the notification is fine. -/
theorem Inv.converged_concat_iff {history : List Notification} (h : Inv parse history) (event : Notification) :
    Converged parse (history ++ [event]) event.uri ↔ Ok parse history event := by
  cases hnew : event.newText with
  | none =>
    have hconverged : Converged parse (history ++ [event]) event.uri := by
      rw [Converged, currentText_concat, if_pos rfl, hnew, Option.none_or, after_concat_of_none hnew]
      exact h.converged event.uri
    exact ⟨fun _ text htext => absurd (hnew.symm.trans htext) nofun, fun _ => hconverged⟩
  | some text =>
    obtain ⟨first, hfirst⟩ := exists_firstText hnew
    rw [Lsp.converged_concat_iff hnew hfirst]
    -- What is said about a text with unknown keys is one thing for each of them.
    have hsaid : ∀ doc, parse text = some doc → said parse text = (unknownKeys doc).map unknownMessage := by
      intro doc hparse
      rw [said, hparse]
    constructor
    · intro ⟨hsame, hshown⟩ text' htext'
      obtain rfl := Option.some.inj (hnew.symm.trans htext')
      refine ⟨hsame ▸ hfirst, fun doc hparse => ?_⟩
      have hperm := hshown doc hparse
      rw [hsame, hsaid doc hparse, perm_unknown_iff, h.quiet] at hperm
      exact hperm
    · intro hok
      obtain ⟨hsame, hshown⟩ := hok text hnew
      obtain rfl := Option.some.inj (hfirst.symm.trans hsame)
      refine ⟨rfl, fun doc hparse => ?_⟩
      rw [hsaid doc hparse, perm_unknown_iff, h.quiet]
      exact hshown doc hparse

/-- A fine notification keeps what is known. -/
theorem Inv.step {history : List Notification} (h : Inv parse history) {event : Notification} (hok : Ok parse history event) :
    Inv parse (history ++ [event]) where
  converged := by
    intro uri
    by_cases huri : event.uri = uri
    · subst huri
      exact (h.converged_concat_iff event).mpr hok
    · obtain ⟨hdocument, hshown⟩ := @after_concat_other parse history event uri huri
      rw [Converged, currentText_concat, if_neg huri, hdocument, hshown]
      exact h.converged uri
  quiet := by
    intro uri
    rw [quiet_concat]
    by_cases huri : event.uri = uri
    · subst huri
      cases hnew : event.newText with
      | none =>
        rw [after_concat_of_none hnew, h.quiet]
        exact ⟨fun hquiet => ⟨hquiet, fun _ text htext => absurd htext nofun⟩, fun hquiet => hquiet.1⟩
      | some text =>
        rw [after_concat, (hok text hnew).1]
        dsimp only
        rw [shownTexts_append, if_pos rfl]
        simp only [Option.some.injEq, forall_eq', forall_const, ← said_eq_nil_iff, ← h.quiet event.uri]
        cases hsaid : said parse text with
        | nil => simp
        | cons message messages =>
          rw [List.getLast?_cons]
          simp
    · obtain ⟨-, hshown⟩ := @after_concat_other parse history event uri huri
      rw [hshown, h.quiet]
      exact ⟨fun hquiet => ⟨hquiet, fun hsame => absurd hsame huri⟩, fun hquiet => hquiet.1⟩

/-- All documents are converged after all notifications of a run exactly when all of them are fine. -/
theorem converged_iff_ok (parse : TomlParser) (events : List Notification) :
    (∀ history, history <+: events → ∀ uri, Converged parse history uri) ↔
      ∀ history event, history ++ [event] <+: events → Ok parse history event :=
  forall_prefix_iff_steps (Inv parse) (fun history => ∀ uri, Converged parse history uri) (Ok parse) inv_nil
    (fun _ _ h hok => h.step hok) (fun _ h => h.converged)
    (fun _ event h hgood => (h.converged_concat_iff event).mp (hgood event.uri)) events

end Runs

/-! ## Runs of note -/

/-- Read some texts. -/
def sampleParse (text : String) : Option TomlValue :=
  if text = "bar = 1\nfoo = 2\n" then some (.table ["bar", "foo"] (by decide))
  else if text = "foo = 2\n" then some (.table ["foo"] (by decide))
  else if text = "jobs = 4\n" then some (.table ["jobs"] (by decide))
  else none

/-- Two unknown keys in one text. -/
def sampleOpen : List Notification := [.didOpen "file:///fish.toml" 1 "bar = 1\nfoo = 2\n"]

/-- An unknown key that disappears. -/
def sampleFixed : List Notification :=
  [.didOpen "file:///fish.toml" 1 "foo = 2\n", .didChange "file:///fish.toml" 2 "jobs = 4\n" []]

/-- Two changes in one notification. -/
def sampleBatch : List Notification :=
  [.didOpen "file:///fish.toml" 1 "jobs = 4\n", .didChange "file:///fish.toml" 3 "jobs = 4\n" ["foo = 2\n"]]

/-- Of two unknown keys one is shown; a key is shown when it is gone; and of two changes the first is kept. -/
theorem not_converged_samples :
    ¬ Converged sampleParse sampleOpen "file:///fish.toml" ∧ ¬ Converged sampleParse sampleFixed "file:///fish.toml" ∧
      ¬ Converged sampleParse sampleBatch "file:///fish.toml" := by
  refine ⟨fun h => ?_, fun h => ?_, fun h => ?_⟩
  · have hshown : (shownTexts "file:///fish.toml" (after sampleParse sampleOpen).sent).length = 1 := by decide +kernel
    have hperm := (h "bar = 1\nfoo = 2\n" rfl).2 (.table ["bar", "foo"] (by decide)) rfl
    have hunknown : (unknownKeys (.table ["bar", "foo"] (by decide))).length = 2 := by decide +kernel
    have hlength := hperm.length_eq
    rw [hshown, List.length_map, hunknown] at hlength
    exact absurd hlength (by decide)
  · have hshown : (shownTexts "file:///fish.toml" (after sampleParse sampleFixed).sent).length = 1 := by decide +kernel
    have hperm := (h "jobs = 4\n" rfl).2 (.table ["jobs"] (by decide)) rfl
    have hunknown : (unknownKeys (.table ["jobs"] (by decide))).length = 0 := by decide +kernel
    have hlength := hperm.length_eq
    rw [hshown, List.length_map, hunknown] at hlength
    exact absurd hlength (by decide)
  · have hstored : (after sampleParse sampleBatch).documents.lookup "file:///fish.toml" = some "jobs = 4\n" := by
      decide +kernel
    exact absurd (hstored.symm.trans (h "foo = 2\n" rfl).1) (by decide)

end Forge.Cli.Lsp
