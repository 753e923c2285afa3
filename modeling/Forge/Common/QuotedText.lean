import Forge.Common.Text
import Mathlib.Data.List.Chain

/-!
# Texts with quotes

A reader goes through a text and tells which of its white space separates words. A line break
that does so ends a line. White space between quotes does not separate words, and goes on a
word. To trim the lines of a text and to leave out the empty ones keeps the words and their
lines, if between quotes no white space is next to a line break. It does not keep the
indentation.
-/

namespace Forge.Common

/-! ## Readers -/

/-- A reader of a text. It tells from what is in front of white space whether it separates words. White
space at the start of a line separates words and leaves the reader where it is, and white space at the end
of a line that separates words makes no difference behind the line. -/
structure WordReader (σ : Type*) where
  start : σ
  step : σ → Char → σ
  separates : σ → Char → Bool
  step_start : ∀ c, isWhitespace c = true → separates start c = true ∧ step start c = start
  step_break : ∀ m, separates m '\n' = true →
    ∀ c, isWhitespace c = true → separates (step m '\n') c = true ∧ step (step m '\n') c = step m '\n'
  break_step : ∀ m c, separates m c = true →
    separates (step m c) '\n' = separates m '\n' ∧ step (step m c) '\n' = step m '\n'

namespace WordReader

variable {σ : Type*} (reader : WordReader σ)

/-- Read a text. -/
def after (m : σ) (s : List Char) : σ := s.foldl reader.step m

/-- A text with a mark at what separates words. -/
def marked : σ → List Char → List (Char × Bool)
  | _, [] => []
  | m, c :: s => (c, reader.separates m c) :: marked (reader.step m c) s

/-- The reader puts the marks of a text. -/
def Tells (chars : List (Char × Bool)) : Prop := reader.marked reader.start (chars.map Prod.fst) = chars

/-- White space separates words and leaves the reader where it is. -/
def LineStart (m : σ) : Prop :=
  ∀ c, isWhitespace c = true → reader.separates m c = true ∧ reader.step m c = m

/-- A text is read part by part. -/
theorem after_append (m : σ) (s t : List Char) : reader.after m (s ++ t) = reader.after (reader.after m s) t :=
  List.foldl_append

/-- A text is marked part by part. -/
theorem marked_append (m : σ) (s t : List Char) :
    reader.marked m (s ++ t) = reader.marked m s ++ reader.marked (reader.after m s) t := by
  induction s generalizing m with
  | nil => rfl
  | cons c s ih => rw [List.cons_append, marked, marked, ih]; rfl

/-- White space at the start of a line separates words and leaves the reader where it is. -/
theorem LineStart.marked_blanks {reader : WordReader σ} {m : σ} (hm : reader.LineStart m) {s : List Char}
    (hs : ∀ c ∈ s, isWhitespace c = true) : reader.marked m s = s.map (·, true) ∧ reader.after m s = m := by
  induction s with
  | nil => exact ⟨rfl, rfl⟩
  | cons c s ih =>
    obtain ⟨hc, hrest⟩ := List.forall_mem_cons.mp hs
    obtain ⟨hseparates, hstep⟩ := hm c hc
    obtain ⟨hmarked, hafter⟩ := ih hrest
    refine ⟨?_, ?_⟩
    · rw [marked, hstep, hseparates, hmarked]
      rfl
    · rw [after, List.foldl_cons, hstep]
      exact hafter

end WordReader

/-! ## Quotes -/

/-- Where a reader of quotes is. -/
inductive QuoteMode where
  | outside
  | inside (quote : Char)
  | escaped (quote : Char)
deriving DecidableEq, Repr

namespace QuoteMode

variable (quotes : List Char)

/-- Read a character. Between quotes, a backslash takes the next character along. -/
def step : QuoteMode → Char → QuoteMode
  | .outside, c => if c ∈ quotes then .inside c else .outside
  | .inside quote, c => if c = '\\' then .escaped quote else if c = quote then .outside else .inside quote
  | .escaped quote, _ => .inside quote

/-- Read a text. -/
def after (m : QuoteMode) (s : List Char) : QuoteMode := s.foldl (step quotes) m

end QuoteMode

/-- White space separates words outside quotes. -/
def quoteReader (quotes : List Char) (hquotes : ∀ c ∈ quotes, isWhitespace c = false) : WordReader QuoteMode where
  start := .outside
  step := QuoteMode.step quotes
  separates m c := decide (m = .outside) && isWhitespace c
  step_start c hc := by
    have hquote : c ∉ quotes := fun hmem => Bool.false_ne_true ((hquotes c hmem).symm.trans hc)
    exact ⟨hc, if_neg hquote⟩
  step_break m hm c hc := by
    obtain rfl := of_decide_eq_true (Bool.and_eq_true_iff.mp hm).1
    have hnone {d : Char} (hd : isWhitespace d = true) : QuoteMode.step quotes .outside d = .outside :=
      if_neg fun hmem => Bool.false_ne_true ((hquotes d hmem).symm.trans hd)
    have hbreak : isWhitespace '\n' = true := by decide
    rw [hnone hbreak, hnone hc]
    exact ⟨hc, rfl⟩
  break_step m c hm := by
    obtain ⟨houtside, hc⟩ := Bool.and_eq_true_iff.mp hm
    obtain rfl := of_decide_eq_true houtside
    have hquote : QuoteMode.step quotes .outside c = .outside :=
      if_neg fun hmem => Bool.false_ne_true ((hquotes c hmem).symm.trans hc)
    rw [hquote]
    exact ⟨rfl, rfl⟩

/-! ## Words and lines -/

/-- What was read of a text: the lines with their indentation, and the indentation, the words and the
started word of the line so far. -/
structure Layout where
  lines : List (List Char × List (List Char))
  indent : List Char
  line : List (List Char)
  word : List Char

namespace Layout

/-- Nothing was read. -/
def start : Layout := ⟨[], [], [], []⟩

/-- The started word is complete. -/
def endWord (l : Layout) : Layout :=
  if l.word = [] then l else { l with line := l.line ++ [l.word], word := [] }

/-- White space ends a word, and indents a line without words. -/
def blank (l : Layout) (c : Char) : Layout :=
  if l.endWord.line = [] then { l.endWord with indent := l.indent ++ [c] } else l.endWord

/-- A line is complete. It does not count without words. -/
def endLine (l : Layout) : Layout :=
  if l.endWord.line = [] then { l.endWord with indent := [] }
  else ⟨l.lines ++ [(l.indent, l.endWord.line)], [], [], []⟩

/-- Read a character with a mark. -/
def step (l : Layout) (c : Char × Bool) : Layout :=
  if c.2 = false then { l with word := l.word ++ [c.1] }
  else if c.1 = '\n' then l.endLine else l.blank c.1

/-- The words in their lines, without the indentation. -/
def core (l : Layout) : List (List (List Char)) × List (List Char) × List Char :=
  (l.lines.map Prod.snd, l.line, l.word)

end Layout

/-- The lines of a marked text with their indentation. -/
def layout (chars : List (Char × Bool)) : List (List Char × List (List Char)) :=
  (chars.foldl Layout.step .start).endLine.lines

/-- The words of a marked text in their lines. -/
def wordLines (chars : List (Char × Bool)) : List (List (List Char)) :=
  (layout chars).map Prod.snd

namespace Layout

variable {l l' : Layout}

/-- What separates words ends a word or a line. -/
theorem step_separator (l : Layout) (c : Char) : l.step (c, true) = if c = '\n' then l.endLine else l.blank c :=
  if_neg nofun

/-- A complete word is kept. -/
theorem core_endWord (h : l.core = l'.core) : l.endWord.core = l'.endWord.core := by
  obtain ⟨hlines, hrest⟩ := Prod.mk.inj h
  obtain ⟨hline, hword⟩ := Prod.mk.inj hrest
  unfold endWord
  rw [hword]
  split
  · exact h
  · simp only [core, hlines, hline]

/-- A complete line is kept. -/
theorem core_endLine (h : l.core = l'.core) : l.endLine.core = l'.endLine.core := by
  obtain ⟨hlines, -⟩ := Prod.mk.inj h
  have hend := core_endWord h
  obtain ⟨-, hrest⟩ := Prod.mk.inj hend
  obtain ⟨hline, -⟩ := Prod.mk.inj hrest
  unfold endLine
  rw [hline]
  split
  · exact hend
  · simp only [core, List.map_append, hlines, List.map_cons, List.map_nil]

/-- White space ends a word. -/
theorem core_blank (l : Layout) (c : Char) : (l.blank c).core = l.endWord.core := by
  unfold blank
  split <;> rfl

/-- What is read keeps words in the same lines in the same lines. -/
theorem core_step (h : l.core = l'.core) (c : Char × Bool) : (l.step c).core = (l'.step c).core := by
  obtain ⟨hlines, hrest⟩ := Prod.mk.inj h
  obtain ⟨hline, hword⟩ := Prod.mk.inj hrest
  unfold step
  split
  · simp only [core, hlines, hline, hword]
  · split
    · exact core_endLine h
    · rw [core_blank, core_blank, core_endWord h]

/-- The same is read on from the same words in the same lines. -/
theorem core_foldl (h : l.core = l'.core) (chars : List (Char × Bool)) :
    (chars.foldl step l).core = (chars.foldl step l').core := by
  induction chars generalizing l l' with
  | nil => exact h
  | cons c chars ih => exact ih (core_step h c)

/-- Nothing was read of the line. -/
def Fresh (l : Layout) : Prop := l.line = [] ∧ l.word = []

/-- Whether nothing was read of the line can be seen without the indentation. -/
theorem Fresh.of_core (hfresh : l.Fresh) (h : l'.core = l.core) : l'.Fresh := by
  obtain ⟨-, hrest⟩ := Prod.mk.inj h
  obtain ⟨hline, hword⟩ := Prod.mk.inj hrest
  exact ⟨hline.trans hfresh.1, hword.trans hfresh.2⟩

/-- There is no started word behind a complete one. -/
theorem endWord_endWord (l : Layout) : l.endWord.endWord = l.endWord := by
  unfold endWord
  split
  · rfl
  · rw [if_pos rfl]

/-- A line that is complete needs no end of its last word. -/
theorem core_endLine_endWord (l : Layout) : l.endWord.endLine.core = l.endLine.core := by
  have hlines : l.endWord.lines = l.lines := by
    unfold endWord
    split <;> rfl
  have hindent : l.endWord.indent = l.indent := by
    unfold endWord
    split <;> rfl
  rw [endLine, endLine, endWord_endWord, hlines, hindent]

/-- A line begins behind a complete one. -/
theorem endLine_fresh (l : Layout) : l.endLine.Fresh := by
  have hword : l.endWord.word = [] := by
    unfold endWord
    split
    · assumption
    · rfl
  unfold endLine
  split
  · exact ⟨by assumption, hword⟩
  · exact ⟨rfl, rfl⟩

/-- What separates words adds nothing at the start of a line. -/
theorem Fresh.core_step_separator (hfresh : l.Fresh) (c : Char) : (l.step (c, true)).core = l.core := by
  have hword : l.endWord = l := by rw [endWord, if_pos hfresh.2]
  rw [step_separator]
  split
  · rw [endLine, hword, if_pos hfresh.1]
    rfl
  · rw [core_blank, hword]

/-- What separates words adds nothing at the start of a line. -/
theorem Fresh.core_separators (hfresh : l.Fresh) (s : List Char) :
    ((s.map (·, true)).foldl step l).core = l.core := by
  induction s generalizing l with
  | nil => rfl
  | cons c s ih =>
    have hstep := hfresh.core_step_separator c
    rw [List.map_cons, List.foldl_cons, ih (hfresh.of_core hstep), hstep]

/-- What separates words adds nothing at the end of a line. -/
theorem core_separators_endLine (l : Layout) {s : List Char} (hline : '\n' ∉ s) :
    ((s.map (·, true)).foldl step l).endLine.core = l.endLine.core := by
  induction s generalizing l with
  | nil => rfl
  | cons c s ih =>
    obtain ⟨hbreak, hline⟩ := List.ne_and_not_mem_of_not_mem_cons hline
    rw [List.map_cons, List.foldl_cons, ih _ hline, step_separator, if_neg fun h => hbreak h.symm,
      core_endLine (core_blank l c), core_endLine_endWord]

end Layout

/-! ## Trimmed lines -/

/-- The lines of a text that are not empty when they are trimmed. -/
def trimmedLines (s : List Char) : List (List Char) :=
  ((lines s).map trim).filter (· ≠ [])

/-- The text of lines, with a line break behind each. -/
def unlines (ls : List (List Char)) : List Char :=
  ls.flatMap (· ++ ['\n'])

/-- White space next to white space separates words if the other one does, and both do if one is a line break. -/
def Tight (chars : List (Char × Bool)) : Prop :=
  chars.IsChain fun a b => isWhitespace a.1 = true → isWhitespace b.1 = true →
    a.2 = b.2 ∧ (a.1 = '\n' ∨ b.1 = '\n' → a.2 = true)

section Trimmed

variable {σ : Type*} {reader : WordReader σ}

/-- White space in front of a line break separates words, and makes no difference behind it. -/
theorem marked_trailing {m : σ} {s : List Char} (hs : ∀ c ∈ s, isWhitespace c = true) (hne : s ≠ [])
    (htight : Tight (reader.marked m (s ++ ['\n']))) :
    reader.marked m (s ++ ['\n']) = (s ++ ['\n']).map (·, true) ∧ reader.separates m '\n' = true ∧
      reader.after m (s ++ ['\n']) = reader.step m '\n' := by
  induction s generalizing m with
  | nil => exact absurd rfl hne
  | cons c s ih =>
    obtain ⟨hc, hrest⟩ := List.forall_mem_cons.mp hs
    rw [List.cons_append, WordReader.marked] at htight
    obtain ⟨hnext, htightRest⟩ := List.isChain_cons.mp htight
    -- The next character is white space, too, and a line break if it is the last one.
    have hmarks : reader.separates m c = true ∧ reader.marked (reader.step m c) (s ++ ['\n']) = (s ++ ['\n']).map (·, true) ∧
        reader.separates (reader.step m c) '\n' = true ∧
          reader.after (reader.step m c) (s ++ ['\n']) = reader.step (reader.step m c) '\n' := by
      cases s with
      | nil =>
        obtain ⟨hsame, hbreak⟩ := hnext ('\n', reader.separates (reader.step m c) '\n') rfl hc rfl
        have hseparates := hbreak (.inr rfl)
        have hlast : reader.separates (reader.step m c) '\n' = true := hsame.symm.trans hseparates
        refine ⟨hseparates, ?_, hlast, rfl⟩
        rw [List.nil_append, WordReader.marked, hlast]
        rfl
      | cons d s =>
        obtain ⟨hmarked, hlast, hafter⟩ := ih hrest (List.cons_ne_nil d s) htightRest
        obtain ⟨hsame, -⟩ := hnext (d, true) (by rw [hmarked]; rfl) hc (hrest d List.mem_cons_self)
        exact ⟨hsame, hmarked, hlast, hafter⟩
    obtain ⟨hseparates, hmarked, hlast, hafter⟩ := hmarks
    obtain ⟨hsame, hstep⟩ := reader.break_step m c hseparates
    refine ⟨?_, hsame ▸ hlast, ?_⟩
    · rw [List.cons_append, WordReader.marked, hseparates, hmarked]
      rfl
    · rw [← hstep, ← hafter]
      rfl

/-- To trim a line keeps its words. White space at its start separates words, and white space at its end
does so, too. -/
theorem core_line {m : σ} {l : Layout} {line : List Char} (hline : '\n' ∉ line)
    (hstart : reader.LineStart m ∧ l.Fresh ∨ ∀ c, (line ++ ['\n']).head? = some c → isWhitespace c = false)
    (htight : Tight (reader.marked m (line ++ ['\n']))) :
    (trim line = [] → reader.LineStart m ∧ l.Fresh ∧ reader.after m (line ++ ['\n']) = m ∧
        ((reader.marked m (line ++ ['\n'])).foldl Layout.step l).core = l.core) ∧
      (trim line ≠ [] → reader.after m (trim line ++ ['\n']) = reader.after m (line ++ ['\n']) ∧
        ((reader.marked m (trim line ++ ['\n'])).foldl Layout.step l).core =
          ((reader.marked m (line ++ ['\n'])).foldl Layout.step l).core) := by
  obtain ⟨before, behind, heq, hbefore, hbehind⟩ := exists_eq_trim line
  generalize trim line = text at heq
  constructor
  · rintro rfl
    have hblank : ∀ c ∈ line ++ ['\n'], isWhitespace c = true := by
      rw [heq, List.append_nil]
      intro c hc
      rcases List.mem_append.mp hc with hc | hc
      · exact (List.mem_append.mp hc).elim (hbefore c) (hbehind c)
      · rw [List.mem_singleton.mp hc]
        rfl
    obtain ⟨hm, hfresh⟩ | hsolid := hstart
    · obtain ⟨hmarked, hafter⟩ := hm.marked_blanks hblank
      rw [hmarked]
      exact ⟨hm, hfresh, hafter, hfresh.core_separators _⟩
    · obtain ⟨c, hc⟩ := Option.isSome_iff_exists.mp (List.isSome_head?.mpr (List.append_ne_nil_of_right_ne_nil line
        (List.cons_ne_nil '\n' [])))
      exact absurd ((hsolid c hc).symm.trans (hblank c (List.mem_of_mem_head? hc))) Bool.false_ne_true
  · intro htext
    have hfront : reader.after m before = m ∧ ((reader.marked m before).foldl Layout.step l).core = l.core := by
      rcases before with _ | ⟨c, before⟩
      · exact ⟨rfl, rfl⟩
      · obtain ⟨hm, hfresh⟩ | hsolid := hstart
        · obtain ⟨hmarked, hafter⟩ := hm.marked_blanks hbefore
          rw [hmarked]
          exact ⟨hafter, hfresh.core_separators _⟩
        · have hc := hsolid c (by rw [heq]; rfl)
          exact absurd (hc.symm.trans (hbefore c List.mem_cons_self)) Bool.false_ne_true
    obtain ⟨hafter, hcore⟩ := hfront
    have hparts : line ++ ['\n'] = before ++ (text ++ (behind ++ ['\n'])) := by
      rw [heq, List.append_assoc, List.append_assoc]
    -- The white space behind the text is read at the end of the line.
    have hend : reader.after (reader.after m text) (behind ++ ['\n']) = reader.after (reader.after m text) ['\n'] ∧
        ∀ k, ((reader.marked (reader.after m text) (behind ++ ['\n'])).foldl Layout.step k).core =
          ((reader.marked (reader.after m text) ['\n']).foldl Layout.step k).core := by
      by_cases hnil : behind = []
      · rw [hnil]
        exact ⟨rfl, fun _ => rfl⟩
      · rw [hparts, WordReader.marked_append, hafter, WordReader.marked_append] at htight
        obtain ⟨-, htightEnd, -⟩ := List.isChain_append.mp (List.isChain_append.mp htight).2.1
        obtain ⟨hmarked, hseparates, hstep⟩ := marked_trailing hbehind hnil htightEnd
        refine ⟨hstep, fun k => ?_⟩
        have hbreak : reader.marked (reader.after m text) ['\n'] = [('\n', true)] := by
          rw [WordReader.marked, hseparates]
          rfl
        have hread (k : Layout) : ([('\n', true)] : List (Char × Bool)).foldl Layout.step k = k.endLine := rfl
        rw [hmarked, hbreak, List.map_append, List.foldl_append, List.map_singleton, hread, hread]
        refine Layout.core_separators_endLine k fun hmem => hline ?_
        rw [heq]
        exact List.mem_append_right _ hmem
    obtain ⟨hendAfter, hendCore⟩ := hend
    rw [hparts, WordReader.after_append, WordReader.after_append, WordReader.after_append, hafter, hendAfter,
      WordReader.marked_append, WordReader.marked_append, WordReader.marked_append, hafter, List.foldl_append,
      List.foldl_append, List.foldl_append]
    exact ⟨rfl, ((Layout.core_foldl (Layout.core_foldl hcore _) _).trans (hendCore _)).symm⟩

/-- To trim lines keeps their words. White space next to a line break separates words. -/
theorem core_unlines {ls : List (List Char)} (hlines : ∀ line ∈ ls, '\n' ∉ line) {m : σ} {l : Layout}
    (hstart : reader.LineStart m ∧ l.Fresh ∨ ∀ c, (unlines ls).head? = some c → isWhitespace c = false)
    (htight : Tight (reader.marked m (unlines ls))) :
    ((reader.marked m (unlines ls)).foldl Layout.step l).core =
      ((reader.marked m (unlines ((ls.map trim).filter (· ≠ [])))).foldl Layout.step l).core := by
  induction ls generalizing m l with
  | nil => rfl
  | cons line ls ih =>
    obtain ⟨hline, hrest⟩ := List.forall_mem_cons.mp hlines
    have hparts (line : List Char) (ls : List (List Char)) : unlines (line :: ls) = (line ++ ['\n']) ++ unlines ls := rfl
    rw [hparts] at hstart htight
    rw [WordReader.marked_append] at htight
    obtain ⟨htightLine, htightRest, hborder⟩ := List.isChain_append.mp htight
    have hhead : (line ++ ['\n'] ++ unlines ls).head? = (line ++ ['\n']).head? :=
      List.head?_append_of_ne_nil _ (List.append_ne_nil_of_right_ne_nil _ (List.cons_ne_nil _ _))
    rw [hhead] at hstart
    obtain ⟨hblank, hsolid⟩ := core_line hline hstart htightLine
    have hmarked : reader.marked m (line ++ ['\n']) =
        reader.marked m line ++ [('\n', reader.separates (reader.after m line) '\n')] := by
      rw [WordReader.marked_append]
      rfl
    have hafter : reader.after m (line ++ ['\n']) = reader.step (reader.after m line) '\n' := by
      rw [WordReader.after_append]
      rfl
    -- Behind a line break that separates words, a line starts. Behind another one, there is no white space.
    have hnext : reader.LineStart (reader.after m (line ++ ['\n'])) ∧
        ((reader.marked m (line ++ ['\n'])).foldl Layout.step l).Fresh ∨
          ∀ c, (unlines ls).head? = some c → isWhitespace c = false := by
      rw [hmarked, hafter, List.foldl_append]
      cases hbreak : reader.separates (reader.after m line) '\n' with
      | true => exact .inl ⟨reader.step_break _ hbreak, Layout.endLine_fresh _⟩
      | false =>
        refine .inr fun c hc => ?_
        obtain ⟨d, s, hs⟩ := List.exists_cons_of_ne_nil (List.ne_nil_of_mem (List.mem_of_mem_head? hc))
        rw [hs] at hc hborder
        obtain rfl := Option.some.inj hc
        rw [hmarked, hbreak] at hborder
        refine Bool.eq_false_iff.mpr fun hblank => ?_
        have hlast := hborder ('\n', false) List.getLast?_concat _ rfl rfl hblank
        exact Bool.false_ne_true (hlast.2 (.inl rfl))
    have hrestLines := ih hrest hnext htightRest
    rw [hparts, reader.marked_append m (line ++ ['\n']), List.foldl_append, hrestLines, List.map_cons]
    by_cases hempty : trim line = []
    · obtain ⟨-, -, hsame, hcore⟩ := hblank hempty
      rw [List.filter_cons_of_neg (by simpa using hempty), hsame]
      exact Layout.core_foldl hcore _
    · obtain ⟨hsame, hcore⟩ := hsolid hempty
      rw [List.filter_cons_of_pos (by simpa using hempty), hparts, reader.marked_append m (trim line ++ ['\n']),
        List.foldl_append, hsame]
      exact Layout.core_foldl hcore.symm _

/-- The lines that are not empty when they are trimmed. -/
theorem filter_map_trim (ls : List (List Char)) : (ls.map trim).filter (· ≠ []) =
    ls.filterMap fun line => if trim line = [] then none else some (trim line) := by
  induction ls with
  | nil => rfl
  | cons line ls ih =>
    rw [List.map_cons, List.filter_cons, List.filterMap_cons, ih]
    by_cases h : trim line = [] <;> simp [h]

/-- The lines of a text that are not empty when they are trimmed, from its pieces between line breaks. -/
theorem trimmedLines_eq (s : List Char) : trimmedLines s = ((s.splitOn '\n').map trim).filter (· ≠ []) := by
  rw [trimmedLines, filter_map_trim, filter_map_trim]
  exact filterMap_lines (fun line => by rw [trim_dropReturn]) rfl s

/-- A text with a line break behind it is the text of its lines. -/
theorem unlines_splitOn (s : List Char) : unlines (s.splitOn '\n') = s ++ ['\n'] := by
  have hpieces (ls : List (List Char)) (hls : ls ≠ []) : unlines ls = ['\n'].intercalate ls ++ ['\n'] := by
    induction ls with
    | nil => exact absurd rfl hls
    | cons line ls ih =>
      by_cases hnil : ls = []
      · rw [hnil, List.intercalate_singleton]
        exact List.append_nil _
      · rw [List.intercalate_cons_of_ne_nil hnil, unlines, List.flatMap_cons]
        exact (congrArg _ (ih hnil)).trans (List.append_assoc _ _ _).symm
  rw [hpieces _ (List.splitOn_ne_nil _ _), List.intercalate_splitOn]

/-- The words of a text are those of its trimmed lines, if white space next to a line break separates words. -/
theorem wordLines_trimmedLines {chars : List (Char × Bool)} (htells : reader.Tells (chars ++ [('\n', true)]))
    (htight : Tight (chars ++ [('\n', true)])) :
    wordLines chars = wordLines (reader.marked reader.start (unlines (trimmedLines (chars.map Prod.fst)))) := by
  have htext : (chars ++ [('\n', true)]).map Prod.fst = unlines ((chars.map Prod.fst).splitOn '\n') := by
    rw [unlines_splitOn, List.map_append]
    rfl
  rw [WordReader.Tells, htext] at htells
  rw [← htells] at htight
  have hcore := @core_unlines σ reader _ (fun line hline => notMem_of_mem_splitOn hline) reader.start .start
    (.inl ⟨reader.step_start, rfl, rfl⟩) htight
  rw [htells, List.foldl_append, ← trimmedLines_eq] at hcore
  have hread (k : Layout) : ([('\n', true)] : List (Char × Bool)).foldl Layout.step k = k.endLine := rfl
  rw [hread] at hcore
  have hfresh := (Layout.endLine_fresh _).of_core hcore.symm
  have hsame := hfresh.core_step_separator '\n'
  rw [Layout.step_separator, if_pos rfl] at hsame
  exact (Prod.mk.inj (hcore.trans hsame.symm)).1

end Trimmed

end Forge.Common
