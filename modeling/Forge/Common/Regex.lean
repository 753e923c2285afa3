import Mathlib.Computability.Language
import Mathlib.Algebra.Order.BigOperators.Group.List
import Mathlib.Data.List.Infix

/-!
# Regular expressions as text

Regular expressions of characters, runs of them and optional groups, between anchors. An
expression has a text, in which special characters are escaped, and a language. Its text is
read back as the same expression, so that a text means one language only, and a matcher
decides whether some part of a text is in the language.
-/

namespace Forge.Common.Regex

/-- What stands for one character. -/
inductive Atom where
  | literal (c : Char)
  | dot
  | noneOf (c : Char)
deriving DecidableEq

/-- An atom once, or any number of times. -/
inductive Piece where
  | one (atom : Atom)
  | many (atom : Atom)
deriving DecidableEq

/-- A piece, or a group of them that may be missing. -/
inductive Item where
  | single (piece : Piece)
  | optional (group : List Piece)
deriving DecidableEq

/-- An expression, and whether it starts and ends where the text does. -/
structure Pattern where
  fromStart : Bool
  items : List Item
  toEnd : Bool
deriving DecidableEq

/-! ## Texts -/

/-- The characters with a meaning of their own. -/
def isMeta (c : Char) : Bool :=
  c ∈ ['\\', '.', '+', '*', '?', '(', ')', '|', '[', ']', '{', '}', '^', '$']

/-- The characters with a meaning of their own between brackets. -/
def isClassMeta (c : Char) : Bool := c ∈ ['\\', '[', ']', '^', '-', '&', '~']

/-- A character as it is written where some are special. -/
def escape (special : Char → Bool) (c : Char) : List Char := if special c then ['\\', c] else [c]

/-- The text of an atom. -/
def Atom.text : Atom → List Char
  | .literal c => escape isMeta c
  | .dot => ['.']
  | .noneOf c => ['[', '^'] ++ escape isClassMeta c ++ [']']

/-- The text of a piece. -/
def Piece.text : Piece → List Char
  | .one atom => atom.text
  | .many atom => atom.text ++ ['*']

/-- The text of an item. -/
def Item.text : Item → List Char
  | .single piece => piece.text
  | .optional group => ['(', '?', ':'] ++ group.flatMap Piece.text ++ [')', '?']

/-- The text of an expression. -/
def Pattern.text (p : Pattern) : List Char :=
  (if p.fromStart then ['^'] else []) ++ p.items.flatMap Item.text ++ (if p.toEnd then ['$'] else [])

/-! ## Languages -/

/-- Whether an atom stands for a character. -/
def Atom.accepts : Atom → Char → Bool
  | .literal c, d => d = c
  | .dot, d => d ≠ '\n'
  | .noneOf c, d => d ≠ c

/-- The language of an atom. -/
def Atom.language (atom : Atom) : Language Char := {s | ∃ c, atom.accepts c = true ∧ s = [c]}

/-- The language of a piece. -/
def Piece.language : Piece → Language Char
  | .one atom => atom.language
  | .many atom => KStar.kstar atom.language

/-- The language of an item. -/
def Item.language : Item → Language Char
  | .single piece => piece.language
  | .optional group => 1 + (group.map Piece.language).prod

/-- The language of an expression, apart from its anchors. -/
def Pattern.language (p : Pattern) : Language Char := (p.items.map Item.language).prod

/-- An expression is found in a text when a part of it, where the anchors say, is in the language. -/
def Pattern.Found (p : Pattern) (s : List Char) : Prop :=
  ∃ before run after, s = before ++ run ++ after ∧ run ∈ p.language ∧
    (p.fromStart = true → before = []) ∧ (p.toEnd = true → after = [])

/-- Any number of characters for which an atom stands. -/
theorem Atom.mem_star_iff {atom : Atom} {s : List Char} :
    s ∈ KStar.kstar atom.language ↔ ∀ c ∈ s, atom.accepts c = true := by
  rw [Language.mem_kstar]
  constructor
  · rintro ⟨parts, rfl, hparts⟩ c hc
    obtain ⟨part, hpart, hcpart⟩ := List.mem_flatten.mp hc
    obtain ⟨d, hd, rfl⟩ := hparts part hpart
    exact List.mem_singleton.mp hcpart ▸ hd
  · intro hall
    refine ⟨s.map fun c => [c], ?_, ?_⟩
    · rw [← List.flatMap_def, List.flatMap_singleton']
    · rintro part hpart
      obtain ⟨c, hc, rfl⟩ := List.mem_map.mp hpart
      exact ⟨c, hall c hc, rfl⟩

/-- An expression with both anchors is found in the texts of its language. -/
theorem Pattern.found_iff {p : Pattern} (hstart : p.fromStart = true) (hend : p.toEnd = true) {s : List Char} :
    p.Found s ↔ s ∈ p.language := by
  constructor
  · rintro ⟨before, run, after, rfl, hrun, hbefore, hafter⟩
    rwa [hbefore hstart, hafter hend, List.nil_append, List.append_nil]
  · intro hs
    exact ⟨[], s, [], by rw [List.nil_append, List.append_nil], hs, fun _ => rfl, fun _ => rfl⟩

/-! ## A matcher -/

/-- What may follow a character for which an atom stands. -/
def Atom.rests (atom : Atom) : List Char → List (List Char)
  | [] => []
  | c :: s => if atom.accepts c then [s] else []

/-- What may follow any number of characters for which an atom stands. -/
def Atom.manyRests (atom : Atom) : List Char → List (List Char)
  | [] => [[]]
  | c :: s => (c :: s) :: if atom.accepts c then atom.manyRests s else []

/-- What may follow a piece. -/
def Piece.rests : Piece → List Char → List (List Char)
  | .one atom => atom.rests
  | .many atom => atom.manyRests

/-- What may follow parts one after the other. -/
def chain {β : Type*} (rests : β → List Char → List (List Char)) : List β → List Char → List (List Char)
  | [], s => [s]
  | x :: xs, s => (rests x s).flatMap (chain rests xs)

/-- What may follow an item. -/
def Item.rests : Item → List Char → List (List Char)
  | .single piece, s => piece.rests s
  | .optional group, s => s :: chain Piece.rests group s

/-- Whether an expression is found in a text. -/
def Pattern.isMatch (p : Pattern) (s : List Char) : Bool :=
  (if p.fromStart then [s] else s.tails).any fun t => (chain Item.rests p.items t).any fun rest => !p.toEnd || rest.isEmpty

/-- What may follow is what is left behind a text of the language. -/
def Leaves (rests : List Char → List (List Char)) (language : Language Char) : Prop :=
  ∀ s rest, rest ∈ rests s ↔ ∃ run ∈ language, run ++ rest = s

/-- What follows an atom. -/
theorem Atom.rests_leaves (atom : Atom) : Leaves atom.rests atom.language := by
  intro s rest
  constructor
  · intro hrest
    cases s with
    | nil => exact absurd hrest List.not_mem_nil
    | cons c s =>
      rw [Atom.rests] at hrest
      split at hrest
      · rename_i hc
        exact ⟨[c], ⟨c, hc, rfl⟩, by rw [List.mem_singleton.mp hrest]; rfl⟩
      · exact absurd hrest List.not_mem_nil
  · rintro ⟨run, ⟨c, hc, rfl⟩, rfl⟩
    rw [List.singleton_append, Atom.rests, if_pos hc]
    exact List.mem_singleton_self _

/-- What follows any number of an atom. -/
theorem Atom.manyRests_leaves (atom : Atom) : Leaves atom.manyRests (KStar.kstar atom.language) := by
  intro s rest
  simp only [Atom.mem_star_iff]
  induction s with
  | nil =>
    rw [Atom.manyRests, List.mem_singleton]
    constructor
    · rintro rfl
      exact ⟨[], fun _ hc => absurd hc List.not_mem_nil, rfl⟩
    · rintro ⟨run, -, heq⟩
      exact (List.append_eq_nil_iff.mp heq).2
  | cons c s ih =>
    rw [Atom.manyRests, List.mem_cons]
    constructor
    · rintro (rfl | hrest)
      · exact ⟨[], fun _ hc => absurd hc List.not_mem_nil, rfl⟩
      · split at hrest
        · rename_i hc
          obtain ⟨run, hrun, rfl⟩ := ih.mp hrest
          exact ⟨c :: run, List.forall_mem_cons.mpr ⟨hc, hrun⟩, rfl⟩
        · exact absurd hrest List.not_mem_nil
    · rintro ⟨run, hrun, heq⟩
      cases run with
      | nil => exact Or.inl heq
      | cons d run =>
        obtain ⟨rfl, rfl⟩ := List.cons.inj heq
        obtain ⟨hd, hrun⟩ := List.forall_mem_cons.mp hrun
        rw [if_pos hd]
        exact Or.inr (ih.mpr ⟨run, hrun, rfl⟩)

/-- What follows parts one after the other. -/
theorem chain_leaves {β : Type*} {rests : β → List Char → List (List Char)} {language : β → Language Char}
    (h : ∀ x, Leaves (rests x) (language x)) (xs : List β) : Leaves (chain rests xs) (xs.map language).prod := by
  induction xs with
  | nil =>
    intro s rest
    rw [chain, List.mem_singleton, List.map_nil, List.prod_nil]
    constructor
    · rintro rfl
      exact ⟨[], Language.nil_mem_one, rfl⟩
    · rintro ⟨run, hrun, rfl⟩
      rw [(Language.mem_one run).mp hrun, List.nil_append]
  | cons x xs ih =>
    intro s rest
    rw [chain, List.mem_flatMap, List.map_cons, List.prod_cons]
    constructor
    · rintro ⟨middle, hmiddle, hrest⟩
      obtain ⟨run, hrun, rfl⟩ := (h x s middle).mp hmiddle
      obtain ⟨more, hmore, rfl⟩ := (ih middle rest).mp hrest
      exact ⟨run ++ more, Language.append_mem_mul hrun hmore, List.append_assoc run more rest⟩
    · rintro ⟨both, hboth, rfl⟩
      obtain ⟨run, hrun, more, hmore, rfl⟩ := Language.mem_mul.mp hboth
      exact ⟨more ++ rest, (h x _ _).mpr ⟨run, hrun, (List.append_assoc run more rest).symm⟩, (ih _ _).mpr ⟨more, hmore, rfl⟩⟩

/-- What follows a piece. -/
theorem Piece.rests_leaves (piece : Piece) : Leaves piece.rests piece.language := by
  cases piece with
  | one atom => exact atom.rests_leaves
  | many atom => exact atom.manyRests_leaves

/-- What follows an item. -/
theorem Item.rests_leaves (item : Item) : Leaves item.rests item.language := by
  cases item with
  | single piece => exact piece.rests_leaves
  | optional group =>
    intro s rest
    rw [Item.rests, List.mem_cons, chain_leaves Piece.rests_leaves group s rest, Item.language]
    constructor
    · rintro (rfl | ⟨run, hrun, hs⟩)
      · exact ⟨[], Or.inl rfl, rfl⟩
      · exact ⟨run, Or.inr hrun, hs⟩
    · rintro ⟨run, hrun | hrun, hs⟩
      · rw [(Language.mem_one run).mp hrun] at hs
        exact Or.inl hs
      · exact Or.inr ⟨run, hrun, hs⟩

/-- The matcher finds an expression where it is. -/
theorem Pattern.isMatch_iff (p : Pattern) (s : List Char) : p.isMatch s = true ↔ p.Found s := by
  have hstarts : ∀ t, t ∈ (if p.fromStart = true then [s] else s.tails) ↔
      ∃ before, s = before ++ t ∧ (p.fromStart = true → before = []) := by
    intro t
    split
    · rename_i hstart
      rw [List.mem_singleton]
      constructor
      · rintro rfl
        exact ⟨[], rfl, fun _ => rfl⟩
      · rintro ⟨before, rfl, hbefore⟩
        rw [hbefore hstart, List.nil_append]
    · rename_i hstart
      rw [List.mem_tails]
      constructor
      · rintro ⟨before, rfl⟩
        exact ⟨before, rfl, fun h => absurd h hstart⟩
      · rintro ⟨before, rfl, -⟩
        exact ⟨before, rfl⟩
  rw [Pattern.isMatch, List.any_eq_true]
  constructor
  · rintro ⟨t, ht, hany⟩
    obtain ⟨rest, hrest, hend⟩ := List.any_eq_true.mp hany
    obtain ⟨before, rfl, hbefore⟩ := (hstarts t).mp ht
    obtain ⟨run, hrun, rfl⟩ := (chain_leaves Item.rests_leaves p.items t rest).mp hrest
    refine ⟨before, run, rest, (List.append_assoc before run rest).symm, hrun, hbefore, fun htoEnd => ?_⟩
    rw [htoEnd] at hend
    exact List.isEmpty_iff.mp hend
  · rintro ⟨before, run, after, rfl, hrun, hbefore, hafter⟩
    refine ⟨run ++ after, (hstarts _).mpr ⟨before, List.append_assoc before run after, hbefore⟩, ?_⟩
    refine List.any_eq_true.mpr ⟨after, (chain_leaves Item.rests_leaves p.items _ _).mpr ⟨run, hrun, rfl⟩, ?_⟩
    cases htoEnd : p.toEnd with
    | false => rfl
    | true => rw [hafter htoEnd]; rfl

/-! ## Reading a text -/

/-- Read a character where some are special. -/
def unescape (special : Char → Bool) : List Char → Option (Char × List Char)
  | [] => none
  | '\\' :: c :: s => if special c then some (c, s) else none
  | c :: s => if special c then none else some (c, s)

/-- Read an atom. -/
def readAtom : List Char → Option (Atom × List Char)
  | '.' :: s => some (.dot, s)
  | '[' :: '^' :: s =>
    match unescape isClassMeta s with
    | some (c, ']' :: rest) => some (.noneOf c, rest)
    | _ => none
  | s => (unescape isMeta s).map fun (c, rest) => (.literal c, rest)

/-- Read a piece. -/
def readPiece (s : List Char) : Option (Piece × List Char) :=
  match readAtom s with
  | some (atom, '*' :: rest) => some (.many atom, rest)
  | some (atom, rest) => some (.one atom, rest)
  | none => none

/-- Read parts one after the other while there are some. -/
def readAll {β : Type*} (read : List Char → Option (β × List Char)) : ℕ → List Char → List β × List Char
  | 0, s => ([], s)
  | fuel + 1, s =>
    match read s with
    | some (x, rest) => (x :: (readAll read fuel rest).1, (readAll read fuel rest).2)
    | none => ([], s)

/-- Read the end of a group. -/
def closeGroup : List Piece × List Char → Option (Item × List Char)
  | (group, ')' :: '?' :: rest) => some (.optional group, rest)
  | _ => none

/-- Read an item. -/
def readItem : List Char → Option (Item × List Char)
  | '(' :: '?' :: ':' :: s => closeGroup (readAll readPiece s.length s)
  | s => (readPiece s).map fun (piece, rest) => (.single piece, rest)

/-- Read the end of an expression. -/
def closePattern (fromStart : Bool) : List Item × List Char → Option Pattern
  | (items, []) => some ⟨fromStart, items, false⟩
  | (items, ['$']) => some ⟨fromStart, items, true⟩
  | _ => none

/-- Read an expression. -/
def readPattern : List Char → Option Pattern
  | '^' :: s => closePattern true (readAll readItem s.length s)
  | s => closePattern false (readAll readItem s.length s)

/-- A character is read as it is written. -/
theorem unescape_escape {special : Char → Bool} (hspecial : special '\\' = true) (c : Char) (s : List Char) :
    unescape special (escape special c ++ s) = some (c, s) := by
  rw [escape]
  split
  · rename_i hc
    rw [List.cons_append, List.cons_append, List.nil_append, unescape, if_pos hc]
  · rename_i hc
    have hne : c ≠ '\\' := by
      rintro rfl
      exact hc hspecial
    rw [List.cons_append, List.nil_append, unescape, if_neg hc]
    rintro - - rfl
    exact absurd rfl hne

/-- Text after which a part does not go on. -/
def Stops (s : List Char) : Prop := s.head? ≠ some '*'

/-- A part does not go on with a character that is no star. -/
theorem Stops.cons {c : Char} (hc : c ≠ '*') (s : List Char) : Stops (c :: s) := fun h => hc (Option.some.inj h)

/-- A literal starts with a backslash or with a character without another meaning. -/
theorem escape_isMeta_cons (c : Char) :
    ∃ d s, escape isMeta c = d :: s ∧ (d = '\\' ∨ isMeta d = false) := by
  rw [escape]
  split
  · exact ⟨_, _, rfl, Or.inl rfl⟩
  · rename_i hc
    exact ⟨_, _, rfl, Or.inr (Bool.not_eq_true _ ▸ hc)⟩

/-- An atom is read as it is written. -/
theorem readAtom_text (atom : Atom) (s : List Char) : readAtom (atom.text ++ s) = some (atom, s) := by
  cases atom with
  | literal c =>
    obtain ⟨d, rest, hd, hchar⟩ := escape_isMeta_cons c
    have hread : readAtom (escape isMeta c ++ s) =
        (unescape isMeta (escape isMeta c ++ s)).map fun (c, rest) => (.literal c, rest) := by
      rw [hd, List.cons_append, readAtom]
      · rintro rest' heq
        obtain ⟨rfl, -⟩ := List.cons.inj heq
        exact absurd hchar (by decide)
      · rintro rest' heq
        obtain ⟨rfl, -⟩ := List.cons.inj heq
        exact absurd hchar (by decide)
    rw [Atom.text, hread, unescape_escape (by decide)]
    rfl
  | dot => rfl
  | noneOf c =>
    rw [Atom.text, List.append_assoc, List.append_assoc, List.cons_append, List.cons_append, List.nil_append, readAtom,
      unescape_escape (by decide)]
    rfl

/-- The text of an atom begins with none of the characters that go on or end other parts. -/
theorem Atom.text_cons (atom : Atom) : ∃ d s, atom.text = d :: s ∧ d ∉ ['*', '(', ')', '^', '$'] := by
  cases atom with
  | literal c =>
    obtain ⟨d, s, hd, hchar⟩ := escape_isMeta_cons c
    refine ⟨d, s, hd, fun hmem => ?_⟩
    rcases hchar with rfl | hchar
    · exact absurd hmem (by decide)
    · have hall : ∀ c ∈ ['*', '(', ')', '^', '$'], isMeta c = true := List.all_eq_true.mp (by decide)
      exact absurd (hall d hmem) (by rw [hchar]; decide)
  | dot => exact ⟨_, _, rfl, by decide⟩
  | noneOf c => exact ⟨_, _, rfl, by decide⟩

/-- The text of a piece begins in the same way. -/
theorem Piece.text_cons (piece : Piece) : ∃ d s, piece.text = d :: s ∧ d ∉ ['*', '(', ')', '^', '$'] := by
  cases piece with
  | one atom => exact atom.text_cons
  | many atom =>
    obtain ⟨d, s, htext, hd⟩ := atom.text_cons
    exact ⟨d, s ++ ['*'], by rw [Piece.text, htext, List.cons_append], hd⟩

/-- The text of an item does, or opens a group. -/
theorem Item.text_cons (item : Item) : ∃ d s, item.text = d :: s ∧ d ∉ ['*', ')', '^', '$'] := by
  cases item with
  | single piece =>
    obtain ⟨d, s, htext, hd⟩ := piece.text_cons
    refine ⟨d, s, htext, fun hmem => hd ?_⟩
    simp only [List.mem_cons] at hmem ⊢
    tauto
  | optional group => exact ⟨_, _, rfl, by decide⟩

/-- A text that begins with none of some characters, of which the star is one, begins with another than the star. -/
theorem exists_cons_ne_star {text others : List Char} (h : ∃ d s, text = d :: s ∧ d ∉ '*' :: others) :
    ∃ d s, text = d :: s ∧ d ≠ '*' := by
  obtain ⟨d, s, htext, hd⟩ := h
  exact ⟨d, s, htext, List.ne_of_not_mem_cons hd⟩

/-- A piece is read as it is written. -/
theorem readPiece_text (piece : Piece) {s : List Char} (hs : Stops s) : readPiece (piece.text ++ s) = some (piece, s) := by
  cases piece with
  | one atom =>
    rw [Piece.text, readPiece, readAtom_text]
    cases s with
    | nil => rfl
    | cons c s =>
      have hc : c ≠ '*' := fun hc => hs (congrArg some hc)
      split
      · rename_i heq
        exact absurd (List.cons.inj (Prod.mk.inj (Option.some.inj heq)).2).1 hc
      · rename_i heq
        obtain ⟨rfl, rfl⟩ := Prod.mk.inj (Option.some.inj heq)
        rfl
      · rename_i heq
        exact absurd heq nofun
  | many atom =>
    rw [Piece.text, List.append_assoc, readPiece, readAtom_text]
    rfl

/-- Parts one after the other are read as they are written, up to what is no part. -/
theorem readAll_text {β : Type*} {read : List Char → Option (β × List Char)} {text : β → List Char}
    (hread : ∀ x s, Stops s → read (text x ++ s) = some (x, s)) (hcons : ∀ x, ∃ d s, text x = d :: s ∧ d ≠ '*')
    {rest : List Char} (hstops : Stops rest) (hrest : read rest = none) (xs : List β) :
    readAll read (xs.flatMap text ++ rest).length (xs.flatMap text ++ rest) = (xs, rest) := by
  have hfuel : ∀ fuel, xs.length ≤ fuel → readAll read fuel (xs.flatMap text ++ rest) = (xs, rest) := by
    induction xs with
    | nil =>
      intro fuel _
      cases fuel with
      | zero => rfl
      | succ fuel => rw [List.flatMap_nil, List.nil_append, readAll, hrest]
    | cons x xs ih =>
      intro fuel hlength
      obtain ⟨fuel, rfl⟩ := Nat.exists_eq_add_of_le' (Nat.le_trans (Nat.le_add_left 1 xs.length) hlength)
      have hnext : Stops (xs.flatMap text ++ rest) := by
        cases xs with
        | nil => exact hstops
        | cons y ys =>
          obtain ⟨d, s, htext, hd⟩ := hcons y
          rw [List.flatMap_cons, htext]
          exact Stops.cons hd _
      rw [List.flatMap_cons, List.append_assoc, readAll, hread x _ hnext]
      dsimp only
      rw [ih fuel (Nat.le_of_succ_le_succ hlength)]
  refine hfuel _ ?_
  rw [List.length_append, List.length_flatMap]
  refine Nat.le_trans ?_ (Nat.le_add_right _ _)
  have hsum := List.length_le_sum_of_one_le (xs.map fun x => (text x).length) ?_
  · rwa [List.length_map] at hsum
  · intro length hlength
    obtain ⟨x, -, rfl⟩ := List.mem_map.mp hlength
    obtain ⟨d, s, htext, -⟩ := hcons x
    rw [htext]
    exact Nat.le_add_left 1 _

/-- An item is read as it is written. -/
theorem readItem_text (item : Item) {s : List Char} (hs : Stops s) : readItem (item.text ++ s) = some (item, s) := by
  cases item with
  | single piece =>
    obtain ⟨d, rest, htext, hd⟩ := piece.text_cons
    have hread : readItem (piece.text ++ s) = (readPiece (piece.text ++ s)).map fun (piece, rest) => (.single piece, rest) := by
      rw [htext, List.cons_append, readItem]
      rintro rest' heq
      obtain ⟨rfl, -⟩ := List.cons.inj heq
      exact absurd hd (by decide)
    rw [Item.text, hread, readPiece_text piece hs]
    rfl
  | optional group =>
    have hclose : Stops (')' :: '?' :: s) := Stops.cons (by decide) ('?' :: s)
    have hgroup := readAll_text (fun x s hs => readPiece_text x hs) (fun x => exists_cons_ne_star x.text_cons) hclose rfl group
    have htext : (Item.optional group).text ++ s = '(' :: '?' :: ':' :: (group.flatMap Piece.text ++ ')' :: '?' :: s) := by
      rw [Item.text, List.append_assoc, List.append_assoc]
      rfl
    rw [htext, readItem, hgroup]
    rfl

/-- An expression is read from its text. -/
theorem readPattern_text (p : Pattern) : readPattern p.text = some p := by
  obtain ⟨fromStart, items, toEnd⟩ := p
  have hread : ∀ rest, Stops rest → readItem rest = none →
      readAll readItem (items.flatMap Item.text ++ rest).length (items.flatMap Item.text ++ rest) = (items, rest) :=
    fun rest hstops hrest => readAll_text (fun x s hs => readItem_text x hs) (fun x => exists_cons_ne_star x.text_cons) hstops hrest items
  have hbody : readAll readItem (items.flatMap Item.text ++ if toEnd then ['$'] else []).length
      (items.flatMap Item.text ++ if toEnd then ['$'] else []) = (items, if toEnd then ['$'] else []) := by
    cases toEnd with
    | false => exact hread [] (fun h => absurd h (by decide)) rfl
    | true => exact hread ['$'] (Stops.cons (by decide) []) rfl
  have hclose : closePattern fromStart (items, if toEnd then ['$'] else []) = some ⟨fromStart, items, toEnd⟩ := by
    cases toEnd <;> rfl
  rw [Pattern.text, List.append_assoc]
  dsimp only
  cases fromStart with
  | true => exact (congrArg (closePattern true) hbody).trans hclose
  | false =>
    have hstart : ∀ s, items.flatMap Item.text ++ (if toEnd then ['$'] else []) ≠ '^' :: s := by
      intro s heq
      cases items with
      | nil =>
        cases toEnd with
        | false => exact absurd heq (List.cons_ne_nil '^' s).symm
        | true => exact absurd (List.cons.inj heq).1 (by decide)
      | cons item items =>
        obtain ⟨d, t, htext, hd⟩ := item.text_cons
        rw [List.flatMap_cons, htext] at heq
        obtain rfl : d = '^' := (List.cons.inj heq).1
        exact hd (by decide)
    rw [if_neg (by decide), List.nil_append, readPattern]
    · rw [hbody, hclose]
    · exact hstart

/-- Different expressions have different texts. -/
theorem Pattern.text_injective : Function.Injective Pattern.text := by
  intro p q htext
  have hread := readPattern_text p
  rw [htext, readPattern_text] at hread
  exact (Option.some.inj hread).symm

end Forge.Common.Regex
