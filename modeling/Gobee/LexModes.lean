/-
# Comments and literals of Go

A scanner reads a Go file from left to right and is, at every character, in one mode: in
code, in a comment, or in a literal.  A text that takes the scanner from code to code can be
put anywhere between declarations.

* `scan` : the mode after a text;
* `Inert` : a text of characters that change no mode;
* `ClosedText` : a text from code to code, with `ClosedText.append` and `ClosedText.flatMap`;
* `rawString` : what is read behind the opening quote of a raw string.
-/
import Mathlib.Data.List.Basic

namespace LexModes

/-- The quote of raw strings. -/
abbrev backquote : Char := Char.ofNat 96

/-- Where the scanner is. -/
inductive Mode where
  | code
  /-- behind a slash, in code -/
  | slash
  | lineComment
  | blockComment
  /-- behind a star, in a block comment -/
  | star
  | string
  /-- behind a backslash, in a string -/
  | stringEscape
  | rune
  | runeEscape
  | raw
  /-- behind a newline in a string or a rune -/
  | broken
  deriving DecidableEq, Repr

namespace Mode

/-- A character in code. -/
def stepCode (c : Char) : Mode :=
  if c = '/' then slash
  else if c = '"' then string
  else if c = '\'' then rune
  else if c = backquote then raw
  else code

/-- The mode after a character. -/
def step : Mode → Char → Mode
  | code, c => stepCode c
  | slash, c => if c = '/' then lineComment else if c = '*' then blockComment else stepCode c
  | lineComment, c => if c = '\n' then code else lineComment
  | blockComment, c => if c = '*' then star else blockComment
  | star, c => if c = '/' then code else if c = '*' then star else blockComment
  | string, c =>
      if c = '"' then code
      else if c = '\\' then stringEscape
      else if c = '\n' then broken
      else string
  | stringEscape, c => if c = '\n' then broken else string
  | rune, c =>
      if c = '\'' then code
      else if c = '\\' then runeEscape
      else if c = '\n' then broken
      else rune
  | runeEscape, c => if c = '\n' then broken else rune
  | raw, c => if c = backquote then code else raw
  | broken, _ => broken

end Mode

open Mode

/-- The mode after a text. -/
def scan (m : Mode) (s : List Char) : Mode := s.foldl step m

theorem scan_append (m : Mode) (s t : List Char) : scan m (s ++ t) = scan (scan m s) t :=
  List.foldl_append

theorem scan_cons (m : Mode) (c : Char) (s : List Char) : scan m (c :: s) = scan (m.step c) s := rfl

/-! ## Inert texts -/

/-- The characters that may change a mode. -/
def isActive (c : Char) : Bool :=
  c == '/' || c == '*' || c == '"' || c == '\'' || c == '\\' || c == '\n' || c == backquote

/-- A text of characters that change no mode. -/
def Inert (s : List Char) : Prop := ∀ c ∈ s, isActive c = false

/-- The mode behind an inert text: a slash, a star and a backslash count for the next
character only. -/
def settled : Mode → Mode
  | slash => code
  | .star => blockComment
  | stringEscape => string
  | runeEscape => rune
  | m => m

theorem step_inert {c : Char} (h : isActive c = false) (m : Mode) : m.step c = settled m := by
  simp only [isActive, Bool.or_eq_false_iff, beq_eq_false_iff_ne] at h
  obtain ⟨⟨⟨⟨⟨⟨h1, h2⟩, h3⟩, h4⟩, h5⟩, h6⟩, h7⟩ := h
  cases m <;> simp [step, stepCode, settled, h1, h2, h3, h4, h5, h6, h7]

theorem settle_settle (m : Mode) : settled (settled m) = settled m := by cases m <;> rfl

/-- An inert text settles the mode. -/
theorem scan_inert {s : List Char} (h : Inert s) (hne : s ≠ []) (m : Mode) :
    scan m s = settled m := by
  induction s generalizing m with
  | nil => exact absurd rfl hne
  | cons c s ih =>
      rw [Inert, List.forall_mem_cons] at h
      rw [scan_cons, step_inert h.1]
      cases s with
      | nil => rfl
      | cons d s => rw [ih h.2 (List.cons_ne_nil d s), settle_settle]

/-- An inert text leaves a settled mode. -/
theorem scan_settled {s : List Char} (h : Inert s) {m : Mode} (hm : settled m = m) :
    scan m s = m := by
  cases s with
  | nil => rfl
  | cons c s => rw [scan_inert h (List.cons_ne_nil c s), hm]

theorem Inert.nil : Inert [] := fun _ hc => absurd hc List.not_mem_nil

theorem Inert.append {s t : List Char} (hs : Inert s) (ht : Inert t) : Inert (s ++ t) := by
  intro c hc
  rcases List.mem_append.mp hc with hc | hc
  · exact hs c hc
  · exact ht c hc

/-- A line comment goes on up to the newline. -/
theorem scan_lineComment {s : List Char} (h : '\n' ∉ s) : scan lineComment s = lineComment := by
  induction s with
  | nil => rfl
  | cons c s ih =>
      rw [List.mem_cons, not_or] at h
      rw [scan_cons, step, if_neg (Ne.symm h.1), ih h.2]

/-- A raw string goes on up to the backquote. -/
theorem scan_raw {s : List Char} (h : backquote ∉ s) : scan raw s = raw := by
  induction s with
  | nil => rfl
  | cons c s ih =>
      rw [List.mem_cons, not_or] at h
      rw [scan_cons, step, if_neg (Ne.symm h.1), ih h.2]

/-! ## ClosedText texts -/

/-- The text takes the scanner from code to code. -/
def ClosedText (s : List Char) : Prop := scan code s = code

instance (s : List Char) : Decidable (ClosedText s) := inferInstanceAs (Decidable (_ = _))

theorem ClosedText.nil : ClosedText [] := rfl

theorem ClosedText.append {s t : List Char} (hs : ClosedText s) (ht : ClosedText t) : ClosedText (s ++ t) := by
  rw [ClosedText, scan_append, hs, ht]

theorem ClosedText.flatMap {α : Type} {xs : List α} {f : α → List Char} (h : ∀ x ∈ xs, ClosedText (f x)) :
    ClosedText (xs.flatMap f) := by
  induction xs with
  | nil => exact ClosedText.nil
  | cons x xs ih =>
      rw [List.forall_mem_cons] at h
      rw [List.flatMap_cons]
      exact h.1.append (ih h.2)

theorem Inert.closed {s : List Char} (h : Inert s) : ClosedText s := scan_settled h rfl

/-! ## Raw strings -/

/-- The value of a raw string and what follows it, from behind its opening quote; carriage
returns are no part of the value. -/
def rawString : List Char → Option (List Char × List Char)
  | [] => none
  | c :: s =>
      if c = backquote then some ([], s)
      else (rawString s).map fun r => (if c = '\r' then r.1 else c :: r.1, r.2)

/-- **A raw string has a text as its value exactly when the text has no backquote and no
carriage return.** -/
theorem rawString_iff (v rest : List Char) :
    rawString (v ++ backquote :: rest) = some (v, rest) ↔ backquote ∉ v ∧ '\r' ∉ v := by
  have hquote : ∀ {s : List Char} {r : List Char × List Char}, rawString s = some r →
      backquote ∉ r.1 ∧ '\r' ∉ r.1 := by
    intro s
    induction s with
    | nil => intro r h; cases h
    | cons c s ih =>
        intro r h
        rw [rawString] at h
        by_cases hc : c = backquote
        · rw [if_pos hc] at h
          cases h
          exact ⟨List.not_mem_nil, List.not_mem_nil⟩
        · rw [if_neg hc] at h
          obtain ⟨q, hq, rfl⟩ := Option.map_eq_some_iff.mp h
          obtain ⟨h1, h2⟩ := ih hq
          dsimp only
          split_ifs with hcr
          · exact ⟨h1, h2⟩
          · exact ⟨by simp [h1, Ne.symm hc], by simp [h2, Ne.symm hcr]⟩
  refine ⟨fun h => hquote h, ?_⟩
  rintro ⟨h1, h2⟩
  induction v with
  | nil => rw [List.nil_append, rawString, if_pos rfl]
  | cons c v ih =>
      rw [List.mem_cons, not_or] at h1 h2
      rw [List.cons_append, rawString, if_neg (Ne.symm h1.1), ih h1.2 h2.2, Option.map_some,
        if_neg (Ne.symm h2.1)]

end LexModes
