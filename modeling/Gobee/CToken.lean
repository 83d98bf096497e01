/-
# C tokens and maximal-munch lexing

A reusable model of C's translation phase 3, restricted to what stands inside an
expression: identifiers, preprocessing numbers, character constants, string
literals and punctuators, separated by blanks.  The lexer is a state machine that
reads one character at a time and extends the current token for as long as the
character still fits it, which is C's maximal munch because the set of punctuators
below is closed under prefixes.

* `lex` : the lexer;
* `Separated` : a list of pieces (spelling, blank after it or not) in which every
  spelling is one token and no two neighbours without a blank fuse;
* `lex_joinPieces_iff` : the text of a list of pieces is read back as exactly these
  tokens if and only if the list is `Separated`.

Comments, `...` and digraphs are not tokens here: a text that contains one is
rejected or read as punctuators, never as an operand.
-/
import Mathlib.Tactic

/-- Text as a list of characters; every emitted buffer is one. -/
abbrev Text := List Char

instance : Coe String Text := ⟨String.toList⟩

instance : LawfulBEq Text := inferInstance

namespace CSyntax

/-! ## Character classes and punctuators -/

/-- A character an identifier may start with.  Every character above ASCII counts
as a letter, as extended characters do in clang. -/
def isIdentStart (c : Char) : Bool := c.isAlpha || c == '_' || 127 < c.toNat

/-- A character an identifier may go on with. -/
def isIdentChar (c : Char) : Bool := isIdentStart c || c.isDigit

/-- The blanks between the tokens of one expression. -/
def isBlank (c : Char) : Bool := c == ' ' || c == '\t' || c == '\n'

/-- The punctuators of C, closed under non-empty prefixes. -/
def puncts : List Text :=
  ["[", "]", "(", ")", "\x7b", "\x7d", ".", "->", "++", "--", "&", "*", "+", "-", "~", "!",
    "/", "%", "<<", ">>", "<", ">", "<=", ">=", "==", "!=", "^", "|", "&&", "||",
    "?", ":", ";", "=", "*=", "/=", "%=", "+=", "-=", "<<=", ">>=", "&=", "^=", "|=",
    ",", "#", "##"]

/-! ## The lexer -/

/-- What kind of token is being read. -/
inductive Mode where
  | ident
  | number
  | punct
  /-- inside a literal opened by `quote`; `esc` after a backslash -/
  | quoted (quote : Char) (esc : Bool)
  /-- after the closing quote -/
  | closed
  deriving DecidableEq, Repr

/-- The token being read: its mode and its characters so far. -/
structure Partial where
  mode : Mode
  text : Text
  deriving DecidableEq, Repr

/-- The token a character starts. -/
def start (c : Char) : Option Partial :=
  if isIdentStart c then some ⟨.ident, [c]⟩
  else if c.isDigit then some ⟨.number, [c]⟩
  else if c == '"' || c == '\'' then some ⟨.quoted c false, [c]⟩
  else if [c] ∈ puncts then some ⟨.punct, [c]⟩
  else none

/-- In a preprocessing number a sign may follow an exponent letter. -/
def signFits (acc : Text) (c : Char) : Bool :=
  (c == '+' || c == '-') &&
    (acc.getLast? == some 'e' || acc.getLast? == some 'E' ||
      acc.getLast? == some 'p' || acc.getLast? == some 'P')

/-- The token extended by one more character, if the character fits it. -/
def extend (p : Partial) (c : Char) : Option Partial :=
  match p.mode with
  | .ident => if isIdentChar c then some ⟨.ident, p.text ++ [c]⟩ else none
  | .number =>
      if isIdentChar c || c == '.' || signFits p.text c then some ⟨.number, p.text ++ [c]⟩
      else none
  | .punct =>
      if p.text ++ [c] ∈ puncts then some ⟨.punct, p.text ++ [c]⟩
      else if p.text == ['.'] && c.isDigit then some ⟨.number, p.text ++ [c]⟩
      else none
  | .quoted q true => some ⟨.quoted q false, p.text ++ [c]⟩
  | .quoted q false =>
      if c == q then some ⟨.closed, p.text ++ [c]⟩
      else if c == '\\' then some ⟨.quoted q true, p.text ++ [c]⟩
      else some ⟨.quoted q false, p.text ++ [c]⟩
  | .closed => none

/-- The finished token, unless a literal is still open. -/
def finish (p : Partial) : Option Text :=
  match p.mode with
  | .quoted _ _ => none
  | _ => some p.text

/-- The lexer proper; `p` is the token being read, if any. -/
@[grind =]
def lexFrom : Option Partial → Text → Option (List Text)
  | none, [] => some []
  | some p, [] => (finish p).map fun t => [t]
  | none, c :: cs =>
      if isBlank c then lexFrom none cs
      else match start c with
        | none => none
        | some q => lexFrom (some q) cs
  | some p, c :: cs =>
      match extend p c with
      | some q => lexFrom (some q) cs
      | none =>
          match finish p with
          | none => none
          | some t =>
              if isBlank c then (lexFrom none cs).map (t :: ·)
              else match start c with
                | none => none
                | some q => (lexFrom (some q) cs).map (t :: ·)

/-- The tokens of a text, `none` if it is not a sequence of tokens. -/
def lex (s : Text) : Option (List Text) := lexFrom none s

/-! ## Single tokens -/

/-- Read on from a partial token without ever finishing it. -/
def scanFrom : Partial → Text → Option Partial
  | p, [] => some p
  | p, c :: cs => (extend p c).bind fun q => scanFrom q cs

/-- Read a whole text as one token. -/
def scan : Text → Option Partial
  | [] => none
  | c :: cs => if isBlank c then none else (start c).bind fun p => scanFrom p cs

/-- The text is exactly one token. -/
def isToken (w : Text) : Bool :=
  match scan w with
  | none => false
  | some p => (finish p).isSome

/-- A token followed directly by `c` would be read on past its end. -/
def fusesWith (w : Text) (c : Char) : Bool :=
  match scan w with
  | none => false
  | some p => (extend p c).isSome

theorem start_text {c : Char} {p : Partial} (h : start c = some p) : p.text = [c] := by
  unfold start at h
  split_ifs at h <;> simp only [Option.some.injEq] at h <;> rw [← h]

theorem extend_text {p q : Partial} {c : Char} (h : extend p c = some q) :
    q.text = p.text ++ [c] := by
  unfold extend at h
  split at h <;> (try split_ifs at h) <;>
    first
      | (simp only [Option.some.injEq] at h; rw [← h])
      | simp at h

theorem finish_eq {p : Partial} {t : Text} (h : finish p = some t) : t = p.text := by
  unfold finish at h
  split at h
  · simp at h
  · exact (Option.some.inj h).symm

theorem scanFrom_text {w : Text} :
    ∀ {p q : Partial}, scanFrom p w = some q → q.text = p.text ++ w := by
  induction w with
  | nil =>
      intro p q h
      rw [scanFrom, Option.some.injEq] at h
      rw [h, List.append_nil]
  | cons c cs ih =>
      intro p q h
      rw [scanFrom] at h
      obtain ⟨p', hp', hq⟩ := Option.bind_eq_some_iff.mp h
      rw [ih hq, extend_text hp']
      simp

theorem scan_text {w : Text} {q : Partial} (h : scan w = some q) : q.text = w := by
  cases w with
  | nil => simp [scan] at h
  | cons c cs =>
      rw [scan] at h
      split_ifs at h
      obtain ⟨p, hp, hq⟩ := Option.bind_eq_some_iff.mp h
      rw [scanFrom_text hq, start_text hp]
      rfl

/-- A token does not start with a blank. -/
theorem scan_head_not_blank {c : Char} {cs : Text} {q : Partial}
    (h : scan (c :: cs) = some q) : isBlank c = false := by
  rw [scan] at h
  split_ifs at h with hb
  simpa using hb

/-- A blank always ends a finished token. -/
theorem extend_blank {p : Partial} {t : Text} {c : Char} (hp : finish p = some t)
    (hc : isBlank c = true) : extend p c = none := by
  obtain ⟨mode, text⟩ := p
  have hcs : c = ' ' ∨ c = '\t' ∨ c = '\n' := by
    simpa [isBlank, or_assoc] using hc
  cases mode with
  | ident => rcases hcs with rfl | rfl | rfl <;> simp [extend] <;> decide
  | number =>
      rcases hcs with rfl | rfl | rfl <;> simp [extend, signFits] <;> decide
  | punct =>
      have hlast : ∀ w ∈ puncts, w.getLast? ≠ some c := by
        rcases hcs with rfl | rfl | rfl <;> decide
      have hnot : text ++ [c] ∉ puncts := fun hmem => hlast _ hmem (by simp)
      have hdig : c.isDigit = false := by rcases hcs with rfl | rfl | rfl <;> decide
      simp [extend, hnot, hdig]
  | quoted q esc => simp [finish] at hp
  | closed => rfl

/-! ## Reading a text token by token -/

/-- Characters that extend the current token are consumed without output. -/
theorem lexFrom_scanFrom {w : Text} (rest : Text) :
    ∀ {p q : Partial}, scanFrom p w = some q →
      lexFrom (some p) (w ++ rest) = lexFrom (some q) rest := by
  induction w with
  | nil =>
      intro p q h
      rw [scanFrom, Option.some.injEq] at h
      rw [h, List.nil_append]
  | cons c cs ih =>
      intro p q h
      rw [scanFrom] at h
      obtain ⟨p', hp', hq⟩ := Option.bind_eq_some_iff.mp h
      rw [List.cons_append, lexFrom, hp']
      exact ih hq

/-- A token at the front of the text is read up to its end. -/
theorem lex_scan {w : Text} {q : Partial} (rest : Text) (h : scan w = some q) :
    lexFrom none (w ++ rest) = lexFrom (some q) rest := by
  cases w with
  | nil => simp [scan] at h
  | cons c cs =>
      have hb := scan_head_not_blank h
      rw [scan] at h
      split_ifs at h
      obtain ⟨p, hp, hq⟩ := Option.bind_eq_some_iff.mp h
      rw [List.cons_append, lexFrom, hb, hp]
      exact lexFrom_scanFrom rest hq

/-- Once the next character does not fit, the token is put out and lexing starts
afresh. -/
theorem lexFrom_stop {p : Partial} {t rest : Text} (hp : finish p = some t)
    (hrest : ∀ c ∈ rest.head?, extend p c = none) :
    lexFrom (some p) rest = (lexFrom none rest).map (t :: ·) := by
  cases rest with
  | nil => simp [lexFrom, hp]
  | cons c cs =>
      have hc : extend p c = none := hrest c (by simp)
      rw [lexFrom, lexFrom, hc, hp]
      by_cases hb : isBlank c = true
      · simp [hb]
      · cases hs : start c <;> simp [hb]

/-- The converse reading: the first token put out is a longest one. -/
theorem lexFrom_some_cons {s : Text} :
    ∀ {p : Partial} {t : Text} {ts : List Text}, lexFrom (some p) s = some (t :: ts) →
      ∃ w rest q, s = w ++ rest ∧ scanFrom p w = some q ∧ finish q = some t ∧
        (∀ c ∈ rest.head?, extend q c = none) ∧ lexFrom none rest = some ts := by
  induction s with
  | nil =>
      intro p t ts h
      rw [lexFrom] at h
      obtain ⟨t', ht', hcons⟩ := Option.map_eq_some_iff.mp h
      rw [List.cons.injEq] at hcons
      refine ⟨[], [], p, rfl, rfl, ?_, by simp, ?_⟩
      · rw [ht', hcons.1]
      · rw [← hcons.2, lexFrom]
  | cons c cs ih =>
      intro p t ts h
      cases he : extend p c with
      | some q =>
          rw [lexFrom, he] at h
          obtain ⟨w, rest, q', hs, hscan, hfin, hstop, hlex⟩ := ih h
          refine ⟨c :: w, rest, q', by rw [hs, List.cons_append], ?_, hfin, hstop, hlex⟩
          rw [scanFrom, he]
          exact hscan
      | none =>
          cases hf : finish p with
          | none => rw [lexFrom, he, hf] at h; simp at h
          | some t' =>
              have hstop : ∀ d ∈ (c :: cs).head?, extend p d = none := by simpa using he
              rw [lexFrom_stop hf hstop] at h
              obtain ⟨ts', hts', hcons⟩ := Option.map_eq_some_iff.mp h
              rw [List.cons.injEq] at hcons
              refine ⟨[], c :: cs, p, rfl, rfl, ?_, hstop, ?_⟩
              · rw [hf, hcons.1]
              · rw [hts', hcons.2]

/-- While a token is being read, some token will come out. -/
theorem lexFrom_some_ne_nil {s : Text} :
    ∀ {p : Partial}, lexFrom (some p) s ≠ some [] := by
  induction s with
  | nil => intro p; simp [lexFrom]
  | cons c cs ih =>
      intro p
      cases he : extend p c with
      | some q => rw [lexFrom, he]; exact ih
      | none =>
          cases hf : finish p with
          | none => rw [lexFrom, he, hf]; simp
          | some t =>
              rw [lexFrom_stop hf (by simpa using he)]
              simp

/-- The first token of a text: blanks, then a longest token, then the rest. -/
theorem lex_cons {s : Text} :
    ∀ {t : Text} {ts : List Text}, lexFrom none s = some (t :: ts) →
      ∃ ws rest q, s = ws ++ t ++ rest ∧ (∀ c ∈ ws, isBlank c = true) ∧ scan t = some q ∧
        finish q = some t ∧ (∀ c ∈ rest.head?, extend q c = none) ∧
        lexFrom none rest = some ts := by
  induction s with
  | nil => intro t ts h; simp [lexFrom] at h
  | cons c cs ih =>
      intro t ts h
      rw [lexFrom] at h
      by_cases hb : isBlank c = true
      · rw [if_pos hb] at h
        obtain ⟨ws, rest, q, hs, hws, hscan, hfin, hstop, hlex⟩ := ih h
        refine ⟨c :: ws, rest, q, by rw [hs]; rfl, ?_, hscan, hfin, hstop, hlex⟩
        intro d hd
        rcases List.mem_cons.mp hd with rfl | hd
        · exact hb
        · exact hws d hd
      · rw [if_neg hb] at h
        cases hst : start c with
        | none => rw [hst] at h; simp at h
        | some p =>
            rw [hst] at h
            obtain ⟨w, rest, q, hs, hscan, hfin, hstop, hlex⟩ := lexFrom_some_cons h
            have ht : t = c :: w := by
              rw [finish_eq hfin, scanFrom_text hscan, start_text hst]
              rfl
            refine ⟨[], rest, q, by rw [hs, ht]; rfl, by simp, ?_, hfin, hstop, hlex⟩
            rw [ht, scan, if_neg hb, hst]
            exact hscan

/-- A text without tokens is blank. -/
theorem lex_nil {s : Text} : lexFrom none s = some [] → ∀ c ∈ s, isBlank c = true := by
  induction s with
  | nil => intro _; simp
  | cons c cs ih =>
      intro h
      rw [lexFrom] at h
      by_cases hb : isBlank c = true
      · rw [if_pos hb] at h
        intro d hd
        rcases List.mem_cons.mp hd with rfl | hd
        · exact hb
        · exact ih h d hd
      · rw [if_neg hb] at h
        cases hst : start c with
        | none => rw [hst] at h; simp at h
        | some p => rw [hst] at h; exact absurd h lexFrom_some_ne_nil

/-- Every token the lexer puts out is one token. -/
theorem isToken_of_mem_lex {ts : List Text} :
    ∀ {s : Text}, lexFrom none s = some ts → ∀ t ∈ ts, isToken t = true := by
  induction ts with
  | nil => intro s _ t ht; simp at ht
  | cons t ts ih =>
      intro s h u hu
      obtain ⟨ws, rest, q, hs, hws, hscan, hfin, hstop, hlex⟩ := lex_cons h
      rcases List.mem_cons.mp hu with rfl | hu
      · simp [isToken, hscan, hfin]
      · exact ih hlex u hu

/-- The characters of a text other than blanks. -/
def squeeze (s : Text) : Text := s.filter fun c => !isBlank c

theorem squeeze_append (a b : Text) : squeeze (a ++ b) = squeeze a ++ squeeze b :=
  List.filter_append ..

theorem squeeze_blank {s : Text} (h : ∀ c ∈ s, isBlank c = true) : squeeze s = [] := by
  rw [squeeze, List.filter_eq_nil_iff]
  intro c hc
  simp [h c hc]

/-- Lexing only drops blanks. -/
theorem squeeze_lex {ts : List Text} :
    ∀ {s : Text}, lexFrom none s = some ts → squeeze s = ts.flatMap squeeze := by
  induction ts with
  | nil => intro s h; exact squeeze_blank (lex_nil h)
  | cons t ts ih =>
      intro s h
      obtain ⟨ws, rest, q, hs, hws, hscan, hfin, hstop, hlex⟩ := lex_cons h
      rw [hs, squeeze_append, squeeze_append, squeeze_blank hws, ih hlex, List.flatMap_cons]
      rfl

/-! ## Pieces: tokens with the blanks between them -/

/-- A spelling and whether a blank is printed after it. -/
abbrev Piece := Text × Bool

/-- The text of a list of pieces. -/
def joinPieces : List Piece → Text
  | [] => []
  | (w, sp) :: ps => w ++ (if sp then [' '] else []) ++ joinPieces ps

/-- Every spelling is one token, and none fuses with the text printed right after it. -/
def Separated : List Piece → Prop
  | [] => True
  | (w, sp) :: ps =>
      isToken w = true ∧ (sp = true ∨ ∀ c ∈ (joinPieces ps).head?, fusesWith w c = false) ∧
        Separated ps

instance decidableSeparated : (ps : List Piece) → Decidable (Separated ps)
  | [] => inferInstanceAs (Decidable True)
  | (w, sp) :: ps =>
      have := decidableSeparated ps
      inferInstanceAs (Decidable (isToken w = true ∧
        (sp = true ∨ ∀ c ∈ (joinPieces ps).head?, fusesWith w c = false) ∧ Separated ps))

@[simp] theorem joinPieces_append (ps qs : List Piece) :
    joinPieces (ps ++ qs) = joinPieces ps ++ joinPieces qs := by
  induction ps with
  | nil => rfl
  | cons p ps ih =>
      obtain ⟨w, sp⟩ := p
      simp [joinPieces, ih]

theorem squeeze_joinPieces (ps : List Piece) :
    squeeze (joinPieces ps) = (ps.map Prod.fst).flatMap squeeze := by
  induction ps with
  | nil => rfl
  | cons p ps ih =>
      obtain ⟨w, sp⟩ := p
      have hgap : squeeze (if sp then [' '] else []) = [] := by cases sp <;> rfl
      rw [joinPieces, squeeze_append, squeeze_append, hgap, ih]
      simp

theorem exists_scan_of_isToken {w : Text} (h : isToken w = true) :
    ∃ q, scan w = some q ∧ finish q = some w := by
  unfold isToken at h
  split at h
  · simp at h
  · rename_i q hq
    obtain ⟨t, ht⟩ := Option.isSome_iff_exists.mp h
    exact ⟨q, hq, by rw [ht, finish_eq ht, scan_text hq]⟩

theorem lex_of_separated : ∀ {ps : List Piece}, Separated ps →
    lex (joinPieces ps) = some (ps.map Prod.fst)
  | [], _ => rfl
  | (w, sp) :: ps, h => by
      obtain ⟨htok, hgap, hrest⟩ := h
      obtain ⟨q, hq, hfin⟩ := exists_scan_of_isToken htok
      have ih : lexFrom none (joinPieces ps) = some (ps.map Prod.fst) := lex_of_separated hrest
      rw [lex, joinPieces, List.append_assoc, lex_scan _ hq]
      have hstop : ∀ c ∈ ((if sp then [' '] else []) ++ joinPieces ps).head?,
          extend q c = none := by
        intro c hc
        cases sp with
        | true =>
            have hcs : c = ' ' := by simpa [eq_comm] using hc
            exact extend_blank hfin (by rw [hcs]; rfl)
        | false =>
            have hfuse : fusesWith w c = false := by
              rcases hgap with hsp | hgap
              · simp at hsp
              · exact hgap c (by simpa using hc)
            simpa [fusesWith, hq] using hfuse
      rw [lexFrom_stop hfin hstop]
      cases sp with
      | true => simp [lexFrom, isBlank, ih]
      | false => simp [ih]

theorem separated_of_lex : ∀ {ps : List Piece},
    lex (joinPieces ps) = some (ps.map Prod.fst) → Separated ps
  | [], _ => trivial
  | (w, sp) :: ps, h => by
      rw [lex, joinPieces, List.append_assoc, List.map_cons] at h
      obtain ⟨ws, rest, q, hs, hws, hscan, hfin, hstop, hlex⟩ := lex_cons h
      -- the token starts with a non-blank character, so no blank stands before it
      have hnil : ws = [] := by
        cases ws with
        | nil => rfl
        | cons b bs =>
            cases w with
            | nil => simp [scan] at hscan
            | cons c cs =>
                rw [List.cons_append, List.cons_append, List.cons_append,
                  List.cons.injEq] at hs
                have hb := hws b (by simp)
                rw [← hs.1, scan_head_not_blank hscan] at hb
                simp at hb
      rw [hnil, List.nil_append] at hs
      have hrest := List.append_cancel_left hs
      refine ⟨by simp [isToken, hscan, hfin], ?_, ?_⟩
      · cases sp with
        | true => exact Or.inl rfl
        | false =>
            refine Or.inr fun c hc => ?_
            have hc' : c ∈ rest.head? := by rw [← hrest]; simpa using hc
            simp [fusesWith, hscan, hstop c hc']
      · apply separated_of_lex
        rw [lex, ← hlex, ← hrest]
        cases sp with
        | true => simp [lexFrom, isBlank]
        | false => simp

/-- **Maximal munch reads the pieces back exactly when they are separated.** -/
theorem lex_joinPieces_iff (ps : List Piece) :
    lex (joinPieces ps) = some (ps.map Prod.fst) ↔ Separated ps :=
  ⟨separated_of_lex, lex_of_separated⟩

example : lex "--x".toList = some ["--".toList, "x".toList] := by decide

end CSyntax
