/-
# The parameters of a helper

`tools/genhelpers` reads the parameter list of every C helper: `splitTopLevel` cuts the list
at its commas, the last space of a part stands before the name, and the stars in front of the
name go to the type.

* `utf8_splitParams` : the loop over the bytes of a list cuts the same parts;
* `parseParams_roundTrip` : **printed parameters are read back, and `splitTopLevel` loses
  nothing and never splits inside parentheses, unless one was closed that was not open**;
* `unmatched_split` : behind such a parenthesis it does.
-/
import Gobee.CString
import Gobee.DepthSplit
import Gobee.HelperNames
import Gobee.MapText

namespace Gobee

open CSyntax DepthSplit

/-! ## The generator -/

/-- `param`. -/
structure Param where
  cType : Text
  name : Text
  goTyp : Text
  deriving DecidableEq, Repr

/-- `splitTopLevel`, over the bytes of a string. -/
def splitTopLevel (s : List UInt8) (sep : UInt8) : List (List UInt8) :=
  split (40 : UInt8) 41 sep s

/-- `splitTopLevel(raw, ',')`, over the characters. -/
def splitParams (raw : Text) : List Text := split '(' ')' ',' raw

/-- A text up to its last space, and the rest behind it. -/
def cutLastSpace : Text → Option (Text × Text)
  | [] => none
  | c :: cs =>
      match cutLastSpace cs with
      | some (before, after) => some (c :: before, after)
      | none => if c = ' ' then some ([], cs) else none

theorem length_trimSpace_le (s : Text) : (trimSpace s).length ≤ s.length := by
  have h₁ := (List.dropWhile_sublist (p := isSpace) (l := s)).length_le
  have h₂ := (List.dropWhile_sublist (p := isSpace) (l := (s.dropWhile isSpace).reverse)).length_le
  rw [List.length_reverse] at h₂
  rw [trimSpace, List.length_reverse]
  omega

/-- The loop that moves the stars from the name to the type. -/
def moveStars (typ : Text) : Text → Text × Text
  | '*' :: name => moveStars (typ ++ " *") (trimSpace name)
  | name => (typ, name)
termination_by name => name.length
decreasing_by exact Nat.lt_succ_of_le (length_trimSpace_le name)

/-- The names that `sanitizeParamName` changes. -/
def reservedParamNames : List Text :=
  ["type", "func", "map", "range", "chan", "select", "case", "default", "go", "var", "const",
    "import", "package", "interface", "struct"]

/-- `sanitizeParamName`. -/
def sanitizeParamName (name : Text) : Text :=
  if name = [] then "arg" else if name ∈ reservedParamNames then name ++ "_" else name

/-- The body of the loop of `parseParams`, for one part of the list. -/
def parseParam (isPrint : Char → Bool) (part : Text) : Except Text Param :=
  let p := trimSpace part
  match cutLastSpace p with
  | none => .error ("unparseable parameter " ++ quoteWith isPrint p)
  | some (before, after) =>
      let moved := moveStars (trimSpace before) (trimSpace after)
      .ok ⟨moved.1, sanitizeParamName moved.2, []⟩

/-- `parseParams`; the error is the reason for which the helper is skipped. -/
def parseParams (isPrint : Char → Bool) (list : Text) : Except Text (List Param) :=
  let raw := trimSpace list
  if raw = "void" ∨ raw = [] then .ok []
  else if (afterFirst "..." raw).isSome then .error "variadic helpers are not yet supported"
  else (splitParams raw).mapM (parseParam isPrint)

/-! ## Bytes and characters -/

theorem height_utf8EncodeChar (c : Char) :
    height (40 : UInt8) 41 (String.utf8EncodeChar c) = delta '(' ')' c := by
  by_cases hc : c.toNat < 128
  · have hopen : UInt8.ofNat c.toNat = 40 ↔ c = '(' := ofNat_toNat_inj (a := '(') (by decide) hc
    have hclose : UInt8.ofNat c.toNat = 41 ↔ c = ')' := ofNat_toNat_inj (a := ')') (by decide) hc
    rw [utf8EncodeChar_ascii hc, height_cons, height_nil, add_zero, delta, delta]
    simp only [hopen, hclose]
  · have hplain : ∀ b ∈ String.utf8EncodeChar c, delta (40 : UInt8) 41 b = 0 := by
      intro b hb
      have hle := le_of_mem_utf8EncodeChar (by omega) hb
      rw [delta, if_neg (by rintro rfl; exact absurd hle (by decide)),
        if_neg (by rintro rfl; exact absurd hle (by decide))]
    rw [height_of_plain _ _ hplain, delta, if_neg (by rintro rfl; exact hc (by decide)),
      if_neg (by rintro rfl; exact hc (by decide))]

/-- The bytes of the parts are the parts of the bytes. -/
theorem utf8_splitParams (raw : Text) :
    splitTopLevel (utf8 raw) 44 = (splitParams raw).map utf8 :=
  split_flatMap (f := String.utf8EncodeChar) rfl
    (fun _ hc hmem => hc ((@mem_utf8EncodeChar ',' _ (by decide)).mp hmem))
    height_utf8EncodeChar (fun _ => String.utf8EncodeChar_ne_nil) raw

/-! ## Printed parameters -/

/-- An identifier of C.  A character above ASCII counts as a letter, if it is no white space. -/
def IsCIdent (w : Text) : Prop :=
  (∃ c, w.head? = some c ∧ isIdentStart c = true) ∧
    ∀ c ∈ w, isIdentChar c = true ∧ isSpace c = false

/-- A parameter as a header spells it: the words of its type, the stars, the name. -/
structure CParam where
  words : List Text
  stars : Nat
  name : Text

/-- The parameters that the generator promises to read back. -/
structure CParam.Plain (p : CParam) : Prop where
  words_ne : p.words ≠ []
  words : ∀ w ∈ p.words, IsCIdent w
  name : IsCIdent p.name
  name_free : p.name ∉ reservedParamNames

/-- The printed parameter, its stars at the name. -/
def CParam.text (p : CParam) : Text :=
  join " " p.words ++ ' ' :: (List.replicate p.stars '*' ++ p.name)

/-- A printed parameter list. -/
def paramsText (ps : List CParam) : Text := join ", " (ps.map CParam.text)

/-- The parameter that the generator should read. -/
def CParam.param (p : CParam) : Param :=
  ⟨join " " p.words ++ (List.replicate p.stars (" *" : Text)).flatten, p.name, []⟩

/-! ## Identifiers -/

theorem isIdentChar_of_isIdentStart {c : Char} (h : isIdentStart c = true) :
    isIdentChar c = true := by
  rw [isIdentChar, h, Bool.true_or]

section

variable {w : Text} (h : IsCIdent w)

include h

/-- Both ends of an identifier are visible. -/
theorem IsCIdent.ends :
    ∃ c t u d, w = c :: t ∧ w = u ++ [d] ∧ isIdentChar c = true ∧ isSpace c = false ∧
      isSpace d = false := by
  obtain ⟨⟨c, hhead, hc⟩, hall⟩ := h
  obtain ⟨t, rfl⟩ := List.head?_eq_some_iff.mp hhead
  have hlast := List.dropLast_append_getLast (List.cons_ne_nil c t)
  exact ⟨c, t, _, _, rfl, hlast.symm, isIdentChar_of_isIdentStart hc,
    (hall c List.mem_cons_self).2, (hall _ (List.getLast_mem _)).2⟩

theorem IsCIdent.ne_nil : w ≠ [] := by
  obtain ⟨c, t, -, -, rfl, -⟩ := h.ends
  exact List.cons_ne_nil c t

theorem sanitizeParamName_eq (hfree : w ∉ reservedParamNames) : sanitizeParamName w = w := by
  rw [sanitizeParamName, if_neg h.ne_nil, if_neg hfree]

end

theorem afterFirst_none {c : Char} (key : Text) {s : Text} (h : c ∉ s) :
    afterFirst (c :: key) s = none := by
  induction s with
  | nil => rfl
  | cons d s ih =>
      rw [List.mem_cons, not_or] at h
      rw [afterFirst, if_neg, ih h.2]
      rw [List.isPrefixOf_cons_cons, beq_false_of_ne h.1]
      simp

theorem trimSpace_cons_space (s : Text) : trimSpace (' ' :: s) = trimSpace s := by
  rw [trimSpace, List.dropWhile_cons_of_pos (by decide), trimSpace]

/-- A text without white space is not trimmed. -/
theorem trimSpace_visible {s : Text} (h : ∀ c ∈ s, isSpace c = false) : trimSpace s = s := by
  have hdrop : ∀ t : Text, (∀ c ∈ t, isSpace c = false) → t.dropWhile isSpace = t := by
    intro t ht
    cases t with
    | nil => rfl
    | cons c t => rw [List.dropWhile_cons_of_neg (by simp [ht c List.mem_cons_self])]
  rw [trimSpace, hdrop s h, hdrop _ fun c hc => h c (List.mem_reverse.mp hc), List.reverse_reverse]

theorem mem_join {sep : Text} {ts : List Text} {c : Char} (h : c ∈ join sep ts) :
    c ∈ sep ∨ ∃ t ∈ ts, c ∈ t := by
  induction ts with
  | nil => cases h
  | cons t ts ih =>
      cases ts with
      | nil => exact Or.inr ⟨t, List.mem_cons_self, h⟩
      | cons t' ts =>
          rw [join, List.mem_append, List.mem_append] at h
          rcases h with (h | h) | h
          · exact Or.inr ⟨t, List.mem_cons_self, h⟩
          · exact Or.inl h
          · rcases ih h with h | ⟨u, hu, hc⟩
            · exact Or.inl h
            · exact Or.inr ⟨u, List.mem_cons_of_mem _ hu, hc⟩

/-- The words of a type have visible ends. -/
theorem join_ends {ws : List Text} (hne : ws ≠ []) (h : ∀ w ∈ ws, IsCIdent w) :
    ∃ c t u d, join " " ws = c :: t ∧ join " " ws = u ++ [d] ∧ isSpace c = false ∧
      isSpace d = false := by
  induction ws with
  | nil => exact absurd rfl hne
  | cons w ws ih =>
      rw [List.forall_mem_cons] at h
      obtain ⟨c, t, u, d, hw, hw', -, hc, hd⟩ := h.1.ends
      cases ws with
      | nil => exact ⟨c, t, u, d, hw, hw', hc, hd⟩
      | cons w' ws =>
          obtain ⟨-, -, u', d', -, hlast, -, hd'⟩ := ih (List.cons_ne_nil _ _) h.2
          refine ⟨c, t ++ " " ++ join " " (w' :: ws), w ++ " " ++ u', d', ?_, ?_, hc, hd'⟩
          · rw [join, hw]
            rfl
          · rw [join, hlast]
            simp

/-! ## One parameter -/

theorem cutLastSpace_append (s : Text) {t : Text} (h : ' ' ∉ t) :
    cutLastSpace (s ++ ' ' :: t) = some (s, t) := by
  have hnone : cutLastSpace t = none := by
    induction t with
    | nil => rfl
    | cons c t ih =>
        rw [List.mem_cons, not_or] at h
        rw [cutLastSpace, ih h.2]
        exact if_neg (Ne.symm h.1)
  induction s with
  | nil =>
      rw [List.nil_append, cutLastSpace, hnone]
      exact if_pos rfl
  | cons c s ih => rw [List.cons_append, cutLastSpace, ih]

theorem moveStars_replicate {w : Text} (h : IsCIdent w) (typ : Text) (k : ℕ) :
    moveStars typ (List.replicate k '*' ++ w) =
      (typ ++ (List.replicate k (" *" : Text)).flatten, w) := by
  induction k generalizing typ with
  | zero =>
      obtain ⟨c, t, -, -, rfl, -, hc, -⟩ := h.ends
      have hstar : c ≠ '*' := by
        rintro rfl
        exact absurd hc (by decide)
      rw [List.replicate_zero, List.nil_append, moveStars]
      · simp
      · simpa using hstar
  | succ k ih =>
      have hvisible : ∀ c ∈ List.replicate k '*' ++ w, isSpace c = false := by
        intro c hc
        rcases List.mem_append.mp hc with hc | hc
        · rw [List.eq_of_mem_replicate hc]
          decide
        · exact (h.2 c hc).2
      rw [List.replicate_succ, List.cons_append, moveStars, trimSpace_visible hvisible, ih,
        List.replicate_succ, List.flatten_cons, List.append_assoc]

section

variable {p : CParam} (h : p.Plain)

include h

theorem CParam.text_ends :
    ∃ c t u d, p.text = c :: t ∧ p.text = u ++ [d] ∧ isSpace c = false ∧ isSpace d = false := by
  obtain ⟨c, t, -, -, hwords, -, hc, -⟩ := join_ends h.words_ne h.words
  obtain ⟨-, -, u, d, -, hname, -, -, hd⟩ := h.name.ends
  refine ⟨c, t ++ ' ' :: (List.replicate p.stars '*' ++ p.name),
    join " " p.words ++ ' ' :: (List.replicate p.stars '*' ++ u), d, ?_, ?_, hc, hd⟩
  · rw [CParam.text, hwords, List.cons_append]
  · rw [CParam.text, hname]
    simp

theorem CParam.trimSpace_text : trimSpace p.text = p.text := by
  obtain ⟨c, t, u, d, hhead, hlast, hc, hd⟩ := p.text_ends h
  exact trimSpace_eq hhead hlast hc hd

/-- The loop reads a printed parameter, with the space in front of it or without. -/
theorem parseParam_text (isPrint : Char → Bool) {part : Text}
    (hpart : trimSpace part = p.text) : parseParam isPrint part = .ok p.param := by
  have hvisible : ∀ c ∈ List.replicate p.stars '*' ++ p.name, isSpace c = false := by
    intro c hc
    rcases List.mem_append.mp hc with hc | hc
    · rw [List.eq_of_mem_replicate hc]
      decide
    · exact (h.name.2 c hc).2
  have hspace : ' ' ∉ List.replicate p.stars '*' ++ p.name := by
    intro hmem
    exact absurd (hvisible ' ' hmem) (by decide)
  obtain ⟨c, t, u, d, hhead, hlast, hc, hd⟩ := join_ends h.words_ne h.words
  have hcut := cutLastSpace_append (join " " p.words) hspace
  rw [← CParam.text] at hcut
  simp only [parseParam, hpart, hcut, trimSpace_eq hhead hlast hc hd, trimSpace_visible hvisible,
    moveStars_replicate h.name, sanitizeParamName_eq h.name h.name_free]
  rfl

theorem mem_text {c : Char} (hc : c ∈ p.text) : c = ' ' ∨ c = '*' ∨ isIdentChar c = true := by
  rw [CParam.text, List.mem_append, List.mem_cons, List.mem_append] at hc
  rcases hc with hc | hc | hc | hc
  · rcases mem_join hc with hc | ⟨w, hw, hc⟩
    · exact Or.inl (by simpa using hc)
    · exact Or.inr (Or.inr ((h.words w hw).2 c hc).1)
  · exact Or.inl hc
  · exact Or.inr (Or.inl (List.eq_of_mem_replicate hc))
  · exact Or.inr (Or.inr (h.name.2 c hc).1)

/-- A printed parameter has no punctuation but its stars. -/
theorem not_mem_text {c : Char} (hspace : c ≠ ' ') (hstar : c ≠ '*')
    (hc : isIdentChar c = false) : c ∉ p.text := by
  intro hmem
  rcases mem_text h hmem with h | h | h
  · exact hspace h
  · exact hstar h
  · rw [hc] at h
    cases h

theorem height_text : height '(' ')' p.text = 0 := by
  refine height_of_plain _ _ fun c hc => ?_
  rw [delta, if_neg, if_neg]
  · rintro rfl
    exact not_mem_text h (by decide) (by decide) (by decide) hc
  · rintro rfl
    exact not_mem_text h (by decide) (by decide) (by decide) hc

end

/-! ## The list -/

/-- The parts behind the first keep the space that follows their comma. -/
theorem paramsText_cons (p : CParam) (ps : List CParam) :
    paramsText (p :: ps) = [','].intercalate (p.text :: ps.map fun q => ' ' :: q.text) := by
  induction ps generalizing p with
  | nil => exact List.intercalate_singleton.symm
  | cons q ps ih =>
      have hjoin : paramsText (p :: q :: ps) = p.text ++ [','] ++ ' ' :: paramsText (q :: ps) := by
        rw [paramsText, List.map_cons, List.map_cons, join, paramsText, List.map_cons]
        simp
      have hspace : ∀ ts : List Text, [','].intercalate ((' ' :: q.text) :: ts) =
          ' ' :: [','].intercalate (q.text :: ts) := by
        intro ts
        cases ts with
        | nil => rfl
        | cons t ts => rw [List.intercalate_cons_cons, List.intercalate_cons_cons]; rfl
      rw [hjoin, ih, List.map_cons, List.intercalate_cons_cons, hspace]

theorem splitParams_paramsText {p : CParam} {ps : List CParam} (h : ∀ q ∈ p :: ps, q.Plain) :
    splitParams (paramsText (p :: ps)) = p.text :: ps.map fun q => ' ' :: q.text := by
  rw [splitParams, paramsText_cons]
  refine split_intercalate (by decide) fun t ht => ?_
  have hcomma : ∀ q ∈ p :: ps, ',' ∉ q.text := fun q hq =>
    not_mem_text (h q hq) (by decide) (by decide) (by decide)
  rcases List.mem_cons.mp ht with rfl | ht
  · obtain ⟨c, t, -, -, hhead, -⟩ := CParam.text_ends (h p List.mem_cons_self)
    exact ⟨by rw [hhead]; exact List.cons_ne_nil c t, hcomma p List.mem_cons_self,
      height_text (h p List.mem_cons_self)⟩
  · obtain ⟨q, hq, rfl⟩ := List.mem_map.mp ht
    have hq' := List.mem_cons_of_mem p hq
    refine ⟨List.cons_ne_nil _ _, ?_, ?_⟩
    · rw [List.mem_cons, not_or]
      exact ⟨by decide, hcomma q hq'⟩
    · rw [height_cons, height_text (h q hq')]
      decide

theorem mapM_parseParam (isPrint : Char → Bool) {parts : List Text} {ps : List CParam}
    (h : List.Forall₂ (fun part p => CParam.Plain p ∧ trimSpace part = p.text) parts ps) :
    parts.mapM (parseParam isPrint) = .ok (ps.map CParam.param) := by
  induction h with
  | nil => rfl
  | cons hp _ ih =>
      rw [List.mapM_cons, parseParam_text hp.1 isPrint hp.2, ih]
      rfl

section

variable {p : CParam} {ps : List CParam} (h : ∀ q ∈ p :: ps, q.Plain)

include h

theorem paramsText_ends :
    ∃ c t u d, paramsText (p :: ps) = c :: t ∧ paramsText (p :: ps) = u ++ [d] ∧
      isSpace c = false ∧ isSpace d = false := by
  induction ps generalizing p with
  | nil => exact CParam.text_ends (h p List.mem_cons_self)
  | cons q ps ih =>
      rw [List.forall_mem_cons] at h
      obtain ⟨c, t, -, -, hhead, -, hc, -⟩ := CParam.text_ends h.1
      obtain ⟨-, -, u, d, -, hlast, -, hd⟩ := ih h.2
      have hjoin : paramsText (p :: q :: ps) = p.text ++ ", " ++ paramsText (q :: ps) := rfl
      refine ⟨c, t ++ ", " ++ paramsText (q :: ps), p.text ++ ", " ++ u, d, ?_, ?_, hc, hd⟩
      · rw [hjoin, hhead]
        rfl
      · rw [hjoin, hlast]
        simp

theorem mem_paramsText {c : Char} (hc : c ∈ paramsText (p :: ps)) :
    c = ',' ∨ c = ' ' ∨ c = '*' ∨ isIdentChar c = true := by
  rcases mem_join hc with hc | ⟨t, ht, hc⟩
  · have hchars : c = ',' ∨ c = ' ' := by simpa using hc
    rcases hchars with hc | hc
    · exact Or.inl hc
    · exact Or.inr (Or.inl hc)
  · obtain ⟨q, hq, rfl⟩ := List.mem_map.mp ht
    exact Or.inr (mem_text (h q hq) hc)

theorem space_mem_paramsText : ' ' ∈ paramsText (p :: ps) := by
  have htext : ' ' ∈ p.text :=
    List.mem_append_right _ List.mem_cons_self
  cases ps with
  | nil => exact htext
  | cons q ps => exact List.mem_append_left _ (List.mem_append_left _ htext)

theorem parseParams_text (isPrint : Char → Bool) :
    parseParams isPrint (paramsText (p :: ps)) = .ok ((p :: ps).map CParam.param) := by
  obtain ⟨c, t, u, d, hhead, hlast, hc, hd⟩ := paramsText_ends h
  have hspace := space_mem_paramsText h
  have hvoid : ¬ (paramsText (p :: ps) = "void" ∨ paramsText (p :: ps) = []) := by
    rintro (heq | heq)
    · rw [heq] at hspace
      exact absurd hspace (by decide)
    · rw [heq] at hspace
      cases hspace
  have hdots : afterFirst "..." (paramsText (p :: ps)) = none := by
    refine afterFirst_none _ fun hdot => ?_
    rcases mem_paramsText h hdot with h | h | h | h
    · exact absurd h (by decide)
    · exact absurd h (by decide)
    · exact absurd h (by decide)
    · exact absurd h (by decide)
  have hparts : List.Forall₂ (fun part q => CParam.Plain q ∧ trimSpace part = q.text)
      (p.text :: ps.map fun q => ' ' :: q.text) (p :: ps) := by
    refine .cons ⟨h p List.mem_cons_self, CParam.trimSpace_text (h p List.mem_cons_self)⟩ ?_
    rw [List.forall₂_map_left_iff, List.forall₂_same]
    intro q hq
    have hq' := h q (List.mem_cons_of_mem p hq)
    refine ⟨hq', ?_⟩
    rw [trimSpace_cons_space, CParam.trimSpace_text hq']
  simp only [parseParams, trimSpace_eq hhead hlast hc hd, if_neg hvoid, hdots]
  rw [splitParams_paramsText h, mapM_parseParam isPrint hparts]
  rfl

end

/-! ## Parentheses -/

/-- `splitTopLevel` cuts the string at a position. -/
def SplitsAt (s : List UInt8) (sep : UInt8) (i : ℕ) : Prop :=
  i < s.length ∧ i ∈ cuts 0 (splitTopLevel s sep)

/-- A position of a string inside parentheses. -/
def InParens (s : List UInt8) (i : ℕ) : Prop := Enclosed (40 : UInt8) 41 s i

/-- The parentheses opened in a string less those closed. -/
def parenHeight (s : List UInt8) : Int := height (40 : UInt8) 41 s

/-- Up to a position, no parenthesis is closed that is not open. -/
def NoUnmatched (s : List UInt8) (i : ℕ) : Prop := ∀ n ≤ i, 0 ≤ parenHeight (s.take n)

theorem splitsAt_iff {s : List UInt8} {sep : UInt8} {i : ℕ} :
    SplitsAt s sep i ↔ s[i]? = some sep ∧ parenHeight (s.take (i + 1)) = 0 := by
  refine ⟨fun h => (mem_cuts_split h.1).mp h.2, fun h => ?_⟩
  have hi := (List.getElem?_eq_some_iff.mp h.1).1
  exact ⟨hi, (mem_cuts_split hi).mpr h⟩

/-- **Printed parameter lists are read back**, where the parts that are read are those that
`splitTopLevel` cuts from the bytes of the list; and `splitTopLevel` loses nothing but
separators, splits exactly at those up to which as many parentheses were opened as closed,
and so splits inside parentheses only behind one that was closed without being open. -/
theorem parseParams_roundTrip :
    (∀ isPrint ps, ps ≠ [] → (∀ p ∈ ps, CParam.Plain p) →
      parseParams isPrint (paramsText ps) = .ok (ps.map CParam.param)) ∧
    (∀ s sep, ∃ t ∈ [[], [sep]], [sep].intercalate (splitTopLevel s sep) ++ t = s) ∧
    (∀ s sep i, SplitsAt s sep i ↔ s[i]? = some sep ∧ parenHeight (s.take (i + 1)) = 0) ∧
    (∀ s sep i, SplitsAt s sep i → NoUnmatched s i → ¬ InParens s i) ∧
    ∀ raw, splitTopLevel (utf8 raw) 44 = (splitParams raw).map utf8 := by
  refine ⟨fun isPrint ps hne h => ?_, fun s sep => intercalate_split s,
    fun s sep i => splitsAt_iff, fun s sep i h => not_enclosed_of_mem_cuts h.1 h.2,
    utf8_splitParams⟩
  cases ps with
  | nil => exact absurd rfl hne
  | cons p ps => exact parseParams_text h isPrint

theorem isCIdent_of_check {w : Text}
    (h : (w.head?.any isIdentStart && w.all fun c => isIdentChar c && !isSpace c) = true) :
    IsCIdent w := by
  rw [Bool.and_eq_true, Option.any_eq_true, List.all_eq_true] at h
  refine ⟨h.1, fun c hc => ?_⟩
  simpa using h.2 c hc

/-- Two pointers. -/
def copyParams : List CParam := [⟨["void"], 1, "dst"⟩, ⟨["const", "void"], 1, "src"⟩]

theorem copyParams_roundTrip :
    parseParams (fun _ => true) "void *dst, const void *src" =
        .ok [⟨"void *", "dst", []⟩, ⟨"const void *", "src", []⟩] ∧
      ¬ InParens (utf8 "f(a,b),c") 6 := by
  have hvoid : IsCIdent ("void" : Text) := isCIdent_of_check (by decide)
  have hplain : ∀ p ∈ copyParams, CParam.Plain p := by
    refine List.forall_mem_cons.mpr ⟨⟨by decide, by simpa using hvoid,
      isCIdent_of_check (by decide), by decide⟩, List.forall_mem_singleton.mpr ⟨by decide, ?_,
      isCIdent_of_check (by decide), by decide⟩⟩
    have hconst : IsCIdent ("const" : Text) := isCIdent_of_check (by decide)
    exact List.forall_mem_cons.mpr ⟨hconst, List.forall_mem_singleton.mpr hvoid⟩
  have hmatched : NoUnmatched (utf8 "f(a,b),c") 6 := by
    intro n hn
    interval_cases n <;> decide
  exact ⟨parseParams_roundTrip.1 _ copyParams (by decide) hplain,
    parseParams_roundTrip.2.2.2.1 _ 44 6 ⟨by decide, by decide⟩ hmatched⟩

/-- `splitTopLevel(")(a,b)", ',')` splits inside the parentheses: the count was negative
when they were opened. -/
theorem unmatched_split :
    ¬ ∀ (s : List UInt8) (sep : UInt8) (i : ℕ), SplitsAt s sep i → ¬ InParens s i := by
  intro h
  refine h (utf8 ")(a,b)") 44 3 ⟨by decide, by decide⟩ ⟨1, by decide, by decide, fun k hlo hhi => ?_⟩
  interval_cases k <;> decide

end Gobee
