/-
# The text of a source map

`FormatSourceMap` prints the mappings of a file one to a line, sorted by their C line, and
`ParseSourceMap` of the package `diagnose` reads the lines back into a map from C lines to
positions.  A file name may hold anything but a newline: the line is cut at its first tab,
it begins with a number, and it ends with one, so that nothing is trimmed.

* `lastPosition` : the position of the last mapping of a C line;
* `parseSourceMap_formatSourceMap` : **reading a printed source map gives, for every C line,
  the position of its last mapping**.
-/
import Gobee.Parse
import Gobee.StableSort

namespace Gobee

/-! ## Printing -/

/-- `SourceMapping` with the integers of Go. -/
structure Mapping where
  cLine : Int64
  filename : Text
  line : Int64
  column : Int64
  deriving DecidableEq, Repr

/-- `%d`. -/
def formatInt (n : Int64) : Text := intText n.toInt

/-- The printed position of a mapping. -/
def Mapping.position (m : Mapping) : Text :=
  m.filename ++ ':' :: (formatInt m.line ++ ':' :: formatInt m.column)

/-- The line of a mapping. -/
def Mapping.text (m : Mapping) : Text := formatInt m.cLine ++ '\t' :: m.position

/-- The first line of a source map. -/
def sourceMapHeader : Text :=
  "# gobee sourcemap. Format: <c-line>\\t<go-file>:<go-line>:<go-col>"

/-- `sort.SliceStable` by C line. -/
def sortByLine (ms : List Mapping) : List Mapping := ms.mergeSort fun a b => a.cLine ≤ b.cLine

/-- A line with its newline. -/
def ended (l : Text) : Text := l ++ ['\n']

/-- `FormatSourceMap`. -/
def formatSourceMap (ms : List Mapping) : Text :=
  ended sourceMapHeader ++ (sortByLine ms).flatMap fun m => ended m.text

/-! ## Reading -/

/-- `strings.TrimSpace`. -/
def trimSpace (s : Text) : Text := ((s.dropWhile isSpace).reverse.dropWhile isSpace).reverse

/-- The lines of a text; the last one may lack its newline. -/
def splitLines : Text → List Text
  | [] => []
  | c :: cs =>
      if c = '\n' then [] :: splitLines cs
      else
        match splitLines cs with
        | [] => [[c]]
        | l :: ls => (c :: l) :: ls

/-- A line without the carriage return at its end. -/
def dropCR (s : Text) : Text := if s.getLast? = some '\r' then s.dropLast else s

/-- The bytes of a text in UTF-8. -/
def byteLen (s : Text) : Nat := (s.map Char.utf8Size).sum

/-- `bufio.MaxScanTokenSize`. -/
def maxScanTokenSize : Nat := 64 * 1024

/-- The loop of `strconv.ParseUint` in base 10: what follows an overflow is not read. -/
def parseUint (n : Nat) : Text → Except Text Nat
  | [] => .ok n
  | c :: cs =>
      if ¬ c.isDigit then .error "invalid syntax"
      else if 2 ^ 64 ≤ n * 10 + (c.toNat - '0'.toNat) then .error "value out of range"
      else parseUint (n * 10 + (c.toNat - '0'.toNat)) cs

/-- The error of `strconv.Atoi`. -/
def atoiError (s why : Text) : Result Int64 :=
  errorf ("strconv.Atoi: parsing " ++ quote s ++ ": " ++ why)

/-- `strconv.Atoi`. -/
def strconvAtoi (s : Text) : Result Int64 :=
  let parts : Bool × Text :=
    match s with
    | '-' :: ds => (true, ds)
    | '+' :: ds => (false, ds)
    | ds => (false, ds)
  if parts.2 = [] then atoiError s "invalid syntax"
  else
    match parseUint 0 parts.2 with
    | .error why => atoiError s why
    | .ok n =>
        let v : Int := if parts.1 then -n else n
        if -2 ^ 63 ≤ v ∧ v < 2 ^ 63 then .ok (Int64.ofInt v)
        else atoiError s "value out of range"

/-- `strings.SplitN(s, "\t", 2)`, if it gives two parts. -/
def cutTab : Text → Option (Text × Text)
  | [] => none
  | c :: cs => if c = '\t' then some ([], cs) else (cutTab cs).map fun p => (c :: p.1, p.2)

/-- `SourceMap`: the position of a C line. -/
abbrev LineMap := Int64 → Option Text

/-- The body of the loop of `ParseSourceMap`, for one line of the scanner. -/
def parseLine (out : LineMap) (l : Text) : Result LineMap :=
  let line := trimSpace (dropCR l)
  if line = [] ∨ line.head? = some '#' then .ok out
  else
    match cutTab line with
    | none => errorf ("malformed sourcemap line " ++ quote line)
    | some (number, position) => do
        let n ← wrapError (fun e => "malformed c-line in " ++ quote line ++ ": " ++ e) (strconvAtoi number)
        return Function.update out n (some position)

/-- The loop of `ParseSourceMap`; the scanner fails at a line that is too long. -/
def parseLines (out : LineMap) : List Text → Result LineMap
  | [] => .ok out
  | l :: rest =>
      if maxScanTokenSize ≤ byteLen l then errorf "bufio.Scanner: token too long"
      else do
        let out ← parseLine out l
        parseLines out rest

/-- `ParseSourceMap`. -/
def parseSourceMap (text : Text) : Result LineMap := parseLines (fun _ => none) (splitLines text)

/-! ## Numbers -/

theorem itoa_ne_nil (n : Nat) : itoa n ≠ [] := by
  have hpos := Nat.length_toDigits_pos (b := 10) (n := n)
  intro h
  rw [itoa] at h
  rw [h] at hpos
  exact absurd hpos (by decide)

theorem isDigit_of_mem_itoa {n : Nat} {c : Char} (h : c ∈ itoa n) : c.isDigit = true :=
  Nat.isDigit_of_mem_toDigits (by decide) (by decide) h

theorem isDigit_neg {c : Char} (h : c.isDigit = true) :
    c ≠ '-' ∧ c ≠ '+' ∧ c ≠ '\t' ∧ c ≠ '\n' ∧ c ≠ '\r' ∧ c ≠ '#' ∧ isSpace c = false := by
  have hcode : 48 ≤ c.toNat ∧ c.toNat ≤ 57 := by
    simpa [Char.isDigit, UInt32.le_iff_toNat_le] using h
  have hne : ∀ d : Char, d.isDigit = false → c ≠ d := by
    rintro d hd rfl
    rw [h] at hd
    cases hd
  refine ⟨hne _ rfl, hne _ rfl, hne _ rfl, hne _ rfl, hne _ rfl, hne _ rfl, ?_⟩
  simp only [isSpace, List.mem_cons, List.not_mem_nil, or_false, Bool.or_eq_false_iff,
    decide_eq_false_iff_not, Bool.and_eq_false_iff]
  omega

/-- What a printed number looks like: digits, perhaps behind a sign. -/
theorem intText_shape (n : Int) :
    ∃ sign k, intText n = sign ++ itoa k ∧ ((sign = [] ∧ n = k) ∨ (sign = ['-'] ∧ n = -k)) := by
  cases n with
  | ofNat k => exact ⟨[], k, rfl, .inl ⟨rfl, rfl⟩⟩
  | negSucc k => exact ⟨['-'], k + 1, rfl, .inr ⟨rfl, rfl⟩⟩

/-- A printed number begins and ends with visible characters. -/
theorem intText_ends (n : Int) :
    ∃ c t u d, intText n = c :: t ∧ intText n = u ++ [d] ∧
      (c.isDigit = true ∨ c = '-') ∧ d.isDigit = true := by
  obtain ⟨sign, k, hn, hsign⟩ := intText_shape n
  have hlast : itoa k = (itoa k).dropLast ++ [(itoa k).getLast (itoa_ne_nil k)] :=
    (List.dropLast_concat_getLast _).symm
  have hdigit := isDigit_of_mem_itoa (List.getLast_mem (itoa_ne_nil k))
  obtain ⟨e, es, he⟩ := List.exists_cons_of_ne_nil (itoa_ne_nil k)
  rcases hsign with ⟨rfl, -⟩ | ⟨rfl, -⟩
  · refine ⟨e, es, _, _, hn.trans he, hn.trans hlast, .inl ?_, hdigit⟩
    exact isDigit_of_mem_itoa (he ▸ List.mem_cons_self)
  · refine ⟨'-', itoa k, '-' :: (itoa k).dropLast, _, hn, ?_, .inr rfl, hdigit⟩
    rw [hn, List.singleton_append, List.cons_append, ← hlast]

/-- A printed number holds digits and a sign only. -/
theorem mem_intText {n : Int} {c : Char} (h : c ∈ intText n) : c.isDigit = true ∨ c = '-' := by
  obtain ⟨sign, k, hn, hsign⟩ := intText_shape n
  rw [hn] at h
  rcases List.mem_append.mp h with h | h
  · rcases hsign with ⟨rfl, -⟩ | ⟨rfl, -⟩
    · cases h
    · exact .inr (List.mem_singleton.mp h)
  · exact .inl (isDigit_of_mem_itoa h)

/-- Reading on makes the number larger. -/
theorem le_ofDigitChars (ds : Text) (n : Nat) : n ≤ Nat.ofDigitChars 10 ds n := by
  induction ds generalizing n with
  | nil => exact le_rfl
  | cons d ds ih =>
      rw [Nat.ofDigitChars_cons]
      have := ih (10 * n + (d.toNat - '0'.toNat))
      omega

theorem parseUint_digits {ds : Text} (hdigits : ∀ c ∈ ds, c.isDigit = true) {n : Nat}
    (hn : n < 2 ^ 64) :
    parseUint n ds =
      if Nat.ofDigitChars 10 ds n < 2 ^ 64 then .ok (Nat.ofDigitChars 10 ds n)
      else .error "value out of range" := by
  induction ds generalizing n with
  | nil => exact (if_pos hn).symm
  | cons d ds ih =>
      have hd : d.isDigit = true := hdigits d List.mem_cons_self
      have hstep : n * 10 + (d.toNat - '0'.toNat) = 10 * n + (d.toNat - '0'.toNat) := by
        rw [Nat.mul_comm]
      rw [parseUint, if_neg (by rw [hd]; decide), Nat.ofDigitChars_cons, hstep]
      by_cases hover : 2 ^ 64 ≤ 10 * n + (d.toNat - '0'.toNat)
      · have hle := le_ofDigitChars ds (10 * n + (d.toNat - '0'.toNat))
        rw [if_pos hover, if_neg (by omega)]
      · rw [if_neg hover]
        exact ih (fun c hc => hdigits c (List.mem_cons_of_mem d hc)) (by omega)

/-- `Atoi` on digits without a sign. -/
theorem strconvAtoi_unsigned {ds : Text} (hds : ds ≠ [])
    (hdigits : ∀ c ∈ ds, c.isDigit = true) :
    strconvAtoi ds =
      if Nat.ofDigitChars 10 ds 0 < 2 ^ 63 then .ok (Int64.ofNat (Nat.ofDigitChars 10 ds 0))
      else atoiError ds "value out of range" := by
  obtain ⟨d, es, rfl⟩ := List.exists_cons_of_ne_nil hds
  obtain ⟨hminus, hplus, -⟩ := isDigit_neg (hdigits d List.mem_cons_self)
  have hparts : (match ([] ++ d :: es : Text) with
      | '-' :: ds => ((true, ds) : Bool × Text)
      | '+' :: ds => (false, ds)
      | ds => (false, ds)) = (false, d :: es) := by
    simp only [List.nil_append]
    split
    · rename_i heq
      exact absurd (List.cons.inj heq).1 hminus
    · rename_i heq
      exact absurd (List.cons.inj heq).1 hplus
    · rfl
  change strconvAtoi ([] ++ d :: es) = _
  simp only [strconvAtoi, hparts]
  rw [if_neg hds, List.nil_append, parseUint_digits hdigits (by omega)]
  by_cases hfit : Nat.ofDigitChars 10 (d :: es) 0 < 2 ^ 64
  · rw [if_pos hfit]
    simp only [Bool.false_eq_true, if_false]
    by_cases h : Nat.ofDigitChars 10 (d :: es) 0 < 2 ^ 63
    · rw [if_pos h, if_pos (by omega), Int64.ofInt_eq_ofNat]
    · rw [if_neg h, if_neg (by omega)]
  · rw [if_neg hfit, if_neg (by omega)]

theorem strconvAtoi_digits {sign ds : Text} {n : Nat} {v : Int64} (hds : ds ≠ [])
    (hdigits : ∀ c ∈ ds, c.isDigit = true) (hn : Nat.ofDigitChars 10 ds 0 = n)
    (hv : (sign = [] ∧ v.toInt = n) ∨ (sign = ['-'] ∧ v.toInt = -n)) :
    strconvAtoi (sign ++ ds) = .ok v := by
  have hle := Int64.le_toInt v
  have hlt := Int64.toInt_lt v
  rcases hv with ⟨rfl, hv⟩ | ⟨rfl, hv⟩
  · rw [List.nil_append, strconvAtoi_unsigned hds hdigits, hn, if_pos (by omega),
      ← Int64.ofInt_eq_ofNat, ← hv, Int64.ofInt_toInt]
  · simp only [strconvAtoi, List.singleton_append]
    rw [if_neg hds, parseUint_digits hdigits (by omega), hn, if_pos (by omega)]
    simp only [if_true]
    rw [if_pos (by omega), ← hv, Int64.ofInt_toInt]

/-- `Atoi` reads a printed number back. -/
theorem strconvAtoi_formatInt (v : Int64) : strconvAtoi (formatInt v) = .ok v := by
  obtain ⟨sign, k, htext, hsign⟩ := intText_shape v.toInt
  rw [formatInt, htext]
  exact strconvAtoi_digits (itoa_ne_nil k) (fun c => isDigit_of_mem_itoa)
    (Nat.ofDigitChars_toDigits (by decide) (by decide)) hsign

/-! ## Lines -/

theorem splitLines_ended {l : Text} (h : '\n' ∉ l) (rest : Text) :
    splitLines (ended l ++ rest) = l :: splitLines rest := by
  induction l with
  | nil => rw [ended, List.nil_append, List.singleton_append, splitLines, if_pos rfl]
  | cons c cs ih =>
      rw [List.mem_cons, not_or] at h
      have hcons : ended (c :: cs) ++ rest = c :: (ended cs ++ rest) := rfl
      rw [hcons, splitLines, if_neg (Ne.symm h.1), ih h.2]

theorem splitLines_flatMap {ls : List Text} (h : ∀ l ∈ ls, '\n' ∉ l) :
    splitLines (ls.flatMap ended) = ls := by
  induction ls with
  | nil => rfl
  | cons l ls ih =>
      rw [List.forall_mem_cons] at h
      rw [List.flatMap_cons, splitLines_ended h.1, ih h.2]

theorem cutTab_append {a : Text} (h : '\t' ∉ a) (b : Text) :
    cutTab (a ++ '\t' :: b) = some (a, b) := by
  induction a with
  | nil => rw [List.nil_append, cutTab, if_pos rfl]
  | cons c cs ih =>
      rw [List.mem_cons, not_or] at h
      rw [List.cons_append, cutTab, if_neg (Ne.symm h.1), ih h.2]
      rfl

/-- Nothing is trimmed from a text with visible ends. -/
theorem trimSpace_eq {s t u : Text} {c d : Char} (hhead : s = c :: t) (hlast : s = u ++ [d])
    (hc : isSpace c = false) (hd : isSpace d = false) : trimSpace s = s := by
  have hdrop : s.dropWhile isSpace = s := by
    rw [hhead, List.dropWhile_cons_of_neg (by rw [hc]; simp)]
  have hdrop' : s.reverse.dropWhile isSpace = s.reverse := by
    rw [hlast, List.reverse_append, List.reverse_singleton, List.singleton_append,
      List.dropWhile_cons_of_neg (by rw [hd]; simp)]
  rw [trimSpace, hdrop, hdrop', List.reverse_reverse]

section

variable (m : Mapping)

/-- The line of a mapping begins with a digit or a sign and ends with a digit. -/
theorem text_ends :
    ∃ c t u d, m.text = c :: t ∧ m.text = u ++ [d] ∧
      (c.isDigit = true ∨ c = '-') ∧ d.isDigit = true := by
  obtain ⟨c, t, -, -, hhead, -, hc, -⟩ := intText_ends m.cLine.toInt
  obtain ⟨-, -, u, d, -, hlast, -, hd⟩ := intText_ends m.column.toInt
  refine ⟨c, t ++ '\t' :: m.position,
    formatInt m.cLine ++ '\t' :: (m.filename ++ ':' :: (formatInt m.line ++ ':' :: u)), d,
    ?_, ?_, hc, hd⟩
  · rw [Mapping.text, formatInt, hhead, List.cons_append]
  · have hcolumn : formatInt m.column = u ++ [d] := hlast
    rw [Mapping.text, Mapping.position, hcolumn]
    simp

theorem newline_not_mem_text (h : '\n' ∉ m.filename) : '\n' ∉ m.text := by
  have hnumber : ∀ n : Int64, '\n' ∉ formatInt n := by
    intro n hmem
    rcases mem_intText hmem with hdigit | heq
    · cases hdigit
    · cases heq
  simp [Mapping.text, Mapping.position, h, hnumber]

theorem cutTab_text : cutTab m.text = some (formatInt m.cLine, m.position) := by
  refine cutTab_append ?_ _
  intro hmem
  rcases mem_intText hmem with hdigit | heq
  · cases hdigit
  · cases heq

/-- The line of a mapping sets the position of its C line. -/
theorem parseLine_text (out : LineMap) :
    parseLine out m.text = .ok (Function.update out m.cLine (some m.position)) := by
  obtain ⟨c, t, u, d, hhead, hlast, hc, hd⟩ := text_ends m
  have hcut := cutTab_text m
  obtain ⟨-, -, -, -, hcr, -, hspace⟩ := isDigit_neg hd
  have hc' : c ≠ '#' ∧ isSpace c = false := by
    rcases hc with hc | rfl
    · exact ⟨(isDigit_neg hc).2.2.2.2.2.1, (isDigit_neg hc).2.2.2.2.2.2⟩
    · exact ⟨by decide, by decide⟩
  have hdrop : dropCR m.text = m.text := by
    rw [dropCR, hlast, List.getLast?_concat, if_neg (by simpa using hcr)]
  have htrim : trimSpace (dropCR m.text) = m.text := by
    rw [hdrop]
    exact trimSpace_eq hhead hlast hc'.2 hspace
  have hskip : ¬ (m.text = [] ∨ m.text.head? = some '#') := by
    rw [hhead]
    simp [hc'.1]
  simp only [parseLine, htrim]
  rw [if_neg hskip, hcut]
  simp only [strconvAtoi_formatInt]
  rfl

end

/-! ## Reading undoes printing -/

/-- A map with the position of one more mapping. -/
def LineMap.set (out : LineMap) (m : Mapping) : LineMap :=
  Function.update out m.cLine (some m.position)

/-- Setting the positions of some mappings, one after the other. -/
theorem parseLines_texts {ms : List Mapping} (hsize : ∀ m ∈ ms, byteLen m.text < maxScanTokenSize)
    (out : LineMap) :
    parseLines out (ms.map Mapping.text) =
      .ok (ms.foldl LineMap.set out) := by
  induction ms generalizing out with
  | nil => rfl
  | cons m ms ih =>
      rw [List.forall_mem_cons] at hsize
      rw [List.map_cons, parseLines, if_neg (by omega), parseLine_text]
      exact ih hsize.2 _

/-- The position of the last mapping of a C line. -/
def lastPosition (ms : List Mapping) (n : Int64) : Option Text :=
  ((ms.filter fun m => m.cLine = n).getLast?).map Mapping.position

/-- Of several mappings with one C line the last one stays. -/
theorem foldl_update (ms : List Mapping) (out : LineMap) (n : Int64) :
    ms.foldl LineMap.set out n = (lastPosition ms n).or (out n) := by
  induction ms generalizing out with
  | nil => rfl
  | cons m ms ih =>
      rw [List.foldl_cons, ih, lastPosition, lastPosition, List.filter_cons]
      by_cases hn : m.cLine = n
      · rw [if_pos (by simpa using hn), List.getLast?_cons, ← hn, LineMap.set, Function.update_self]
        cases (ms.filter fun m' => m'.cLine = m.cLine).getLast? <;> rfl
      · rw [if_neg (by simpa using hn), LineMap.set, Function.update_of_ne (Ne.symm hn)]

/-- Sorting keeps the order of the mappings of one C line. -/
theorem lastPosition_sortByLine (ms : List Mapping) :
    lastPosition (sortByLine ms) = lastPosition ms := by
  funext n
  have htrans : ∀ a b c : Mapping, decide (a.cLine ≤ b.cLine) = true →
      decide (b.cLine ≤ c.cLine) = true → decide (a.cLine ≤ c.cLine) = true := by
    intro a b c hab hbc
    simp only [decide_eq_true_eq] at hab hbc ⊢
    exact Int64.le_trans hab hbc
  have htotal : ∀ a b : Mapping,
      (decide (a.cLine ≤ b.cLine) || decide (b.cLine ≤ a.cLine)) = true := by
    intro a b
    simpa using Int64.le_total a.cLine b.cLine
  have hties : ∀ a b : Mapping, decide (a.cLine = n) = true → decide (b.cLine = n) = true →
      decide (a.cLine ≤ b.cLine) = true := by
    intro a b ha hb
    simp only [decide_eq_true_eq] at ha hb ⊢
    rw [ha, hb]
    exact Int64.le_refl n
  rw [lastPosition, lastPosition, sortByLine, StableSort.filter_mergeSort htrans htotal hties]

theorem lastPosition_isSome (ms : List Mapping) (n : Int64) :
    (lastPosition ms n).isSome = true ↔ ∃ m ∈ ms, m.cLine = n := by
  rw [lastPosition, Option.isSome_map, Option.isSome_iff_ne_none, ne_eq, List.getLast?_eq_none_iff,
    List.filter_eq_nil_iff]
  simp

/-- **Reading a printed source map gives, for every C line, the position of its last
mapping.** -/
theorem parseSourceMap_formatSourceMap {ms : List Mapping} (hname : ∀ m ∈ ms, '\n' ∉ m.filename)
    (hsize : ∀ m ∈ ms, byteLen m.text < maxScanTokenSize) :
    ∃ sm, parseSourceMap (formatSourceMap ms) = .ok sm ∧
      (∀ n, (sm n).isSome = true ↔ ∃ m ∈ ms, m.cLine = n) ∧ ∀ n, sm n = lastPosition ms n := by
  have hperm : (sortByLine ms).Perm ms := List.mergeSort_perm _ _
  have hlines : splitLines (formatSourceMap ms) =
      sourceMapHeader :: (sortByLine ms).map Mapping.text := by
    have htexts : (sortByLine ms).flatMap (fun m => ended m.text) =
        ((sortByLine ms).map Mapping.text).flatMap ended := by
      rw [List.flatMap_map]
    rw [formatSourceMap, splitLines_ended (by decide), htexts, splitLines_flatMap]
    intro l hl
    obtain ⟨m, hm, rfl⟩ := List.mem_map.mp hl
    exact newline_not_mem_text m (hname m (hperm.mem_iff.mp hm))
  have hparse : parseSourceMap (formatSourceMap ms) = .ok (lastPosition ms) := by
    rw [parseSourceMap, hlines, parseLines, if_neg (by decide)]
    have hheader : parseLine (fun _ => none) sourceMapHeader = .ok fun _ => none := rfl
    rw [hheader]
    refine (parseLines_texts (fun m hm => hsize m (hperm.mem_iff.mp hm)) _).trans ?_
    congr 1
    funext n
    rw [foldl_update, lastPosition_sortByLine, Option.or_none]
  exact ⟨lastPosition ms, hparse, lastPosition_isSome ms, fun _ => rfl⟩

/-- Two mappings of one line, in a file with a tab, a colon and a carriage return. -/
def oddMappings : List Mapping :=
  [⟨7, "a\t:b\r.go", 3, 1⟩, ⟨2, "# c.go", 1, 1⟩, ⟨7, "d .go", 4, 9⟩]

/-- Line 7 is mapped to its last position. -/
theorem oddMappings_decoded :
    ∃ sm, parseSourceMap (formatSourceMap oddMappings) = .ok sm ∧
      sm 7 = some "d .go:4:9" ∧ sm 2 = some "# c.go:1:1" ∧ sm 3 = none := by
  obtain ⟨sm, hparse, -, hvalues⟩ :=
    @parseSourceMap_formatSourceMap oddMappings (by decide) (by decide)
  exact ⟨sm, hparse, by rw [hvalues]; decide, by rw [hvalues]; decide, by rw [hvalues]; decide⟩

end Gobee
