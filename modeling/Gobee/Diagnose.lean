/-
# Annotating verifier logs

The verifier names lines of the generated C file; `annotateLine` looks them up in the source
map and writes the positions in the Go file behind the line, `AnnotateLines` does so for a
list of lines and `Rewrite` for a log that is read line by line.

* `Reference` : a reference `<file>.bpf.c:<digits>`;
* `annotateLine_matches` : the suffix of a line, from the leftmost, longest references;
* `annotation_exact` : **a line is kept and followed by the positions of the distinct lines
  it refers to, and `Rewrite` writes what `AnnotateLines` returns**.
-/
import Gobee.MapText
import Gobee.Regexp

namespace Gobee

open Regexp

/-! ## The functions -/

/-- The characters of a file name: `\w`, dots, slashes and hyphens. -/
def isFileChar (c : Char) : Bool := c.isAlphanum || c == '_' || c == '.' || c == '/' || c == '-'

/-- The file, a colon and the digits, with a group each for the file and the digits; a byte
that is no UTF-8 counts as a character outside all classes. -/
def cFileRefPattern : Pattern Char :=
  .seq (.group ((Pattern.many isFileChar).word (".bpf.c" : Text)))
    (.seq (.one (· == ':')) (.group (.many Char.isDigit)))

/-- The texts of a match and its groups, as `FindAllStringSubmatch` returns them. -/
def submatch (m : Match Char) (i : Nat) : Text := ((m.text :: m.groups)[i]?).getD []

/-- A position behind a line. -/
def arrow (pos : Text) : Text := "→ " ++ pos

/-- The loop of `annotateLine` over the matches; `seen` are the C lines found so far. -/
def addPositions (sm : LineMap) (seen : List Int64) : List (Match Char) → List Text
  | [] => []
  | m :: ms =>
      match strconvAtoi (submatch m 2) with
      | .error _ => addPositions sm seen ms
      | .ok cline =>
          if cline ∈ seen then addPositions sm seen ms
          else
            match sm cline with
            | some pos => arrow pos :: addPositions sm (cline :: seen) ms
            | none => addPositions sm (cline :: seen) ms

/-- `annotateLine`. -/
def annotateLine (line : Text) (sm : LineMap) : Text :=
  let found := cFileRefPattern.findAll line
  if found = [] then line
  else
    let added := addPositions sm [] found
    if added = [] then line else line ++ "    " ++ join "  " added

/-- `AnnotateLines`. -/
def annotateLines (lines : List Text) (sm : LineMap) : List Text :=
  lines.map fun line => annotateLine line sm

/-- The largest buffer of the scanner of `Rewrite`. -/
def rewriteBuffer : Nat := 1024 * 1024

/-- The loop of `Rewrite` over the lines of the scanner, which fails at a line that does not
fit its buffer: what is written, and whether the whole log was read. -/
def rewriteLines (sm : LineMap) : List Text → Text × Bool
  | [] => ([], true)
  | l :: rest =>
      if rewriteBuffer ≤ byteLen l then ([], false)
      else
        let r := rewriteLines sm rest
        (ended (annotateLine (dropCR l) sm) ++ r.1, r.2)

/-- `Rewrite`, to a writer that takes everything. -/
def rewrite (log : Text) (sm : LineMap) : Text × Bool := rewriteLines sm (splitLines log)

/-! ## References -/

/-- A reference `<file>.bpf.c:<digits>` to a line of a C file. -/
structure Reference where
  stem : Text
  digits : Text
  stem_ne_nil : stem ≠ []
  stem_chars : ∀ c ∈ stem, isFileChar c = true
  digits_ne_nil : digits ≠ []
  digits_chars : ∀ c ∈ digits, c.isDigit = true

namespace Reference

/-- The text of a reference. -/
def text (r : Reference) : Text := r.stem ++ (".bpf.c" ++ ':' :: r.digits)

/-- The number of the line. -/
def number (r : Reference) : Nat := Nat.ofDigitChars 10 r.digits 0

end Reference

/-- A text is a reference. -/
def IsReference (w : Text) : Prop := ∃ r : Reference, r.text = w

/-- The position of a line of any number. -/
def LineMap.lookup (sm : LineMap) (n : Nat) : Option Text :=
  if n < 2 ^ 63 then sm (Int64.ofNat n) else none

/-- The positions of some lines, each line once, in the order of their first occurrence. -/
def positions (sm : LineMap) (ns : List Nat) : List Text := ns.eraseDups.filterMap sm.lookup

/-- What is written behind a line. -/
def suffix : List Text → Text
  | [] => []
  | ps => "    " ++ join "  " (ps.map arrow)

theorem fits_cFileRefPattern {w : Text} : cFileRefPattern.Fits w ↔ IsReference w := by
  constructor
  · rintro ⟨u, v, rfl, hu, x, y, rfl, ⟨c, rfl, hc⟩, hy⟩
    obtain ⟨stem, rfl, hstem⟩ := Pattern.fits_word.mp hu
    obtain rfl := beq_iff_eq.mp hc
    refine ⟨⟨stem, y, hstem.1, hstem.2, hy.1, hy.2⟩, ?_⟩
    rw [Reference.text, List.append_assoc]
    rfl
  · rintro ⟨r, rfl⟩
    refine ⟨r.stem ++ ".bpf.c", ':' :: r.digits, ?_, ?_, [':'], r.digits, rfl, ⟨':', rfl, rfl⟩, ?_⟩
    · rw [Reference.text, List.append_assoc]
    · exact Pattern.fits_word.mpr ⟨r.stem, rfl, r.stem_ne_nil, r.stem_chars⟩
    · exact ⟨r.digits_ne_nil, r.digits_chars⟩

/-- The text before the colon has characters of a file name only. -/
theorem isFileChar_of_mem_file {u : Text}
    (h : ((Pattern.many isFileChar).word (".bpf.c" : Text)).Fits u) :
    ∀ c ∈ u, isFileChar c = true := by
  obtain ⟨stem, rfl, -, hstem⟩ := Pattern.fits_word.mp h
  intro c hc
  rcases List.mem_append.mp hc with hc | hc
  · exact hstem c hc
  · have hall : (".bpf.c" : Text).all isFileChar = true := by decide
    exact List.all_eq_true.mp hall c hc

/-- Two texts without the separator are the same if they are cut off by it. -/
theorem append_colon_inj {p : Char → Bool} {u u' s s' : Text} (hu : ∀ c ∈ u, p c = true)
    (hu' : ∀ c ∈ u', p c = true) (hsep : p ':' = false)
    (h : u ++ ':' :: s = u' ++ ':' :: s') : u = u' := by
  have htake : ∀ {u s : Text}, (∀ c ∈ u, p c = true) → (u ++ ':' :: s).takeWhile p = u := by
    intro u s hu
    rw [List.takeWhile_append_of_pos hu, List.takeWhile_cons_of_neg (by rw [hsep]; simp),
      List.append_nil]
  rw [← @htake u s hu, h, htake hu']

theorem greedy_cFileRefPattern : cFileRefPattern.Greedy := by
  refine Pattern.Greedy.seq (Pattern.Greedy.seq (Pattern.greedy_many _).group ?_) ?_
  · rintro u v u' v' rest rest' ⟨c, rfl, -⟩ ⟨c', rfl, -⟩ - - h
    rw [(List.cons.inj h).1]
  · rintro u v u' v' rest rest' hu hu' ⟨x, y, rfl, ⟨c, rfl, hc⟩, -⟩ ⟨x', y', rfl, ⟨c', rfl, hc'⟩, -⟩ h
    obtain rfl := beq_iff_eq.mp hc
    obtain rfl := beq_iff_eq.mp hc'
    exact append_colon_inj (isFileChar_of_mem_file hu) (isFileChar_of_mem_file hu') rfl h

theorem groups_word {w : Text} :
    ∀ {p : Pattern Char}, (∀ s m rest, (m, rest) ∈ p.runs s → m.groups = []) →
      ∀ s m rest, (m, rest) ∈ (p.word w).runs s → m.groups = [] := by
  induction w with
  | nil => exact fun h => h
  | cons c cs ih =>
      intro p h
      refine ih fun s m rest hm => ?_
      obtain ⟨⟨ma, ra⟩, ha, hm⟩ := List.mem_flatMap.mp hm
      obtain ⟨⟨mb, rb⟩, hb, heq⟩ := List.mem_map.mp hm
      obtain ⟨d, -, hd⟩ := List.mem_filterMap.mp hb
      split_ifs at hd
      cases hd
      cases heq
      rw [Match.append, h _ _ _ ha, List.append_nil]

/-- The groups of a match: the file and the digits. -/
theorem groups_of_mem_runs {m : Match Char} {s rest : Text}
    (h : (m, rest) ∈ cFileRefPattern.runs s) :
    ∃ r : Reference, r.text = m.text ∧ submatch m 2 = r.digits := by
  obtain ⟨⟨mf, rf⟩, hf, h⟩ := List.mem_flatMap.mp h
  obtain ⟨⟨mt, rt⟩, ht, heq⟩ := List.mem_map.mp h
  cases heq
  obtain ⟨⟨mc, rc⟩, hc, ht⟩ := List.mem_flatMap.mp ht
  obtain ⟨⟨md, rd⟩, hd, heq⟩ := List.mem_map.mp ht
  cases heq
  -- the file
  obtain ⟨⟨mw, rw'⟩, hw, heq⟩ := List.mem_map.mp hf
  cases heq
  have hfits := (Pattern.fits_of_mem_runs hw).2
  have hgroups : mw.groups = [] := by
    refine groups_word (fun s m rest hm => ?_) _ _ _ hw
    obtain ⟨r, -, heq⟩ := List.mem_map.mp hm
    rw [← (Prod.mk.inj heq).1]
  obtain ⟨stem, hstem, hne, hchars⟩ := Pattern.fits_word.mp hfits
  -- the colon
  obtain ⟨c, -, hsome⟩ := List.mem_filterMap.mp hc
  split_ifs at hsome with hcolon
  cases hsome
  obtain rfl := beq_iff_eq.mp hcolon
  -- the digits
  obtain ⟨⟨mn, rn⟩, hn, heq⟩ := List.mem_map.mp hd
  cases heq
  have hnumber := (Pattern.fits_of_mem_runs hn).2
  refine ⟨⟨stem, mn.text, hne, hchars, hnumber.1, hnumber.2⟩, ?_, ?_⟩
  · simp [Reference.text, Match.append, Match.grouped, hstem]
  · simp [submatch, Match.append, Match.grouped, hgroups]

/-! ## The loop over the references -/

/-- `Atoi` on the digits of a reference. -/
theorem strconvAtoi_reference (r : Reference) :
    (r.number < 2 ^ 63 ∧ strconvAtoi r.digits = .ok (Int64.ofNat r.number)) ∨
      (¬ r.number < 2 ^ 63 ∧ ∃ e, strconvAtoi r.digits = .error e) := by
  have hatoi := strconvAtoi_unsigned r.digits_ne_nil r.digits_chars
  by_cases h : r.number < 2 ^ 63
  · exact .inl ⟨h, hatoi.trans (if_pos h)⟩
  · exact .inr ⟨h, _, hatoi.trans (if_neg h)⟩

theorem ofNat_inj {n k : Nat} (hn : n < 2 ^ 63) (hk : k < 2 ^ 63)
    (h : Int64.ofNat n = Int64.ofNat k) : n = k := by
  have hint := congrArg Int64.toInt h
  rw [Int64.toInt_ofNat_of_lt hn, Int64.toInt_ofNat_of_lt hk] at hint
  exact Int.ofNat.inj hint

/-- The loop over the matches of some references: the lines of `done` were seen before. -/
theorem addPositions_references (sm : LineMap) {ms : List (Match Char)} {rs : List Reference}
    (hms : List.Forall₂ (fun m r => submatch m 2 = r.digits) ms rs) :
    ∀ {seen : List Int64} {done : List Nat},
      (∀ n < 2 ^ 63, Int64.ofNat n ∈ seen ↔ n ∈ done) →
      addPositions sm seen ms =
        (positions sm ((rs.map Reference.number).filter fun n => n ∉ done)).map arrow := by
  induction hms with
  | nil => intro seen done _; rfl
  | @cons m r ms rs hm hms ih =>
      intro seen done hseen
      rw [addPositions, hm, List.map_cons]
      -- a number that has had its arrow is passed over
      by_cases hdone : r.number ∈ done
      · rw [List.filter_cons_of_neg (by simpa using hdone), ← ih hseen]
        rcases strconvAtoi_reference r with ⟨hlt, hatoi⟩ | ⟨-, e, hatoi⟩
        · rw [hatoi]
          exact if_pos ((hseen _ hlt).mpr hdone)
        · rw [hatoi]
      · rw [List.filter_cons_of_pos (by simpa using hdone), positions, List.eraseDups_cons,
          List.filter_filter, List.filterMap_cons]
        have hrest : ∀ {seen' : List Int64},
            (∀ n < 2 ^ 63, Int64.ofNat n ∈ seen' ↔ n ∈ r.number :: done) →
            addPositions sm seen' ms =
              (((rs.map Reference.number).filter fun n => !n == r.number && n ∉ done).eraseDups
                |>.filterMap sm.lookup).map arrow := by
          intro seen' hseen'
          rw [ih hseen', positions]
          congr 4
          funext n
          by_cases hn : n = r.number <;> simp [hn]
        rcases strconvAtoi_reference r with ⟨hlt, hatoi⟩ | ⟨hlt, e, hatoi⟩
        · have hnew : Int64.ofNat r.number ∉ seen := fun h => hdone ((hseen _ hlt).mp h)
          have hstep := @hrest (Int64.ofNat r.number :: seen) fun n hn => by
            rw [List.mem_cons, List.mem_cons, hseen n hn]
            refine or_congr_left ⟨fun h => ofNat_inj hn hlt h, fun h => by rw [h]⟩
          rw [hatoi]
          simp only [hnew, if_false, LineMap.lookup, if_pos hlt]
          cases sm (Int64.ofNat r.number) with
          | none => exact hstep
          | some pos => exact congrArg _ hstep
        · -- a number that is no `int` is no line of the map
          rw [hatoi, LineMap.lookup, if_neg hlt]
          refine hrest fun n hn => ?_
          rw [hseen n hn, List.mem_cons]
          refine ⟨.inr, fun h => h.resolve_left ?_⟩
          rintro rfl
          exact hlt hn

/-! ## Lines -/

/-- The matches of a line are its references. -/
theorem findAll_references (line : Text) :
    ∃ rs : List Reference, LeftmostLongest IsReference line (rs.map Reference.text) ∧
      List.Forall₂ (fun m r => submatch m 2 = r.digits) (cFileRefPattern.findAll line) rs := by
  have htiled := Pattern.findAll_leftmostLongest greedy_cFileRefPattern line
  have hlang : cFileRefPattern.Fits = IsReference := by
    funext w
    exact propext fits_cFileRefPattern
  rw [hlang] at htiled
  have hmatch : ∀ m ∈ cFileRefPattern.findAll line,
      ∃ r : Reference, r.text = m.text ∧ submatch m 2 = r.digits := by
    intro m hm
    obtain ⟨s, rest, hrun⟩ := Pattern.mem_findAll hm
    exact groups_of_mem_runs hrun
  have hrefs : ∀ ms : List (Match Char),
      (∀ m ∈ ms, ∃ r : Reference, r.text = m.text ∧ submatch m 2 = r.digits) →
      ∃ rs : List Reference, rs.map Reference.text = ms.map Match.text ∧
        List.Forall₂ (fun m r => submatch m 2 = r.digits) ms rs := by
    intro ms
    induction ms with
    | nil => exact fun _ => ⟨[], rfl, .nil⟩
    | cons m ms ih =>
        intro h
        rw [List.forall_mem_cons] at h
        obtain ⟨⟨r, htext, hdigits⟩, hrest⟩ := h
        obtain ⟨rs, htexts, hall⟩ := ih hrest
        exact ⟨r :: rs, by rw [List.map_cons, List.map_cons, htext, htexts], .cons hdigits hall⟩
  obtain ⟨rs, htexts, hall⟩ := hrefs _ hmatch
  exact ⟨rs, by rwa [htexts], hall⟩

/-- The suffix of a line, from its references. -/
theorem annotateLine_matches {line : Text} {sm : LineMap} {rs : List Reference}
    (h : List.Forall₂ (fun m r => submatch m 2 = r.digits) (cFileRefPattern.findAll line) rs) :
    annotateLine line sm = line ++ suffix (positions sm (rs.map Reference.number)) := by
  have hloop := @addPositions_references sm _ _ h [] [] (by simp)
  simp only [List.not_mem_nil, not_false_eq_true, decide_true, List.filter_true] at hloop
  simp only [annotateLine, hloop]
  cases hp : positions sm (rs.map Reference.number) with
  | nil => simp [suffix]
  | cons p ps =>
      have hne : cFileRefPattern.findAll line ≠ [] := by
        intro hnil
        rw [hnil] at h
        cases h
        cases hp
      rw [if_neg hne]
      simp [suffix]

/-! ## Logs -/

/-- The lines of a log; the last one may lack its newline. -/
structure LogLines (log : Text) (ls : List Text) : Prop where
  noNewline : ∀ l ∈ ls, '\n' ∉ l
  text : log = ls.flatMap ended ∨
    ∃ init last, ls = init ++ [last] ∧ last ≠ [] ∧ log = init.flatMap ended ++ last

theorem splitLines_last {l : Text} (hne : l ≠ []) (h : '\n' ∉ l) : splitLines l = [l] := by
  induction l with
  | nil => exact absurd rfl hne
  | cons c cs ih =>
      rw [List.mem_cons, not_or] at h
      rw [splitLines, if_neg (Ne.symm h.1)]
      cases cs with
      | nil => rfl
      | cons d ds => rw [ih (by simp) h.2]

/-- The scanner returns the lines of a log. -/
theorem LogLines.splitLines {log : Text} {ls : List Text} (h : LogLines log ls) :
    splitLines log = ls := by
  rcases h.text with rfl | ⟨init, last, rfl, hne, rfl⟩
  · exact splitLines_flatMap h.noNewline
  · have hinit : ∀ l ∈ init, '\n' ∉ l := fun l hl => h.noNewline l (List.mem_append_left _ hl)
    have hlast : '\n' ∉ last := h.noNewline last (by simp)
    clear h
    induction init with
    | nil => exact splitLines_last hne hlast
    | cons l init ih =>
        rw [List.forall_mem_cons] at hinit
        rw [List.flatMap_cons, List.append_assoc, splitLines_ended hinit.1, ih hinit.2]
        rfl

theorem exists_logLines (log : Text) : ∃ ls, LogLines log ls := by
  induction log with
  | nil => exact ⟨[], by simp, .inl rfl⟩
  | cons c cs ih =>
      obtain ⟨ls, hnew, htext⟩ := ih
      by_cases hc : c = '\n'
      · -- an empty line in front
        refine ⟨[] :: ls, by simpa using hnew, ?_⟩
        rcases htext with rfl | ⟨init, last, rfl, hne, rfl⟩
        · exact .inl (by rw [hc]; rfl)
        · exact .inr ⟨[] :: init, last, rfl, hne, by rw [hc]; rfl⟩
      · have hfront : ∀ {l : Text}, '\n' ∉ l → '\n' ∉ c :: l := by
          intro l hl
          simpa [hl] using Ne.symm hc
        rcases htext with rfl | ⟨init, last, rfl, hne, rfl⟩
        · cases ls with
          | nil => exact ⟨[[c]], by simpa using Ne.symm hc, .inr ⟨[], [c], rfl, by simp, rfl⟩⟩
          | cons l ls =>
              rw [List.forall_mem_cons] at hnew
              refine ⟨(c :: l) :: ls, ?_, .inl rfl⟩
              exact List.forall_mem_cons.mpr ⟨hfront hnew.1, hnew.2⟩
        · cases init with
          | nil =>
              refine ⟨[c :: last], ?_, .inr ⟨[], c :: last, rfl, by simp, rfl⟩⟩
              simpa using hfront (hnew last (by simp))
          | cons l init =>
              rw [List.cons_append, List.forall_mem_cons] at hnew
              refine ⟨(c :: l) :: (init ++ [last]), ?_, .inr ⟨(c :: l) :: init, last, rfl, hne, rfl⟩⟩
              exact List.forall_mem_cons.mpr ⟨hfront hnew.1, hnew.2⟩

/-- Lines that fit the buffer are all annotated. -/
theorem rewriteLines_eq {ls : List Text} {sm : LineMap}
    (h : ∀ l ∈ ls, l.getLast? ≠ some '\r' ∧ byteLen l < rewriteBuffer) :
    rewriteLines sm ls = ((annotateLines ls sm).flatMap ended, true) := by
  induction ls with
  | nil => rfl
  | cons l ls ih =>
      rw [List.forall_mem_cons] at h
      rw [rewriteLines, if_neg (Nat.not_le.mpr h.1.2), dropCR, if_neg h.1.1, ih h.2]
      rfl

/-- **Annotation is exact and conservative.**  A line is kept and followed by the positions
of the distinct lines its leftmost, longest references name, in the order of their first
occurrence; `Rewrite` writes what `AnnotateLines` returns, a line at a time. -/
theorem annotation_exact (sm : LineMap) :
    (∀ line, ∃ rs : List Reference,
      (∀ ws, LeftmostLongest IsReference line ws ↔ ws = rs.map Reference.text) ∧
        annotateLine line sm = line ++ suffix (positions sm (rs.map Reference.number))) ∧
      (∀ log, ∃ ls, LogLines log ls) ∧
      ∀ log ls, LogLines log ls →
        (∀ l ∈ ls, l.getLast? ≠ some '\r' ∧ byteLen l < 1024 * 1024) →
          rewrite log sm = ((annotateLines ls sm).flatMap ended, true) := by
  refine ⟨fun line => ?_, exists_logLines, fun log ls hlog hls => ?_⟩
  · obtain ⟨rs, hrs, hmatch⟩ := findAll_references line
    refine ⟨rs, fun ws => ⟨fun hws => hws.unique hrs, ?_⟩, annotateLine_matches hmatch⟩
    rintro rfl
    exact hrs
  · rw [rewrite, hlog.splitLines]
    exact rewriteLines_eq hls

/-- A source map with one line. -/
def oneLineMap : LineMap := Function.update (fun _ => none) 7 (some "a.go:3:1")

/-- Two references to one line, written differently, and a line without a newline. -/
theorem annotation_exact_log :
    rewrite "at x.bpf.c:7 and x.bpf.c:007b.bpf.c:8\nok" oneLineMap =
      (("at x.bpf.c:7 and x.bpf.c:007b.bpf.c:8    → a.go:3:1\nok\n" : Text), true) := by
  have hlines : LogLines "at x.bpf.c:7 and x.bpf.c:007b.bpf.c:8\nok"
      ["at x.bpf.c:7 and x.bpf.c:007b.bpf.c:8", "ok"] :=
    ⟨by decide, .inr ⟨["at x.bpf.c:7 and x.bpf.c:007b.bpf.c:8"], "ok", rfl, by decide, by decide⟩⟩
  rw [(annotation_exact oneLineMap).2.2 _ _ hlines (by decide)]
  decide +kernel

end Gobee
