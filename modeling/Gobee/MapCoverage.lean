/-
# Lines without a mapping

Which lines of an emitted function body have a mapping.  `writeStmt` records a position
once for each statement, so a line that is not the first of its statement has none:

* the lines of a `var` declaration after the first name;
* the line `} else if (...) {`, whose clause is written by `writeIfStmt` itself;
* the later lines of a text with a newline in it (a raw string literal, a field tag).

The emission of a body is cut into `Part`s, which are marked with the Go position their
text comes from, and `emit_mapsLines_iff` says exactly when all of their lines are
mapped.
-/
import Gobee.SourceMap

namespace Gobee

open CSyntax EmitM
open CSyntax.CExpr (render)

variable {α β : Type} {prog : Program}

/-! ## The positions recorded for the current line -/

/-- How an action changes the positions recorded since the current line began. -/
def Act.marks (mk : List Pos) : Act → List Pos
  | .writef s | .writeRaw s => if newlines s = 0 then mk else []
  | .writeln _ => []
  | .recordPos p => if p = 0 then mk else mk ++ [p]
  | .writeIndent | .indent | .dedent => mk

/-- `Act.marks` along a list of actions. -/
def marksAfter (mk : List Pos) (as : List Act) : List Pos := as.foldl Act.marks mk

theorem marksAfter_append (mk : List Pos) (as bs : List Act) :
    marksAfter mk (as ++ bs) = marksAfter (marksAfter mk as) bs :=
  List.foldl_append

/-- The mappings for the current line are those of the recorded positions. -/
structure MarksOk (prog : Program) (e : Emitter) (mk : List Pos) : Prop where
  le : ∀ m ∈ e.mappings, m.cLine ≤ e.cLine
  current : ∀ x, ⟨e.cLine, x⟩ ∈ e.mappings ↔ ∃ p ∈ mk, prog.position p = x

/-- After a newline there is nothing recorded for the current line. -/
theorem MarksOk.later {e e' : Emitter} {mk : List Pos} (h : MarksOk prog e mk)
    (hms : e'.mappings = e.mappings) (hline : e.cLine < e'.cLine) : MarksOk prog e' [] := by
  refine ⟨fun m hm => ?_, fun x => ?_⟩
  · rw [hms] at hm
    exact (h.le m hm).trans hline.le
  · rw [hms]
    constructor
    · intro hm
      have := h.le _ hm
      simp only at this
      omega
    · rintro ⟨p, hp, -⟩
      cases hp

theorem MarksOk.same {e e' : Emitter} {mk : List Pos} (h : MarksOk prog e mk)
    (hms : e'.mappings = e.mappings) (hline : e'.cLine = e.cLine) : MarksOk prog e' mk := by
  refine ⟨?_, ?_⟩
  · rw [hms, hline]
    exact h.le
  · rw [hms, hline]
    exact h.current

theorem marksOk_text {e e' : Emitter} {mk : List Pos} {s : Text} (h : MarksOk prog e mk)
    (hms : e'.mappings = e.mappings) (hline : e'.cLine = e.cLine + newlines s) :
    MarksOk prog e' (if newlines s = 0 then mk else []) := by
  split_ifs with hs
  · exact h.same hms (by omega)
  · exact h.later hms (by omega)

theorem marksOk_act {e : Emitter} {mk : List Pos} (h : MarksOk prog e mk) (a : Act) :
    MarksOk prog (e.act prog a) (a.marks mk) := by
  cases a with
  | writef s => exact marksOk_text h rfl rfl
  | writeRaw s => exact marksOk_text h rfl rfl
  | writeln s => exact h.later rfl (Nat.lt_succ_self _)
  | writeIndent => exact h.same rfl rfl
  | indent => exact h.same rfl rfl
  | dedent => exact h.same rfl rfl
  | recordPos p =>
      simp only [Emitter.act, Act.marks]
      split_ifs with hp
      · exact h
      · refine ⟨fun m hm => ?_, fun x => ?_⟩
        · rcases List.mem_append.mp hm with hm | hm
          · exact h.le m hm
          · rw [List.mem_singleton.mp hm]
        · simp only [List.mem_append, h.current x, List.mem_singleton, SourceMapping.mk.injEq,
            true_and]
          constructor
          · rintro (⟨q, hq, hx⟩ | rfl)
            · exact ⟨q, Or.inl hq, hx⟩
            · exact ⟨p, Or.inr rfl, rfl⟩
          · rintro ⟨q, hq | rfl, hx⟩
            · exact Or.inl ⟨q, hq, hx⟩
            · exact Or.inr hx.symm

theorem marksOk_acts (as : List Act) : ∀ {e : Emitter} {mk : List Pos}, MarksOk prog e mk →
    MarksOk prog (e.acts prog as) (marksAfter mk as) := by
  induction as with
  | nil => intro e mk h; exact h
  | cons a as ih =>
      intro e mk h
      exact ih (marksOk_act h a)

theorem marksOk_new : MarksOk prog Emitter.new [] := by
  refine ⟨by simp [Emitter.new], by simp [Emitter.new]⟩

/-! ## The lines of a piece of text -/

/-- The newlines an action writes. -/
def Act.breaks : Act → Nat
  | .writef s | .writeRaw s => newlines s
  | .writeln _ => 1
  | _ => 0

/-- The newlines a list of actions writes. -/
def breaks (as : List Act) : Nat := (as.map Act.breaks).sum

theorem breaks_append (as bs : List Act) : breaks (as ++ bs) = breaks as + breaks bs := by
  simp [breaks]

theorem acts_cLine (as : List Act) : ∀ e : Emitter,
    (e.acts prog as).cLine = e.cLine + breaks as := by
  induction as with
  | nil => intro e; rfl
  | cons a as ih =>
      intro e
      have ha : (e.act prog a).cLine = e.cLine + a.breaks := by
        cases a with
        | recordPos p =>
            simp only [Emitter.act]
            split_ifs <;> rfl
        | _ => rfl
      rw [acts_cons, ih, ha, breaks, breaks, List.map_cons, List.sum_cons]
      omega

/-- The actions write text and record nothing. -/
structure Textual (as : List Act) : Prop where
  opens : opens as = true
  silent : ∀ p, .recordPos p ∉ as
  breaks_pos : 0 < breaks as

theorem mapped_eq_nil {as : List Act} (h : ∀ p, .recordPos p ∉ as) :
    ∀ e : Emitter, mapped prog e as = [] := by
  induction as with
  | nil => intro e; rfl
  | cons a as ih =>
      intro e
      have ha : a.mapped prog e = [] := by
        cases a with
        | recordPos p => exact absurd (List.mem_cons_self ..) (h p)
        | _ => rfl
      rw [mapped, ha, ih (fun p hp => h p (List.mem_cons_of_mem _ hp)), List.append_nil]

/-- The lines of a text all have a mapping to the position. -/
def LinesMapped (prog : Program) (ms : List SourceMapping) (first count : Nat) (p : Pos) : Prop :=
  ∀ k < count, ∃ m ∈ ms, m.cLine = first + k ∧ m.position = prog.position p

/-- **The lines of a text are mapped exactly when there is one line and its position was
recorded since that line began.** -/
theorem linesMapped_iff {acts pre own post : List Act} {start : Bool} {p : Pos}
    (hl : Lined true start acts) (hacts : acts = pre ++ (own ++ post)) (hown : Textual own) :
    LinesMapped prog (Emitter.after prog acts).mappings
        (1 + newlines (Emitter.after prog pre).buf) (breaks own) p ↔
      breaks own ≤ 1 ∧ ∃ q ∈ marksAfter [] pre, prog.position q = prog.position p := by
  obtain ⟨hplain, hlined⟩ := hl
  have hok : (Emitter.after prog pre).LineOk := lineOk_of_prefix hplain ⟨own ++ post, hacts.symm⟩
  have hmk : MarksOk prog (Emitter.after prog pre) (marksAfter [] pre) :=
    marksOk_acts pre marksOk_new
  have hms : (Emitter.after prog acts).mappings = (Emitter.after prog pre).mappings ++
      mapped prog (Emitter.after prog pre) (own ++ post) := by
    rw [hacts]
    simp only [Emitter.after, acts_append, acts_mappings, mapped_append, List.append_assoc]
  have hplain' : ∀ a ∈ own ++ post, a.Plain := fun a ha => hplain a (by simp [hacts, ha])
  rw [hacts, lined_append] at hlined
  obtain ⟨s, hs, hs'⟩ := Option.bind_eq_some_iff.mp hlined
  have hat : s = true → (Emitter.after prog pre).AtStart := acts_atStart (fun _ => Or.inl rfl) hs
  have hlater : ∀ m ∈ mapped prog (Emitter.after prog pre) (own ++ post),
      (Emitter.after prog pre).cLine < m.cLine :=
    later_of_opens hplain' hok hat hs' (opens_append hown.opens)
  -- what is recorded after the text is for lines after all of its lines
  have hafter : ∀ m ∈ mapped prog (Emitter.after prog pre) (own ++ post),
      (Emitter.after prog pre).cLine + breaks own ≤ m.cLine := by
    intro m hm
    rw [mapped_append, mapped_eq_nil hown.silent, List.nil_append] at hm
    rw [← acts_cLine]
    exact le_of_mem_mapped hm
  rw [← hok]
  constructor
  · intro h
    obtain ⟨m, hm, hline, hposition⟩ := h 0 hown.breaks_pos
    refine ⟨?_, ?_⟩
    · by_contra hlt
      obtain ⟨m', hm', hline', -⟩ := h 1 (by omega)
      rw [hms] at hm'
      rcases List.mem_append.mp hm' with hm' | hm'
      · have := hmk.le m' hm'
        omega
      · have := hafter m' hm'
        omega
    · rw [hms] at hm
      rcases List.mem_append.mp hm with hm | hm
      · refine (hmk.current _).mp ?_
        rw [← hposition]
        obtain ⟨l, x⟩ := m
        obtain rfl : l = _ := hline
        exact hm
      · have := hlater m hm
        omega
  · rintro ⟨hone, hq⟩ k hk
    refine ⟨⟨(Emitter.after prog pre).cLine, prog.position p⟩, ?_, by simp only; omega, rfl⟩
    rw [hms]
    exact List.mem_append.mpr (Or.inl ((hmk.current _).mpr hq))

/-! ## Parts of an emitted body -/

/-- Some actions, and the Go position their text comes from; there is none for braces
and for actions that write no text. -/
structure Part where
  src : Option Pos
  acts : List Act

/-- Actions whose text comes from no statement. -/
def Part.glue (as : List Act) : Part := ⟨none, as⟩

/-- A closing brace. -/
def Part.close : Part := .glue [.dedent, .writeIndent, .writeln "\x7d"]

mutual
/-- The parts of a statement. -/
def CStmt.parts : CStmt → List Part
  | .simple src lines =>
      .glue [.recordPos src.pos] :: lines.map fun l => ⟨some src.pos, l.acts⟩
  | .block pos body =>
      .glue [.recordPos pos, .writeIndent, .writeln "\x7b", .indent] ::
        (blockParts body ++ [.close])
  | .ite pos _ cond body els =>
      .glue [.recordPos pos] ::
        ⟨some pos, [.writeIndent, .writef ("if (" ++ render cond ++ ") \x7b\n")]⟩ ::
        .glue [.indent] :: (blockParts body ++ .glue [.dedent] :: els.parts)
  | .loop pos _ init _ cond _ post body =>
      .glue [.recordPos pos] ::
        ⟨some pos, [.writeIndent, .writef ("for (" ++ init.text ++ "; " ++ render cond ++ "; " ++
          post.text ++ ") \x7b\n")]⟩ ::
        .glue [.indent] :: (blockParts body ++ [.close])

/-- The parts of an else part. -/
def CElse.parts : CElse → List Part
  | .none => [.glue [.writeIndent, .writeln "\x7d"]]
  | .elseIf pos _ cond body =>
      ⟨some pos, [.writeIndent, .writef "\x7d else ",
        .writef ("if (" ++ render cond ++ ") \x7b\n")]⟩ ::
        .glue [.indent] :: (blockParts body ++ [.close])
  | .block _ body =>
      .glue [.writeIndent, .writef "\x7d else \x7b\n", .indent] :: (blockParts body ++ [.close])

/-- The parts of a list of statements. -/
def blockParts : List CStmt → List Part
  | [] => []
  | c :: rest => c.parts ++ blockParts rest
end

/-- The actions of some parts. -/
def partsActs (ps : List Part) : List Act := ps.flatMap Part.acts

theorem partsActs_append (ps qs : List Part) :
    partsActs (ps ++ qs) = partsActs ps ++ partsActs qs :=
  List.flatMap_append

theorem partsActs_cons (p : Part) (ps : List Part) :
    partsActs (p :: ps) = p.acts ++ partsActs ps := rfl

theorem partsActs_lines (p : Pos) (ls : List CLine) :
    partsActs (ls.map fun l => ⟨some p, l.acts⟩) = ls.flatMap CLine.acts := by
  simp [partsActs, List.flatMap_map]

mutual
/-- The parts are a way of cutting the actions. -/
theorem partsActs_stmt : ∀ c : CStmt, partsActs c.parts = c.acts
  | .simple src lines => by
      rw [CStmt.parts, CStmt.acts, partsActs_cons, partsActs_lines]
      rfl
  | .block pos body => by
      rw [CStmt.parts, CStmt.acts, partsActs_cons, partsActs_append, partsActs_block body]
      rfl
  | .ite pos _ cond body els => by
      rw [CStmt.parts, CStmt.acts, partsActs_cons, partsActs_cons, partsActs_cons,
        partsActs_append, partsActs_cons, partsActs_block body, partsActs_else els]
      rfl
  | .loop pos _ init _ cond _ post body => by
      rw [CStmt.parts, CStmt.acts, partsActs_cons, partsActs_cons, partsActs_cons,
        partsActs_append, partsActs_block body]
      rfl

theorem partsActs_else : ∀ e : CElse, partsActs e.parts = .writeIndent :: e.acts
  | .none => by
      rw [CElse.parts, CElse.acts]
      rfl
  | .elseIf _ _ cond body => by
      rw [CElse.parts, CElse.acts, partsActs_cons, partsActs_cons, partsActs_append,
        partsActs_block body]
      rfl
  | .block _ body => by
      rw [CElse.parts, CElse.acts, partsActs_cons, partsActs_append, partsActs_block body]
      rfl

theorem partsActs_block : ∀ cs : List CStmt, partsActs (blockParts cs) = blockActs cs
  | [] => by
      rw [blockParts, blockActs]
      rfl
  | c :: rest => by
      rw [blockParts, blockActs, partsActs_append, partsActs_stmt c, partsActs_block rest]
end

/-- All lines of the parts whose text comes from a statement are mapped to it; `before`
are the actions before the parts. -/
def PartsMapped (prog : Program) (ms : List SourceMapping) (before : List Act)
    (ps : List Part) : Prop :=
  ∀ qs part rest p, ps = qs ++ part :: rest → part.src = some p →
    LinesMapped prog ms (1 + newlines (Emitter.after prog (before ++ partsActs qs)).buf)
      (breaks part.acts) p

/-- The same by the marks: each text is one line, and its position is among the marks. -/
def Covered (prog : Program) : List Pos → List Part → Prop
  | _, [] => True
  | mk, part :: rest =>
      (∀ p, part.src = some p →
        breaks part.acts ≤ 1 ∧ ∃ q ∈ mk, prog.position q = prog.position p) ∧
      Covered prog (marksAfter mk part.acts) rest

theorem covered_append (ps qs : List Part) : ∀ mk : List Pos,
    Covered prog mk (ps ++ qs) ↔
      Covered prog mk ps ∧ Covered prog (marksAfter mk (partsActs ps)) qs := by
  induction ps with
  | nil => intro mk; simp [Covered, partsActs, marksAfter]
  | cons p ps ih =>
      intro mk
      rw [List.cons_append, Covered, Covered, ih, partsActs_cons, marksAfter_append, and_assoc]

theorem covered_glue (as : List Act) (mk : List Pos) (ps : List Part) :
    Covered prog mk (.glue as :: ps) ↔ Covered prog (marksAfter mk as) ps := by
  simp [Covered, Part.glue]

/-- Every part whose text comes from a statement has text. -/
def AllTextual (ps : List Part) : Prop := ∀ part ∈ ps, part.src.isSome → Textual part.acts

/-- **The lines of the parts are mapped exactly when they are covered by the marks.** -/
theorem partsMapped_iff {acts before after : List Act} {ps : List Part} {start : Bool}
    (hl : Lined true start acts) (hacts : acts = before ++ (partsActs ps ++ after))
    (hps : AllTextual ps) :
    PartsMapped prog (Emitter.after prog acts).mappings before ps ↔
      Covered prog (marksAfter [] before) ps := by
  induction ps generalizing before with
  | nil =>
      refine ⟨fun _ => trivial, fun _ qs part rest p h => ?_⟩
      simp at h
  | cons part ps ih =>
      have hcut : acts = before ++ (part.acts ++ (partsActs ps ++ after)) := by
        rw [hacts, partsActs_cons, List.append_assoc]
      have hcut' : acts = (before ++ part.acts) ++ (partsActs ps ++ after) := by
        rw [hcut, List.append_assoc]
      have hrest := ih hcut' fun q hq => hps q (List.mem_cons_of_mem _ hq)
      rw [marksAfter_append] at hrest
      rw [Covered, ← hrest]
      have hhead : ∀ p, part.src = some p → (LinesMapped prog (Emitter.after prog acts).mappings
          (1 + newlines (Emitter.after prog before).buf) (breaks part.acts) p ↔
          breaks part.acts ≤ 1 ∧
            ∃ q ∈ marksAfter [] before, prog.position q = prog.position p) := by
        intro p hp
        exact linesMapped_iff hl hcut (hps part (List.mem_cons_self ..) (by simp [hp]))
      constructor
      · intro h
        refine ⟨fun p hp => (hhead p hp).mp ?_, fun qs q rest p hqs hp => ?_⟩
        · simpa [partsActs] using h [] part ps p rfl hp
        · have := h (part :: qs) q rest p (by rw [hqs, List.cons_append]) hp
          rwa [partsActs_cons, ← List.append_assoc] at this
      · rintro ⟨h, h'⟩ qs q rest p hqs hp
        cases qs with
        | nil =>
            cases hqs
            simpa [partsActs] using (hhead p hp).mpr (h p hp)
        | cons r qs =>
            cases hqs
            have := h' qs q rest p rfl hp
            rwa [List.append_assoc, ← partsActs_cons] at this

/-! ## When a body is covered -/

/-- The number of lines a simple statement is written on, if no text has a newline. -/
def lineCount : Stmt → Nat
  | .decl _ _ specs => (specs.flatMap ValueSpec.names).length
  | _ => 1

/-- The positions recorded for the line after a list of statements: those of the `var ()`
at its end. -/
def tailMarks : List Pos → List Stmt → List Pos
  | mk, [] => mk
  | mk, s :: rest => tailMarks (if lineCount s = 0 then mk ++ [s.pos] else []) rest

mutual
/-- Every `var` declares at most one name, and the position of every `else if` clause has
been recorded by a `var ()` right before it. -/
def Marked (prog : Program) : Stmt → Prop
  | .decl pos tok specs => lineCount (.decl pos tok specs) ≤ 1
  | .ifs _ _ _ body els => MarkedAll prog body ∧ MarkedElse prog (tailMarks [] body) els
  | .fors _ _ _ _ body => MarkedAll prog body
  | .block _ list => MarkedAll prog list
  | _ => True

/-- `Marked` for each statement. -/
def MarkedAll (prog : Program) : List Stmt → Prop
  | [] => True
  | s :: rest => Marked prog s ∧ MarkedAll prog rest

/-- `Marked` for an else clause after some recorded positions. -/
def MarkedElse (prog : Program) (mk : List Pos) : Option Stmt → Prop
  | some (.ifs pos _ _ body _) =>
      (∃ q ∈ mk, prog.position q = prog.position pos) ∧ MarkedAll prog body
  | some (.block _ list) => MarkedAll prog list
  | _ => True
end

mutual
/-- No line has a newline inside. -/
def CStmt.Flat : CStmt → Prop
  | .simple _ lines => ∀ l ∈ lines, newlines l.text = 0
  | .block _ body => FlatAll body
  | .ite _ _ cond body els => newlines (render cond) = 0 ∧ FlatAll body ∧ els.Flat
  | .loop _ _ init _ cond _ post body =>
      newlines init.text + newlines (render cond) + newlines post.text = 0 ∧ FlatAll body

/-- No line of an else part has a newline inside. -/
def CElse.Flat : CElse → Prop
  | .none => True
  | .elseIf _ _ cond body => newlines (render cond) = 0 ∧ FlatAll body
  | .block _ body => FlatAll body

/-- No line of a list of statements has a newline inside. -/
def FlatAll : List CStmt → Prop
  | [] => True
  | c :: rest => c.Flat ∧ FlatAll rest
end

theorem breaks_line (l : CLine) : breaks l.acts = newlines l.text + 1 := by
  have hend : ∀ s : Text, breaks [.writeIndent, .writef (s ++ ";\n")] = newlines s + 1 := by
    intro s
    have h1 : newlines [';', '\n'] = 1 := rfl
    simp [breaks, Act.breaks, newlines_append, h1]
  rcases l with ⟨cType, name, id, init⟩ | ⟨lhs, op, rhs⟩ | ⟨x, op⟩ | x | _ | x
  · exact hend _
  · exact hend _
  · exact hend _
  · exact hend _
  · rfl
  · exact hend _

theorem marksAfter_writef {s : Text} (hs : newlines s ≠ 0) (mk : List Pos) :
    marksAfter mk [.writeIndent, .writef s] = [] := by
  simp [marksAfter, Act.marks, hs]

theorem newlines_line (s : Text) : newlines (s ++ ";\n") ≠ 0 := by
  have h1 : newlines (";\n" : Text) = 1 := rfl
  rw [newlines_append, h1]
  omega

theorem marksAfter_line (l : CLine) (mk : List Pos) : marksAfter mk l.acts = [] := by
  rcases l with ⟨cType, name, id, init⟩ | ⟨lhs, op, rhs⟩ | ⟨x, op⟩ | x | _ | x
  · exact marksAfter_writef (newlines_line _) mk
  · exact marksAfter_writef (newlines_line _) mk
  · exact marksAfter_writef (newlines_line _) mk
  · exact marksAfter_writef (newlines_line _) mk
  · rfl
  · exact marksAfter_writef (newlines_line _) mk

theorem marksAfter_recordPos {p : Pos} (hp : p ≠ 0) (mk : List Pos) :
    marksAfter mk [.recordPos p] = mk ++ [p] := by
  simp [marksAfter, Act.marks, hp]

/-- The lines of a simple statement: the first is covered, a second is not. -/
theorem covered_lines {p : Pos} {mk : List Pos} (hp : p ∈ mk) (ls : List CLine) :
    Covered prog mk (ls.map fun l => ⟨some p, l.acts⟩) ↔
      ls.length ≤ 1 ∧ ∀ l ∈ ls, newlines l.text = 0 := by
  rcases ls with _ | ⟨l, _ | ⟨l', ls⟩⟩
  · simp [Covered]
  · have hex : ∃ q ∈ mk, prog.position q = prog.position p := ⟨p, hp, rfl⟩
    simp [Covered, breaks_line, hex]
  · simp [Covered, marksAfter_line]

theorem marksAfter_lines (ls : List CLine) (mk : List Pos) :
    marksAfter mk (ls.flatMap CLine.acts) = if ls.length = 0 then mk else [] := by
  induction ls generalizing mk with
  | nil => rfl
  | cons l ls ih =>
      rw [List.flatMap_cons, marksAfter_append, ih, marksAfter_line]
      simp

theorem length_specLines {n : Names} : ∀ {ids : List Ident} {values : List Expr}
    {ls : List CLine}, specLines prog n ids values = some ls → ls.length = ids.length
  | [], values, ls, h => by
      cases h
      rfl
  | id :: ids, values, ls, h => by
      rw [specLines] at h
      obtain ⟨cType, -, h⟩ := Option.bind_eq_some_iff.mp h
      obtain ⟨init, -, h⟩ := Option.bind_eq_some_iff.mp h
      obtain ⟨rest, hrest, h⟩ := Option.bind_eq_some_iff.mp h
      cases h
      rw [List.length_cons, List.length_cons, length_specLines hrest]

theorem length_specsLines {n : Names} {specs : List ValueSpec} {ls : List CLine}
    (h : specsLines prog n specs = some ls) :
    ls.length = (specs.flatMap ValueSpec.names).length := by
  induction specs generalizing ls with
  | nil =>
      cases h
      rfl
  | cons spec specs ih =>
      rw [specsLines] at h
      obtain ⟨ls', hls', h⟩ := Option.bind_eq_some_iff.mp h
      obtain ⟨rest, hrest, h⟩ := Option.bind_eq_some_iff.mp h
      cases h
      rw [List.length_append, length_specLines hls', ih hrest, List.flatMap_cons,
        List.length_append]

/-- A simple statement is written on `lineCount` lines. -/
theorem stmtTree_lineCount {s : Stmt} {n n' : Names} {c : CStmt} (hs : isSimple s = true)
    (h : stmtTree prog s n = some (c, n')) :
    ∃ ls, c = .simple s ls ∧ ls.length = lineCount s := by
  obtain ⟨ls, rfl⟩ : ∃ ls, c = .simple s ls := stmtTree_simple hs h
  refine ⟨ls, rfl, ?_⟩
  cases s with
  | decl pos tok specs =>
      rw [stmtTree] at h
      split_ifs at h
      obtain ⟨ls', hls', h⟩ := Option.map_eq_some_iff.mp h
      cases h
      exact length_specsLines hls'
  | assign lhs tok rhs =>
      obtain ⟨l, -, h⟩ := Option.map_eq_some_iff.mp h
      cases h
      rfl
  | ret pos results =>
      obtain ⟨l, -, h⟩ := Option.map_eq_some_iff.mp h
      cases h
      rfl
  | expr x =>
      obtain ⟨l, -, h⟩ := Option.map_eq_some_iff.mp h
      cases h
      rfl
  | incDec x inc =>
      obtain ⟨l, -, h⟩ := Option.map_eq_some_iff.mp h
      cases h
      rfl
  | _ => simp [isSimple] at hs

theorem marked_simple {s : Stmt} (hs : isSimple s = true) : Marked prog s ↔ lineCount s ≤ 1 := by
  cases s with
  | decl pos tok specs => rfl
  | assign lhs tok rhs => simp [Marked, lineCount]
  | ret pos results => simp [Marked, lineCount]
  | expr x => simp [Marked, lineCount]
  | incDec x inc => simp [Marked, lineCount]
  | _ => simp [isSimple] at hs

theorem mem_stmtConstructs (s : Stmt) : .stmt s ∈ stmtConstructs s := by
  cases s <;> simp [stmtConstructs]

theorem covered_simple {s : Stmt} {n n' : Names} {c : CStmt} (hs : isSimple s = true)
    (h : stmtTree prog s n = some (c, n')) (hc : ∀ k ∈ stmtConstructs s, k.recordedPos ≠ 0)
    (mk : List Pos) :
    (Covered prog mk c.parts ↔ Marked prog s ∧ c.Flat) ∧
      marksAfter mk c.acts = if lineCount s = 0 then mk ++ [s.pos] else [] := by
  have hpos : s.pos ≠ 0 := hc _ (mem_stmtConstructs s)
  obtain ⟨ls, rfl, hlen⟩ := stmtTree_lineCount hs h
  refine ⟨?_, ?_⟩
  · rw [CStmt.parts, CStmt.Flat, covered_glue, marksAfter_recordPos hpos,
      covered_lines (by simp), hlen, marked_simple hs]
  · rw [CStmt.acts, ← List.singleton_append, marksAfter_append, marksAfter_recordPos hpos,
      marksAfter_lines, hlen]

theorem covered_close (mk : List Pos) : Covered prog mk [.close] := by
  simp [Covered, Part.close, Part.glue]

/-- A block between its braces. -/
theorem covered_body {body : List CStmt} {P : Prop}
    (h : Covered prog [] (blockParts body) ↔ P) :
    Covered prog [] (.glue [.indent] :: (blockParts body ++ [.close])) ↔ P := by
  rw [covered_glue, covered_append]
  have hin : marksAfter [] [.indent] = [] := rfl
  rw [hin, h]
  exact and_iff_left (covered_close _)

theorem marksAfter_cons (mk : List Pos) (a : Act) (as : List Act) :
    marksAfter mk (a :: as) = marksAfter (a.marks mk) as := rfl

/-- The line that opens a block is covered if it has no newline inside and its position
is among the marks. -/
theorem covered_open {mk : List Pos} {p : Pos} {as : List Act} {s : Text} {ps : List Part}
    (has : breaks as = 0) :
    Covered prog mk (⟨some p, as ++ [.writef (s ++ ") \x7b\n")]⟩ :: ps) ↔
      (newlines s = 0 ∧ ∃ q ∈ mk, prog.position q = prog.position p) ∧ Covered prog [] ps := by
  have h1 : newlines (s ++ ") \x7b\n") = newlines s + 1 := by
    rw [newlines_append]
    rfl
  have hmarks : marksAfter mk (as ++ [.writef (s ++ ") \x7b\n")]) = [] := by
    rw [marksAfter_append, marksAfter_cons, Act.marks, h1]
    rfl
  have hbreaks : breaks (as ++ [.writef (s ++ ") \x7b\n")]) ≤ 1 ↔ newlines s = 0 := by
    rw [breaks_append, has]
    simp only [breaks, List.map_cons, List.map_nil, List.sum_cons, List.sum_nil, Act.breaks, h1]
    omega
  simp only [Covered, hmarks, hbreaks, Option.some.injEq, forall_eq']

theorem newlines_ifHeader (c : CTree) :
    newlines (("if (" : Text) ++ render c) = newlines (render c) := by
  rw [newlines_append]
  exact Nat.zero_add _

theorem newlines_forHeader (i : Text) (c : CTree) (p : Text) :
    newlines (("for (" : Text) ++ i ++ "; " ++ render c ++ "; " ++ p) =
      newlines i + newlines (render c) + newlines p := by
  simp only [newlines_append, show newlines ("for (" : Text) = 0 from rfl,
    show newlines ("; " : Text) = 0 from rfl]
  omega

/-- Nothing is recorded for the line after an else part. -/
theorem marksAfter_else (e : CElse) (mk : List Pos) : marksAfter mk e.acts = [] := by
  cases e with
  | none => rfl
  | elseIf pos goCond cond body =>
      simp only [CElse.acts, marksAfter_cons, marksAfter_append]
      rfl
  | block pos body =>
      simp only [CElse.acts, marksAfter_cons, marksAfter_append]
      rfl

mutual
/-- A statement is covered exactly when it is marked and flat. -/
theorem covered_stmt : ∀ {s : Stmt} {n n' : Names} {c : CStmt}
    (_ : stmtTree prog s n = some (c, n')) (_ : ∀ k ∈ stmtConstructs s, k.recordedPos ≠ 0)
    (mk : List Pos), (Covered prog mk c.parts ↔ Marked prog s ∧ c.Flat) ∧
      marksAfter mk c.acts = if lineCount s = 0 then mk ++ [s.pos] else []
  | .ifs pos init cond body els, n, n', c, h, hpos, mk => by
      obtain ⟨-, t, b, n₁, e, -, hb, he, hc⟩ := stmtTree_ifs h
      obtain rfl : c = _ := hc
      simp only [stmtConstructs, List.mem_cons, List.mem_append] at hpos
      have hp : pos ≠ 0 := hpos _ (Or.inl rfl)
      obtain ⟨hbody, hmarks⟩ := covered_block hb (fun k hk => hpos k (Or.inr (Or.inl hk))) []
      have helse := covered_else he (fun k hk => hpos k (Or.inr (Or.inr hk))) (tailMarks [] body)
      have hex : ∃ q ∈ mk ++ [pos], prog.position q = prog.position pos :=
        ⟨pos, by simp, rfl⟩
      refine ⟨?_, ?_⟩
      -- the header is covered by its own mark, the branches by theirs
      · have hhead := @covered_open prog (mk ++ [pos]) pos [.writeIndent] ("if (" ++ render t)
          (.glue [.indent] :: (blockParts b ++ .glue [.dedent] :: e.parts)) rfl
        rw [CStmt.parts, CStmt.Flat, Marked, covered_glue, marksAfter_recordPos hp]
        refine hhead.trans ?_
        rw [covered_glue, covered_append, covered_glue, partsActs_block, newlines_ifHeader]
        change _ ∧ Covered prog [] _ ∧ Covered prog (marksAfter [] (blockActs b)) _ ↔ _
        rw [hbody, hmarks, helse]
        constructor
        · rintro ⟨⟨ht, -⟩, ⟨hm, hf⟩, hm', hf'⟩
          exact ⟨⟨hm, hm'⟩, ht, hf, hf'⟩
        · rintro ⟨⟨hm, hm'⟩, ht, hf, hf'⟩
          exact ⟨⟨ht, hex⟩, ⟨hm, hf⟩, hm', hf'⟩
      · simp only [CStmt.acts, marksAfter_cons, marksAfter_append, marksAfter_else]
        rfl
  | .fors pos init cond post body, n, n', c, h, hpos, mk => by
      obtain ⟨i, e, q, initL, condT, postL, b, -, -, -, -, -, -, hb, hc⟩ := stmtTree_fors h
      obtain rfl : c = _ := hc
      simp only [stmtConstructs, List.mem_cons] at hpos
      have hp : pos ≠ 0 := hpos _ (Or.inl rfl)
      obtain ⟨hbody, -⟩ := covered_block hb (fun k hk => hpos k (Or.inr hk)) []
      have hex : ∃ q ∈ mk ++ [pos], prog.position q = prog.position pos :=
        ⟨pos, by simp, rfl⟩
      refine ⟨?_, ?_⟩
      · have hhead := @covered_open prog (mk ++ [pos]) pos [.writeIndent]
          ("for (" ++ initL.text ++ "; " ++ render condT ++ "; " ++ postL.text)
          (.glue [.indent] :: (blockParts b ++ [.close])) rfl
        rw [CStmt.parts, CStmt.Flat, Marked, covered_glue, marksAfter_recordPos hp]
        refine hhead.trans ?_
        rw [covered_body hbody, newlines_forHeader]
        constructor
        · rintro ⟨⟨ht, -⟩, hm, hf⟩
          exact ⟨hm, ht, hf⟩
        · rintro ⟨hm, ht, hf⟩
          exact ⟨⟨ht, hex⟩, hm, hf⟩
      · simp only [CStmt.acts, marksAfter_cons, marksAfter_append]
        rfl
  | .block pos list, n, n', c, h, hpos, mk => by
      obtain ⟨b, hb, hc⟩ := stmtTree_block h
      obtain rfl : c = _ := hc
      simp only [stmtConstructs, List.mem_cons] at hpos
      obtain ⟨hbody, -⟩ := covered_block hb (fun k hk => hpos k (Or.inr hk)) []
      refine ⟨?_, ?_⟩
      · rw [CStmt.parts, CStmt.Flat, Marked, covered_glue, covered_append]
        change Covered prog [] _ ∧ _ ↔ _
        rw [hbody]
        exact and_iff_left (covered_close _)
      · simp only [CStmt.acts, marksAfter_cons, marksAfter_append]
        rfl
  | .decl pos tok specs, n, n', c, h, hpos, mk =>
      covered_simple rfl h hpos mk
  | .assign lhs tok rhs, n, n', c, h, hpos, mk =>
      covered_simple rfl h hpos mk
  | .ret pos results, n, n', c, h, hpos, mk =>
      covered_simple rfl h hpos mk
  | .expr x, n, n', c, h, hpos, mk =>
      covered_simple rfl h hpos mk
  | .incDec x inc, n, n', c, h, hpos, mk =>
      covered_simple rfl h hpos mk
  | .other kind pos children, n, n', c, h, hpos, mk => by cases h

theorem covered_block : ∀ {list : List Stmt} {n n' : Names} {cs : List CStmt}
    (_ : blockTree prog list n = some (cs, n')) (_ : ∀ k ∈ blockConstructs list, k.recordedPos ≠ 0)
    (mk : List Pos), (Covered prog mk (blockParts cs) ↔ MarkedAll prog list ∧ FlatAll cs) ∧
      marksAfter mk (blockActs cs) = tailMarks mk list
  | [], n, n', cs, h, hpos, mk => by
      cases h
      exact ⟨by simp [blockParts, Covered, MarkedAll, FlatAll], rfl⟩
  | s :: rest, n, n', cs, h, hpos, mk => by
      obtain ⟨c, n₁, cs', hs, hrest, hcs⟩ := blockTree_cons h
      obtain rfl : cs = _ := hcs
      simp only [blockConstructs, List.mem_append] at hpos
      obtain ⟨hc, hm⟩ := covered_stmt hs (fun k hk => hpos k (Or.inl hk)) mk
      obtain ⟨hc', hm'⟩ := covered_block hrest (fun k hk => hpos k (Or.inr hk))
        (if lineCount s = 0 then mk ++ [s.pos] else [])
      refine ⟨?_, ?_⟩
      · rw [blockParts, covered_append, partsActs_stmt, hm, hc, hc', MarkedAll, FlatAll]
        exact and_and_and_comm
      · rw [blockActs, marksAfter_append, hm, hm', tailMarks]

theorem covered_else : ∀ {els : Option Stmt} {n n' : Names} {e : CElse}
    (_ : elseTree prog els n = some (e, n')) (_ : ∀ k ∈ elseConstructs els, k.recordedPos ≠ 0)
    (mk : List Pos), Covered prog mk e.parts ↔ MarkedElse prog mk els ∧ e.Flat
  | none, n, n', e, h, _, mk => by
      cases h
      simp [CElse.parts, Covered, Part.glue, MarkedElse, CElse.Flat]
  | some (.ifs pos init cond body els), n, n', e, h, hpos, mk => by
      obtain ⟨t, b, -, hb, he⟩ := elseTree_ifs h
      obtain rfl : e = _ := he
      obtain ⟨hbody, -⟩ := covered_block hb hpos []
      have hhead := @covered_open prog mk pos [.writeIndent, .writef "\x7d else "]
        ("if (" ++ render t) (.glue [.indent] :: (blockParts b ++ [.close])) rfl
      rw [CElse.parts, CElse.Flat, MarkedElse]
      refine hhead.trans ?_
      rw [covered_body hbody, newlines_ifHeader]
      constructor
      · rintro ⟨⟨ht, hq⟩, hm, hf⟩
        exact ⟨⟨hq, hm⟩, ht, hf⟩
      · rintro ⟨⟨hq, hm⟩, ht, hf⟩
        exact ⟨⟨ht, hq⟩, hm, hf⟩
  | some (.block pos list), n, n', e, h, hpos, mk => by
      obtain ⟨b, hb, he⟩ := elseTree_block h
      obtain rfl : e = _ := he
      obtain ⟨hbody, -⟩ := covered_block hb hpos []
      rw [CElse.parts, CElse.Flat, MarkedElse, covered_glue, covered_append]
      change Covered prog [] _ ∧ _ ↔ _
      rw [hbody]
      exact and_iff_left (covered_close _)
  | some (.decl _ _ _), _, _, _, h, _, _ => by cases h
  | some (.assign _ _ _), _, _, _, h, _, _ => by cases h
  | some (.ret _ _), _, _, _, h, _, _ => by cases h
  | some (.expr _), _, _, _, h, _, _ => by cases h
  | some (.fors _ _ _ _ _), _, _, _, h, _, _ => by cases h
  | some (.incDec _ _), _, _, _, h, _, _ => by cases h
  | some (.other _ _ _), _, _, _, h, _, _ => by cases h
end

/-! ## Every marked part has text -/

theorem textual_line (l : CLine) : Textual l.acts := by
  refine ⟨opens_line l, ?_, ?_⟩
  · intro p
    rcases l with ⟨cType, name, id, init⟩ | ⟨lhs, op, rhs⟩ | ⟨x, op⟩ | x | _ | x <;> simp
  · rw [breaks_line]
    omega

theorem textual_open (c : Char) (s : Text) :
    Textual [.writeIndent, .writef (c :: s ++ ") \x7b\n")] := by
  refine ⟨rfl, by simp, ?_⟩
  have h1 : newlines (c :: s ++ ") \x7b\n") = newlines (c :: s) + 1 := by
    rw [newlines_append]
    rfl
  simp only [breaks, List.map_cons, List.map_nil, List.sum_cons, List.sum_nil, Act.breaks, h1]
  omega

theorem textual_elseIf (s : Text) :
    Textual [.writeIndent, .writef "\x7d else ", .writef (s ++ ") \x7b\n")] := by
  refine ⟨rfl, by simp, ?_⟩
  have h1 : newlines (s ++ ") \x7b\n") = newlines s + 1 := by
    rw [newlines_append]
    rfl
  simp only [breaks, List.map_cons, List.map_nil, List.sum_cons, List.sum_nil, Act.breaks, h1]
  omega

theorem allTextual_glue {as : List Act} {ps : List Part} (h : AllTextual ps) :
    AllTextual (.glue as :: ps) := by
  intro part hp hsrc
  rcases List.mem_cons.mp hp with rfl | hp
  · simp [Part.glue] at hsrc
  · exact h part hp hsrc

theorem allTextual_cons {p : Pos} {as : List Act} {ps : List Part} (has : Textual as)
    (h : AllTextual ps) : AllTextual (⟨some p, as⟩ :: ps) := by
  intro part hp hsrc
  rcases List.mem_cons.mp hp with rfl | hp
  · exact has
  · exact h part hp hsrc

theorem allTextual_append {ps qs : List Part} (hp : AllTextual ps) (hq : AllTextual qs) :
    AllTextual (ps ++ qs) := by
  intro part h hsrc
  rcases List.mem_append.mp h with h | h
  · exact hp part h hsrc
  · exact hq part h hsrc

theorem allTextual_close {ps : List Part} (h : AllTextual ps) : AllTextual (ps ++ [.close]) :=
  allTextual_append h (allTextual_glue (by simp [AllTextual]))

mutual
theorem allTextual_stmt : ∀ c : CStmt, AllTextual c.parts
  | .simple src lines => by
      rw [CStmt.parts]
      refine allTextual_glue fun part hp _ => ?_
      obtain ⟨l, -, rfl⟩ := List.mem_map.mp hp
      exact textual_line l
  | .block pos body => by
      rw [CStmt.parts]
      exact allTextual_glue (allTextual_close (allTextual_block body))
  | .ite pos _ cond body els => by
      rw [CStmt.parts]
      refine allTextual_glue (allTextual_cons (textual_open _ _) (allTextual_glue ?_))
      exact allTextual_append (allTextual_block body) (allTextual_glue (allTextual_else els))
  | .loop pos _ init _ cond _ post body => by
      rw [CStmt.parts]
      refine allTextual_glue (allTextual_cons (textual_open _ _) (allTextual_glue ?_))
      exact allTextual_close (allTextual_block body)

theorem allTextual_else : ∀ e : CElse, AllTextual e.parts
  | .none => by
      rw [CElse.parts]
      exact allTextual_glue (by simp [AllTextual])
  | .elseIf _ _ cond body => by
      rw [CElse.parts]
      refine allTextual_cons (textual_elseIf _) (allTextual_glue ?_)
      exact allTextual_close (allTextual_block body)
  | .block _ body => by
      rw [CElse.parts]
      exact allTextual_glue (allTextual_close (allTextual_block body))

theorem allTextual_block : ∀ cs : List CStmt, AllTextual (blockParts cs)
  | [] => by
      rw [blockParts]
      simp [AllTextual]
  | c :: rest => by
      rw [blockParts]
      exact allTextual_append (allTextual_stmt c) (allTextual_block rest)
end

/-! ## Function bodies -/

/-- The function a construct is. -/
def Construct.func? : Construct → Option FuncDecl
  | .helper h => some h.decl
  | .program p => some p.decl
  | _ => none

/-- The computation writes the body of a function between other actions, and its first
line begins without a recorded position. -/
def HasBody (prog : Program) (fd : FuncDecl) (m : EmitM α) : Prop :=
  ∀ n r, out m n = some r → ∃ body head cs tail n', fd.body = some body ∧
    blockTree prog body.list n = some (cs, n') ∧ r.2.2 = head ++ (blockActs cs ++ tail) ∧
    ∀ mk, marksAfter mk head = []

/-- The computation does not change the names. -/
def KeepsNames (m : EmitM α) : Prop := ∀ n r, out m n = some r → r.2.1 = n

theorem keepsNames_lift (r : Result α) : KeepsNames (lift r) := by
  intro n q hq
  rw [out_lift] at hq
  obtain ⟨a, -, rfl⟩ := Option.map_eq_some_iff.mp hq
  rfl

theorem keepsNames_perform (a : Act) : KeepsNames (perform a) := by
  intro n q hq
  cases hq
  rfl

theorem HasBody.after {fd : FuncDecl} {m : EmitM α} {f : α → EmitM β} (hm : KeepsNames m)
    (hf : ∀ a, HasBody prog fd (f a)) : HasBody prog fd (m >>= f) := by
  intro n r hr
  rw [out_bind] at hr
  obtain ⟨q, hq, hr⟩ := Option.bind_eq_some_iff.mp hr
  obtain ⟨t, ht, rfl⟩ := Option.map_eq_some_iff.mp hr
  obtain ⟨body, head, cs, tail, n', hbody, hcs, hacts, hmarks⟩ := hf q.1 q.2.1 t ht
  rw [hm n q hq] at hcs
  refine ⟨body, q.2.2 ++ head, cs, tail, n', hbody, hcs, ?_, fun mk => ?_⟩
  · rw [hacts, List.append_assoc]
  · rw [marksAfter_append, hmarks]

theorem hasBody_open {fd : FuncDecl} {s : Text} {rest : EmitM Unit} :
    HasBody prog fd (do
      writef (s ++ ") \x7b\n")
      indented (writeBody prog fd.body)
      rest) := by
  intro n r hr
  rw [out_bind, writef, out_perform, Option.bind_some] at hr
  obtain ⟨t, ht, rfl⟩ := Option.map_eq_some_iff.mp hr
  rw [out_bind, out_indented] at ht
  obtain ⟨q, hq, ht⟩ := Option.bind_eq_some_iff.mp ht
  obtain ⟨u, -, rfl⟩ := Option.map_eq_some_iff.mp ht
  obtain ⟨v, hv, rfl⟩ := Option.map_eq_some_iff.mp hq
  cases hbody : fd.body with
  | none =>
      rw [hbody] at hv
      cases hv
  | some body =>
      rw [hbody, writeBody, out_writeBlock] at hv
      obtain ⟨⟨cs, n'⟩, hcs, rfl⟩ := Option.map_eq_some_iff.mp hv
      refine ⟨body, [.writef (s ++ ") \x7b\n"), .indent], cs, .dedent :: u.2.2, n', rfl, hcs, ?_,
        fun mk => ?_⟩
      · simp
      · have h1 : newlines (s ++ ") \x7b\n") = newlines s + 1 := by
          rw [newlines_append]
          rfl
        rw [marksAfter_cons, Act.marks, h1]
        rfl

theorem hasBody_write {c : Construct} {fd : FuncDecl} (hc : c.func? = some fd) :
    HasBody prog fd (c.write prog) := by
  cases c with
  | helper h =>
      cases hc
      refine HasBody.after (keepsNames_perform _) fun _ => ?_
      refine HasBody.after (keepsNames_lift _) fun retC => ?_
      exact HasBody.after (keepsNames_lift _) fun params => hasBody_open
  | program p =>
      cases hc
      refine HasBody.after (keepsNames_perform _) fun _ => ?_
      refine HasBody.after (keepsNames_perform _) fun _ => ?_
      exact HasBody.after (keepsNames_lift _) fun param => hasBody_open
  | _ => cases hc

/-- The statements of a function of the program are among its constructs. -/
theorem bodyConstructs_subset {c : Construct} {fd : FuncDecl} (hc : c ∈ constructs prog)
    (hfd : c.func? = some fd) : ∀ k ∈ bodyConstructs fd, k ∈ constructs prog := by
  intro k hk
  have hbody : ∀ gd : FuncDecl, c ∉ bodyConstructs gd := by
    intro gd hgd
    obtain ⟨s, rfl⟩ := bodyConstructs_stmt gd c hgd
    cases hfd
  simp only [constructs, List.mem_append, List.mem_map, List.mem_flatMap, List.mem_cons] at hc ⊢
  rcases hc with ((⟨t, -, rfl⟩ | ⟨m, -, rfl⟩) | ⟨h, hh, rfl | hc⟩) | ⟨p, hp, rfl | hc⟩
  · cases hfd
  · cases hfd
  · cases hfd
    exact Or.inl (Or.inr ⟨h, hh, Or.inr hk⟩)
  · exact absurd hc (hbody _)
  · cases hfd
    exact Or.inr ⟨p, hp, Or.inr hk⟩
  · exact absurd hc (hbody _)

/-! ## Completeness -/

/-- **Which lines of a function body are mapped.**  Whenever `Emit` succeeds, every helper
and program of the file has an emitted body `cs`, and every line of it whose text comes
from a Go statement or if-clause has a mapping to the position of that statement or clause
exactly when every `var` statement declares at most one name, no `else if` clause occurs
(or a `var ()` right before it has recorded just its position), and no printed text
contains a newline. -/
theorem emit_mapsLines_iff (prog : Program) (label text : Text) (ms : List SourceMapping)
    (h : emit prog label = .ok (text, ms)) (hpos : ∀ c ∈ constructs prog, c.recordedPos ≠ 0) :
    ∃ n acts occs, emitActs prog label ⟨[], 0⟩ = .ok ((), n, acts) ∧
      text = (Emitter.after prog acts).buf ∧ ms = (Emitter.after prog acts).mappings ∧
      Composed prog label acts occs ∧
      ∀ o ∈ occs, ∀ fd, o.construct.func? = some fd →
        ∃ body head cs tail m m', fd.body = some body ∧
          blockTree prog body.list m = some (cs, m') ∧ o.own = head ++ (blockActs cs ++ tail) ∧
          blockActs cs = partsActs (blockParts cs) ∧
          (PartsMapped prog ms (o.before ++ head) (blockParts cs) ↔
            MarkedAll prog body.list ∧ FlatAll cs) := by
  obtain ⟨⟨_, n, acts⟩, hacts, heq⟩ := bind_ok h
  have hout : out (emitActs prog label) ⟨[], 0⟩ = some ((), n, acts) := out_eq_some.mpr hacts
  have hlined : Lined true true acts := lines_emitActs label _ _ hout
  obtain ⟨occs, hocc⟩ := emit_composed hacts
  cases heq
  refine ⟨n, acts, occs, hacts, rfl, rfl, hocc, fun o ho fd hfd => ?_⟩
  have hc : o.construct ∈ constructs prog := by
    rw [← hocc.constructs]
    exact List.mem_map_of_mem ho
  obtain ⟨has, -, m, m', hown⟩ := hocc.within o ho
  obtain ⟨body, head, cs, tail, m'', hbody, hcs, hcut, hmarks⟩ :=
    hasBody_write hfd m _ (out_eq_some.mpr hown)
  have hcut' : acts = (o.before ++ head) ++ (partsActs (blockParts cs) ++ (tail ++ o.after)) := by
    change acts = _ at has
    change o.own = _ at hcut
    rw [has, hcut, partsActs_block]
    simp
  have hbodypos : ∀ k ∈ blockConstructs body.list, k.recordedPos ≠ 0 := by
    intro k hk
    refine hpos k (bodyConstructs_subset hc hfd k ?_)
    rw [bodyConstructs, hbody]
    exact hk
  refine ⟨body, head, cs, tail, m, m'', hbody, hcs, hcut, (partsActs_block cs).symm, ?_⟩
  refine (partsMapped_iff hlined hcut' (allTextual_block cs)).trans ?_
  rw [marksAfter_append, hmarks]
  exact (covered_block hcs hbodypos []).1

/-- `func pick(a bool, b bool) { if a { } else if b { } }`. -/
def pickProgram : Program :=
  { emptyProgram (paramInfo (.basic .bool)) with
    helpers := [⟨"pick", ⟨"x.go", 3, 1⟩,
      { pos := 30
        name := ⟨"pick", 35⟩
        recv := none
        typeParams := none
        params := some ⟨39, [⟨[⟨['a'], 40⟩, ⟨['b'], 43⟩], .ident ⟨"bool", 45⟩⟩]⟩
        results := none
        body := some ⟨51, [.ifs 53 none (var 'a' 56) [] (some (.ifs 67 none (var 'b' 70) [] none))],
          76⟩ }⟩] }

/-- Line 11 of the C text is the `else if`, and no mapping is for it. -/
theorem pickProgram_unmapped :
    ∃ text ms, emit pickProgram "x.go" = .ok (text, ms) ∧
      (text.splitOn '\n')[10]? = some ("\t\x7d else if (b) \x7b" : Text) ∧
      ∀ m ∈ ms, m.cLine ≠ 11 :=
  ⟨_, _, rfl, rfl, by decide⟩

/-- `func same(a uint32) uint32 { return 7 }`. -/
def sameDecl : FuncDecl where
  pos := 30
  name := ⟨"same", 35⟩
  recv := none
  typeParams := none
  params := some ⟨39, [⟨[⟨['a'], 40⟩], .ident ⟨"uint32", 42⟩⟩]⟩
  results := some ⟨50, [⟨[], .ident ⟨"uint32", 50⟩⟩]⟩
  body := some ⟨57, [.ret 59 [.basicLit 66 .int ['7']]], 68⟩

/-- A map and the helper `same`. -/
def sameProgram : Program :=
  { emptyProgram (paramInfo (.basic .uint32)) with
    maps := [⟨"counts", ⟨"x.go", 1, 20⟩, "hash", some (.basic .uint32), some (.basic .uint64), 64,
      some 20⟩]
    helpers := [⟨"same", ⟨"x.go", 1, 30⟩, sameDecl⟩] }

theorem sameProgram_pos : ∀ c ∈ constructs sameProgram, c.recordedPos ≠ 0 := by
  simp [constructs, sameProgram, sameDecl, emptyProgram, bodyConstructs, blockConstructs,
    stmtConstructs, Construct.recordedPos, Stmt.pos]

theorem sameProgram_func {c : Construct} {fd : FuncDecl} (hc : c ∈ constructs sameProgram)
    (hfd : c.func? = some fd) : fd = sameDecl := by
  have hall : constructs sameProgram = [.map ⟨"counts", ⟨"x.go", 1, 20⟩, "hash",
      some (.basic .uint32), some (.basic .uint64), 64, some 20⟩,
      .helper ⟨"same", ⟨"x.go", 1, 30⟩, sameDecl⟩, .stmt (.ret 59 [.basicLit 66 .int ['7']])] := rfl
  rw [hall] at hc
  simp only [List.mem_cons, List.not_mem_nil, or_false] at hc
  rcases hc with rfl | rfl | rfl
  · cases hfd
  · cases hfd
    rfl
  · cases hfd

/-- All lines of the body of `same` are mapped. -/
theorem sameProgram_mapsLines :
    ∃ text ms, emit sameProgram "x.go" = .ok (text, ms) ∧
      (∀ c ∈ constructs sameProgram, c.recordedPos ≠ 0) ∧
      ∃ acts occs, Composed sameProgram "x.go" acts occs ∧
        ms = (Emitter.after sameProgram acts).mappings ∧
        ∀ o ∈ occs, ∀ fd, o.construct.func? = some fd →
          ∃ head cs tail, o.own = head ++ (blockActs cs ++ tail) ∧ cs ≠ [] ∧
            PartsMapped sameProgram ms (o.before ++ head) (blockParts cs) := by
  refine ⟨_, _, rfl, sameProgram_pos, ?_⟩
  obtain ⟨n, acts, occs, -, -, hms, hocc, hlines⟩ :=
    emit_mapsLines_iff sameProgram "x.go" _ _ rfl sameProgram_pos
  refine ⟨acts, occs, hocc, hms, fun o ho fd hfd => ?_⟩
  have hc : o.construct ∈ constructs sameProgram := by
    rw [← hocc.constructs]
    exact List.mem_map_of_mem ho
  obtain ⟨body, head, cs, tail, m, m', hbody, hcs, hown, -, hmapped⟩ := hlines o ho fd hfd
  rw [sameProgram_func hc hfd] at hbody
  cases hbody
  cases hcs
  refine ⟨head, _, tail, hown, List.cons_ne_nil _ _, hmapped.mpr ⟨⟨trivial, trivial⟩, ?_, trivial⟩⟩
  intro l hl
  rw [List.mem_singleton.mp hl]
  decide

end Gobee
