/-
# Positions in a verifier log

From a program to the log of the verifier: `Emit` records the position of each construct
where its text begins, `FormatSourceMap` prints the recorded positions, `ParseSourceMap`
reads them back and `annotateLine` writes them behind the references of a log line.

* `records` : the recorded positions of some actions, with the actions before each;
* `emit_mappings` : **the mappings are those of the constructs**, in order, and no others;
* `recordedAt` : the position recorded last for a line of the C text;
* `log_positions` : **a log line is followed by the positions of the constructs that begin
  on the lines it refers to**.
-/
import Gobee.Diagnose
import Gobee.MapCoverage
import Gobee.MapPositions

namespace Gobee

open EmitM Regexp

variable {α β : Type} {prog : Program}

/-! ## Recorded positions -/

/-- The position an action records. -/
def Act.recorded : Act → List Pos
  | .recordPos p => [p]
  | _ => []

/-- The recorded positions of some actions, with the actions before each. -/
def records : List Act → List (List Act × Pos)
  | [] => []
  | a :: as => a.recorded.map (([], ·)) ++ (records as).map (Prod.map (a :: ·) id)

theorem records_append (as bs : List Act) :
    records (as ++ bs) = records as ++ (records bs).map (Prod.map (as ++ ·) id) := by
  induction as with
  | nil => exact (List.map_id _).symm
  | cons a as ih =>
      rw [List.cons_append, records, records, ih, List.map_append, List.map_map, List.append_assoc]
      rfl

/-- A recorded position is among the records. -/
theorem mem_records (pre : List Act) (p : Pos) (post : List Act) :
    (pre, p) ∈ records (pre ++ .recordPos p :: post) := by
  rw [records_append, List.mem_append]
  exact .inr (List.mem_map.mpr ⟨([], p), by simp [records, Act.recorded], by simp⟩)

/-- The records stand in the order of their places. -/
theorem records_pairwise (as : List Act) :
    (records as).Pairwise fun x y => x.1.length < y.1.length := by
  induction as with
  | nil => exact List.Pairwise.nil
  | cons a as ih =>
      have hlater : ((records as).map (Prod.map (a :: ·) id)).Pairwise
          fun x y => x.1.length < y.1.length :=
        List.pairwise_map.mpr (ih.imp fun h => Nat.succ_lt_succ h)
      cases a with
      | recordPos p =>
          refine List.pairwise_cons.mpr ⟨?_, hlater⟩
          intro y hy
          obtain ⟨z, -, rfl⟩ := List.mem_map.mp hy
          exact Nat.succ_pos _
      | _ => exact hlater

/-- The mappings of a list of actions, from its records. -/
theorem mapped_records {as : List Act} (h : ∀ x ∈ records as, x.2 ≠ 0) : ∀ e : Emitter,
    mapped prog e as =
      (records as).map fun x => ⟨(e.acts prog x.1).cLine, prog.position x.2⟩ := by
  induction as with
  | nil => intro e; rfl
  | cons a as ih =>
      intro e
      rw [records, List.forall_mem_append] at h
      have hrest : ∀ x ∈ records as, x.2 ≠ 0 := fun x hx =>
        h.2 (Prod.map (a :: ·) id x) (List.mem_map_of_mem hx)
      rw [mapped, records, List.map_append, ih hrest]
      congr 1
      · cases a with
        | recordPos p =>
            have hp : p ≠ 0 := h.1 ([], p) (List.mem_singleton_self _)
            rw [Act.mapped, if_neg hp]
            rfl
        | _ => rfl
      · rw [List.map_map]
        rfl

/-! ## Counting the records

Each construct records one position, and nothing else records any. -/

/-- The computation records at most `k` positions. -/
abbrev RecordsAtMost (k : Nat) (m : EmitM α) : Prop :=
  Emits (fun as => (records as).length ≤ k) m

theorem RecordsAtMost.bind {j k : Nat} {m : EmitM α} {f : α → EmitM β} (hm : RecordsAtMost j m)
    (hf : ∀ a, RecordsAtMost k (f a)) : RecordsAtMost (j + k) (m >>= f) :=
  Emits.bind hm hf fun as bs ha hb => by
    rw [records_append, List.length_append, List.length_map]
    exact Nat.add_le_add ha hb

theorem RecordsAtMost.mono {j k : Nat} {m : EmitM α} (hm : RecordsAtMost j m) (h : j ≤ k) :
    RecordsAtMost k m := fun n r hr => (hm n r hr).trans h

/-- A computation that records nothing. -/
abbrev Recordless (m : EmitM α) : Prop := RecordsAtMost 0 m

theorem Recordless.andThen {k : Nat} {m : EmitM α} {f : α → EmitM β} (hm : Recordless m)
    (hf : ∀ a, RecordsAtMost k (f a)) : RecordsAtMost k (m >>= f) :=
  (hm.bind hf).mono (Nat.zero_add k).le

theorem RecordsAtMost.close {k : Nat} {m : EmitM α} {f : α → EmitM β} (hm : RecordsAtMost k m)
    (hf : ∀ a, Recordless (f a)) : RecordsAtMost k (m >>= f) := hm.bind hf

theorem recordless_of_silent {m : EmitM α} (hm : Silent m) : Recordless m := by
  intro n r hr
  rw [hm n r hr]
  rfl

theorem recordless_lift (r : Result α) : Recordless (lift r) := recordless_of_silent (silent_lift r)

theorem recordless_pure (a : α) : Recordless (pure a : EmitM α) := Emits.pure a le_rfl

theorem recordless_writef (s : Text) : Recordless (writef s) := Emits.perform le_rfl

theorem recordless_writeln (s : Text) : Recordless (writeln s) := Emits.perform le_rfl

theorem recordless_writeRaw (s : Text) : Recordless (writeRaw s) := Emits.perform le_rfl

theorem recordless_writeIndent : Recordless writeIndent := Emits.perform le_rfl

/-- Write a line and go on. -/
theorem recordless_line {k : Nat} {s : Text} {m : EmitM α} (hm : RecordsAtMost k m) :
    RecordsAtMost k (do writeln s; m) := (recordless_writeln s).andThen fun _ => hm

/-- Write a text and go on. -/
theorem recordless_text {k : Nat} {s : Text} {m : EmitM α} (hm : RecordsAtMost k m) :
    RecordsAtMost k (do writef s; m) := (recordless_writef s).andThen fun _ => hm

theorem recordsAtMost_indented {k : Nat} {m : EmitM Unit} (hm : RecordsAtMost k m) :
    RecordsAtMost k (indented m) := by
  have hin : Recordless (perform .indent) := Emits.perform le_rfl
  have hout : Recordless (perform .dedent) := Emits.perform le_rfl
  exact hin.andThen fun _ => (hm.bind fun _ => hout)

theorem recordsAtMost_own {k : Nat} {p : Pos} {m : EmitM Unit} (hm : RecordsAtMost k m) :
    RecordsAtMost (k + 1) (do recordPos p; m) := by
  have hp : RecordsAtMost 1 (recordPos p) := Emits.perform le_rfl
  exact (hp.bind fun _ => hm).mono (Nat.add_comm 1 k).le

theorem recordsAtMost_forEach {γ : Type} {f : γ → EmitM Unit} {cs : γ → List Construct}
    (hf : ∀ x, RecordsAtMost (cs x).length (f x)) (xs : List γ) :
    RecordsAtMost (xs.flatMap cs).length (forEach f xs) := by
  induction xs with
  | nil => exact recordless_pure ()
  | cons x xs ih =>
      rw [List.flatMap_cons, List.length_append]
      exact (hf x).bind fun _ => ih

/-! ### Statements -/

theorem records_line (l : CLine) : records l.acts = [] := by
  rcases l with ⟨cType, name, id, init⟩ | ⟨lhs, op, rhs⟩ | ⟨x, op⟩ | x | _ | x <;> rfl

theorem records_lines (ls : List CLine) : records (ls.flatMap CLine.acts) = [] := by
  induction ls with
  | nil => rfl
  | cons l ls ih => rw [List.flatMap_cons, records_append, records_line, ih]; rfl

theorem length_records_cons (a : Act) (as : List Act) :
    (records (a :: as)).length = a.recorded.length + (records as).length := by
  rw [records, List.length_append, List.length_map, List.length_map]

theorem length_records_nil : (records []).length = 0 := rfl

theorem length_records_append (as bs : List Act) :
    (records (as ++ bs)).length = (records as).length + (records bs).length := by
  rw [records_append, List.length_append, List.length_map]

theorem length_records_simple {s : Stmt} {n n' : Names} {c : CStmt} (hs : isSimple s = true)
    (hcs : stmtConstructs s = [.stmt s]) (h : stmtTree prog s n = some (c, n')) :
    (records c.acts).length = (stmtConstructs s).length := by
  obtain ⟨ls, hls⟩ := stmtTree_simple hs h
  obtain rfl : c = .simple s ls := hls
  rw [hcs, CStmt.acts, length_records_cons, records_lines]
  rfl

mutual
/-- **A statement records a position for itself and one for each statement in it.** -/
theorem length_records_stmt : ∀ {s : Stmt} {n n' : Names} {c : CStmt},
    stmtTree prog s n = some (c, n') → (records c.acts).length = (stmtConstructs s).length
  | .ifs pos init cond body els, n, n', c, h => by
      obtain ⟨-, c', b, n₁, e, -, hb, he, heq⟩ := stmtTree_ifs h
      obtain rfl : c = _ := heq
      rw [stmtConstructs, List.length_cons, List.length_append, ← length_records_block hb,
        ← length_records_else he, CStmt.acts]
      simp only [length_records_cons, length_records_append, Act.recorded, List.length_nil,
        List.length_singleton]
      omega
  | .fors pos init cond post body, n, n', c, h => by
      obtain ⟨i, e, q, initL, condT, postL, b, -, -, -, -, -, -, hb, heq⟩ := stmtTree_fors h
      obtain rfl : c = _ := heq
      rw [stmtConstructs, List.length_cons, ← length_records_block hb, CStmt.acts]
      simp only [length_records_cons, length_records_append, length_records_nil, Act.recorded,
        List.length_nil, List.length_singleton]
      omega
  | .block pos list, n, n', c, h => by
      obtain ⟨b, hb, heq⟩ := stmtTree_block h
      obtain rfl : c = _ := heq
      rw [stmtConstructs, List.length_cons, ← length_records_block hb, CStmt.acts]
      simp only [length_records_cons, length_records_append, length_records_nil, Act.recorded,
        List.length_nil, List.length_singleton]
      omega
  | .decl pos tok specs, n, n', c, h => length_records_simple rfl rfl h
  | .assign lhs tok rhs, n, n', c, h => length_records_simple rfl rfl h
  | .ret pos results, n, n', c, h => length_records_simple rfl rfl h
  | .expr x, n, n', c, h => length_records_simple rfl rfl h
  | .incDec x inc, n, n', c, h => length_records_simple rfl rfl h
  | .other kind pos children, n, n', c, h => by cases h

theorem length_records_block : ∀ {list : List Stmt} {n n' : Names} {cs : List CStmt},
    blockTree prog list n = some (cs, n') →
      (records (blockActs cs)).length = (blockConstructs list).length
  | [], n, n', cs, h => by
      cases h
      rfl
  | s :: rest, n, n', cs, h => by
      obtain ⟨c, n₁, cs', hc, hcs, heq⟩ := blockTree_cons h
      obtain rfl : cs = _ := heq
      rw [blockConstructs, List.length_append, ← length_records_stmt hc,
        ← length_records_block hcs, blockActs, length_records_append]

theorem length_records_else : ∀ {els : Option Stmt} {n n' : Names} {e : CElse},
    elseTree prog els n = some (e, n') →
      (records e.acts).length = (elseConstructs els).length
  | none, n, n', e, h => by
      cases h
      rfl
  | some (.ifs _ _ _ body _), n, n', e, h => by
      obtain ⟨c', b, -, hb, heq⟩ := elseTree_ifs h
      obtain rfl : e = _ := heq
      rw [elseConstructs, ← length_records_block hb, CElse.acts]
      simp only [length_records_cons, length_records_append, length_records_nil, Act.recorded,
        List.length_nil]
      omega
  | some (.block _ list), n, n', e, h => by
      obtain ⟨b, hb, heq⟩ := elseTree_block h
      obtain rfl : e = _ := heq
      rw [elseConstructs, ← length_records_block hb, CElse.acts]
      simp only [length_records_cons, length_records_append, length_records_nil, Act.recorded,
        List.length_nil]
      omega
  | some (.decl _ _ _), _, _, _, h => by cases h
  | some (.assign _ _ _), _, _, _, h => by cases h
  | some (.ret _ _), _, _, _, h => by cases h
  | some (.expr _), _, _, _, h => by cases h
  | some (.fors _ _ _ _ _), _, _, _, h => by cases h
  | some (.incDec _ _), _, _, _, h => by cases h
  | some (.other _ _ _), _, _, _, h => by cases h
end

theorem recordsAtMost_writeBody (fd : FuncDecl) :
    RecordsAtMost (bodyConstructs fd).length (writeBody prog fd.body) := by
  intro n r hr
  unfold bodyConstructs
  cases hbody : fd.body with
  | none =>
      rw [hbody] at hr
      cases hr
  | some body =>
      rw [hbody, writeBody, out_writeBlock] at hr
      obtain ⟨⟨cs, n'⟩, hcs, rfl⟩ := Option.map_eq_some_iff.mp hr
      exact (length_records_block hcs).le

/-! ### The file -/

theorem recordless_writeFields (t : UserTypeDecl) (fields : List StructField) :
    Recordless (writeFields t fields) := by
  induction fields with
  | nil => exact recordless_pure ()
  | cons f fields ih =>
      refine recordless_writeIndent.andThen fun _ => (recordless_lift _).andThen fun decl => ?_
      exact recordless_text ih

theorem recordless_writeStruct (t : UserTypeDecl) : Recordless (writeStruct prog t) := by
  unfold writeStruct
  split
  · refine recordless_text ?_
    refine Recordless.andThen (recordsAtMost_indented (recordless_writeFields t _)) fun _ => ?_
    exact recordless_line (recordless_writeln _)
  · exact Emits.fail _

theorem recordless_writeMapEnd (m : MapDecl) : Recordless (writeMapEnd m) := by
  unfold writeMapEnd
  dsimp only
  split_ifs
  · exact recordless_text (recordless_writef _)
  · exact recordless_writef _

theorem recordless_writeMapTypes (m : MapDecl) : Recordless (writeMapTypes m) := by
  have hend := recordless_writeMapEnd m
  unfold writeMapTypes
  split_ifs
  · exact hend
  · exact (recordless_lift _).andThen fun valC => recordless_text hend
  · exact recordless_line (recordless_line hend)
  · exact recordless_line (recordless_line hend)
  · refine (recordless_lift _).andThen fun valC => recordless_line (recordless_line ?_)
    exact recordless_text (recordless_writef _)
  · split
    · exact Emits.fail _
    · refine (recordless_lift _).andThen fun keyC => (recordless_lift _).andThen fun valC => ?_
      exact recordless_text (recordless_text hend)

theorem recordsAtMost_writeMap (m : MapDecl) : RecordsAtMost 1 (writeMap m) := by
  have hdef : Recordless (writeMapDef m) :=
    (recordless_lift _).andThen fun cType => recordless_line
      (recordless_text (recordless_writeMapTypes m))
  unfold writeMap
  split
  · exact recordsAtMost_own hdef
  · exact hdef.mono (Nat.zero_le 1)

theorem recordsAtMost_writeHelper (h : HelperFunc) :
    RecordsAtMost (.helper h :: bodyConstructs h.decl : List Construct).length
      (writeHelper prog h) := by
  refine recordsAtMost_own ?_
  refine (recordless_lift _).andThen fun retC => (recordless_lift _).andThen fun params => ?_
  refine recordless_text ?_
  refine (recordsAtMost_indented (recordsAtMost_writeBody h.decl)).close fun _ => ?_
  exact recordless_line (recordless_writeln _)

theorem recordsAtMost_writeProgram (p : ProgramFunc) :
    RecordsAtMost (.program p :: bodyConstructs p.decl : List Construct).length
      (writeProgram prog p) := by
  refine recordsAtMost_own (recordless_text ((recordless_lift _).andThen fun param => ?_))
  refine recordless_text ?_
  exact (recordsAtMost_indented (recordsAtMost_writeBody p.decl)).close fun _ =>
    recordless_writeln _

theorem recordless_writeHeader (source : Text) (withCoRE withEndian : Bool) :
    Recordless (writeHeader source withCoRE withEndian) := by
  refine recordless_line (recordless_text ?_)
  have hlast : Recordless (writeln []) := recordless_writeln _
  dsimp only
  split_ifs
  · exact recordless_line (recordless_line (recordless_line (recordless_line hlast)))
  · exact recordless_line (recordless_line (recordless_line hlast))
  · exact recordless_line (recordless_line (recordless_line hlast))
  · exact recordless_line (recordless_line hlast)

theorem recordless_writePrelude (fs : List Text) : Recordless (writePrelude fs) := by
  induction fs with
  | nil => exact recordless_pure ()
  | cons f fs ih => exact (recordless_writeRaw _).andThen fun _ => recordless_line ih

/-- **The whole emission records a position for each construct at most.** -/
theorem recordsAtMost_emitActs (label : Text) :
    RecordsAtMost (constructs prog).length (emitActs prog label) := by
  have htypes : RecordsAtMost (prog.types.map Construct.type).length
      (forEach (writeUserType prog) prog.types) := by
    have hown : ∀ t, RecordsAtMost [Construct.type t].length (writeUserType prog t) :=
      fun t => recordsAtMost_own (recordless_writeStruct t)
    rw [List.map_eq_flatMap]
    exact recordsAtMost_forEach hown _
  have hmaps : RecordsAtMost (prog.maps.map Construct.map).length
      (forEach writeMap prog.maps) := by
    have hown : ∀ m, RecordsAtMost [Construct.map m].length (writeMap m) := recordsAtMost_writeMap
    rw [List.map_eq_flatMap]
    exact recordsAtMost_forEach hown _
  unfold constructs
  rw [List.append_assoc, List.append_assoc, List.length_append, List.length_append,
    List.length_append]
  refine (recordless_writeHeader _ _ _).andThen fun _ => ?_
  refine (recordless_writef _).andThen fun _ => (recordless_writePrelude _).andThen fun _ => ?_
  refine htypes.bind fun _ => hmaps.bind fun _ => ?_
  refine (recordsAtMost_forEach recordsAtMost_writeHelper _).bind fun _ => ?_
  exact recordsAtMost_forEach recordsAtMost_writeProgram _

/-! ## The mappings of the constructs -/

/-- The line on which the text of an occurrence begins. -/
def Occurrence.line (prog : Program) (o : Occurrence) : Nat := (Emitter.after prog o.before).cLine

/-- The mapping of an occurrence. -/
def Occurrence.mapping (prog : Program) (o : Occurrence) : SourceMapping :=
  ⟨o.line prog, o.construct.position prog⟩

theorem Occur.mem {cs : List Construct} {acts : List Act} {occs : List Occurrence}
    (h : Occur prog cs acts occs) {o : Occurrence} (ho : o ∈ occs) : o.construct ∈ cs := by
  rw [← h.constructs]
  exact List.mem_map_of_mem ho

/-- The records are those of the constructs. -/
theorem records_occur {acts : List Act} {occs : List Occurrence}
    (hocc : Occur prog (constructs prog) acts occs) (hpos : ∀ c ∈ constructs prog, c.recordedPos ≠ 0)
    (hcount : (records acts).length ≤ (constructs prog).length) :
    records acts = occs.map fun o => (o.before, o.construct.recordedPos) := by
  have hmem : ∀ x ∈ occs.map (fun o => (o.before, o.construct.recordedPos)), x ∈ records acts := by
    intro x hx
    obtain ⟨o, ho, rfl⟩ := List.mem_map.mp hx
    obtain ⟨has, -, n, n', hown⟩ := hocc.within o ho
    have hc : o.construct ∈ constructs prog := by
      rw [← hocc.constructs]
      exact List.mem_map_of_mem ho
    obtain ⟨rest, hrest, -⟩ := follows_write (hpos _ hc) n _ (out_eq_some.mpr hown)
    change o.own = _ at hrest
    have hcut : acts = o.before ++ .recordPos o.construct.recordedPos :: (rest ++ o.after) := by
      rw [has, hrest]
      simp
    rw [hcut]
    exact mem_records _ _ _
  have hsorted : (occs.map fun o => (o.before, o.construct.recordedPos)).Pairwise
      fun x y => x.1.length < y.1.length := List.pairwise_map.mpr hocc.ordered
  have hnodup : (occs.map fun o => (o.before, o.construct.recordedPos)).Nodup :=
    hsorted.imp fun h heq => by
      rw [heq] at h
      exact lt_irrefl _ h
  have hlen : (records acts).length ≤ (occs.map fun o => (o.before, o.construct.recordedPos)).length := by
    rw [List.length_map, ← List.length_map (f := Occurrence.construct), hocc.constructs]
    exact hcount
  -- as many records as constructs, and both in the order of their places
  have hperm := (hnodup.subperm hmem).perm_of_length_le hlen
  refine (hperm.eq_of_pairwise (fun x y _ _ hxy hyx => ?_) hsorted (records_pairwise acts)).symm
  exact absurd hxy (Nat.lt_asymm hyx)

/-- **The mappings of an emission are those of its constructs**, in the order in which they
are written. -/
theorem emit_mappings {label : Text} {n : Names} {acts : List Act} {occs : List Occurrence}
    (hacts : emitActs prog label ⟨[], 0⟩ = .ok ((), n, acts))
    (hpos : ∀ c ∈ constructs prog, c.recordedPos ≠ 0) (hplaced : MapsInPlace prog)
    (hocc : Occur prog (constructs prog) acts occs) :
    (Emitter.after prog acts).mappings = occs.map (Occurrence.mapping prog) := by
  have hmost : RecordsAtMost (constructs prog).length (emitActs prog label) :=
    recordsAtMost_emitActs label
  have hcount := hmost ⟨[], 0⟩ _ (out_eq_some.mpr hacts)
  have hrecords := records_occur hocc hpos hcount
  have hne : ∀ x ∈ records acts, x.2 ≠ 0 := by
    intro x hx
    rw [hrecords] at hx
    obtain ⟨o, ho, rfl⟩ := List.mem_map.mp hx
    refine hpos _ ?_
    rw [← hocc.constructs]
    exact List.mem_map_of_mem ho
  rw [Emitter.after, acts_mappings, mapped_records hne, hrecords, List.map_map]
  refine List.map_congr_left fun o ho => ?_
  rw [Function.comp_apply, Occurrence.mapping, ← hplaced _ (hocc.mem ho)]
  rfl

/-- The occurrences on a line of the C text. -/
def occursAt (prog : Program) (occs : List Occurrence) (k : Nat) : List Occurrence :=
  occs.filter fun o => o.line prog = k

/-- `<file>:<line>:<column>`. -/
def Position.triple (p : Position) : Text :=
  p.filename ++ ':' :: (itoa p.line ++ ':' :: itoa p.column)

/-- The position recorded last for a line of the C text. -/
def recordedAt (prog : Program) (occs : List Occurrence) (k : Nat) : Option Text :=
  (occursAt prog occs k).getLast?.map fun o => (o.construct.position prog).triple

/-- The text of an occurrence in the buffer. -/
def Occurrence.Visible (prog : Program) (o : Occurrence) : Prop :=
  (Emitter.after prog (o.before ++ o.own)).buf ≠ (Emitter.after prog o.before).buf

/-- A construct with text is the last one recorded for its line. -/
theorem recordedAt_visible {acts : List Act} {occs : List Occurrence} {start : Bool}
    (hlined : Lined true start acts) (hocc : Occur prog (constructs prog) acts occs)
    (hpos : ∀ c ∈ constructs prog, c.recordedPos ≠ 0) (hplaced : MapsInPlace prog)
    (hms : (Emitter.after prog acts).mappings = occs.map (Occurrence.mapping prog))
    {o : Occurrence} (ho : o ∈ occs) (hvisible : o.Visible prog) :
    recordedAt prog occs (o.line prog) = some (o.construct.position prog).triple := by
  have hc : o.construct ∈ constructs prog := hocc.mem ho
  obtain ⟨has, hne, n, n', hown⟩ := hocc.within o ho
  obtain ⟨b, u, rest, -, hb, hu, hlast⟩ := mapped_of_follows ⟨has, hne, n, n', hown⟩ hlined
    (hpos _ hc) (follows_write (hpos _ hc) n _ (out_eq_some.mpr hown))
  have hline : o.line prog = 1 + newlines b := by
    have hok : (Emitter.after prog o.before).LineOk :=
      lineOk_of_prefix hlined.1 ⟨o.own ++ o.after, by rw [has, List.append_assoc]⟩
    rw [Occurrence.line, hok, hb]
  have hu' : u ≠ [] := by
    rintro rfl
    exact hvisible (by rw [hu, hb, List.append_nil])
  obtain ⟨ms₁, ms₂, hcut, hlater⟩ := hlast hu'
  have hnone : ms₂.filter (fun m => decide (m.cLine = o.line prog)) = [] := by
    refine List.filter_eq_nil_iff.mpr fun m hm => ?_
    have := hlater m hm
    simp only [decide_eq_true_eq]
    omega
  have hat : ((occursAt prog occs (o.line prog)).map (Occurrence.mapping prog)).getLast? =
      some ⟨o.line prog, o.construct.position prog⟩ := by
    have hfilter : (occursAt prog occs (o.line prog)).map (Occurrence.mapping prog) =
        (occs.map (Occurrence.mapping prog)).filter fun m => decide (m.cLine = o.line prog) := by
      rw [List.filter_map]
      rfl
    rw [hfilter, ← hms, hcut, List.filter_append, List.filter_cons_of_pos (by simp [hline]), hnone,
      ← hline, List.getLast?_append_cons, hplaced _ hc]
    rfl
  rw [List.getLast?_map] at hat
  obtain ⟨o', ho', heq⟩ := Option.map_eq_some_iff.mp hat
  rw [recordedAt, ho', Option.map_some]
  exact congrArg (fun m : SourceMapping => some m.position.triple) heq

/-! ## The printed map -/

/-- A mapping with the integers of Go. -/
def SourceMapping.toMapping (m : SourceMapping) : Mapping :=
  ⟨Int64.ofNat m.cLine, m.position.filename, Int64.ofNat m.position.line,
    Int64.ofNat m.position.column⟩

/-- A position that a row of the source map can hold: there is no newline in the name of the
file, the scanner's buffer holds the name and the numbers, and they are of type `int`. -/
structure Position.Printable (p : Position) : Prop where
  name : '\n' ∉ p.filename
  short : byteLen p.filename + 64 ≤ maxScanTokenSize
  line : p.line < 2 ^ 63
  column : p.column < 2 ^ 63

theorem formatInt_ofNat {n : Nat} (h : n < 2 ^ 63) : formatInt (Int64.ofNat n) = itoa n := by
  rw [formatInt, Int64.toInt_ofNat_of_lt h]
  rfl

theorem toMapping_position {m : SourceMapping} (h : m.position.Printable) :
    m.toMapping.position = m.position.triple := by
  rw [Mapping.position, SourceMapping.toMapping, formatInt_ofNat h.line, formatInt_ofNat h.column]
  rfl

theorem byteLen_append (s t : Text) : byteLen (s ++ t) = byteLen s + byteLen t := by
  simp [byteLen]

theorem byteLen_cons (c : Char) (s : Text) : byteLen (c :: s) = c.utf8Size + byteLen s := by
  simp [byteLen]

/-- The digits of an `int` take 19 bytes at most. -/
theorem byteLen_itoa {n : Nat} (h : n < 2 ^ 63) : byteLen (itoa n) ≤ 19 := by
  have hlen : (itoa n).length ≤ 19 := Nat.toDigits_length 10 n 19 (by decide) (by omega)
  have hone : ∀ k ∈ (itoa n).map Char.utf8Size, k ≤ 1 := by
    intro k hk
    obtain ⟨c, hc, rfl⟩ := List.mem_map.mp hk
    have hcode : c.toNat ≤ 57 := by
      have hdigit := isDigit_of_mem_itoa hc
      simp only [Char.isDigit, ge_iff_le, Bool.and_eq_true, decide_eq_true_eq,
        UInt32.le_iff_toNat_le] at hdigit
      exact hdigit.2
    have hval : c.val ≤ 0x7f := UInt32.le_iff_toNat_le.mpr (hcode.trans (by decide))
    exact (Char.utf8Size_eq_one_iff.mpr hval).le
  have hsum := List.sum_le_card_nsmul _ 1 hone
  rw [List.length_map, smul_eq_mul, mul_one] at hsum
  exact hsum.trans hlen

/-- The row of a printable position fits the scanner. -/
theorem byteLen_text {m : SourceMapping} (h : m.position.Printable) (hline : m.cLine < 2 ^ 63) :
    byteLen m.toMapping.text < maxScanTokenSize := by
  have h1 := byteLen_itoa hline
  have h2 := byteLen_itoa h.line
  have h3 := byteLen_itoa h.column
  have htab : Char.utf8Size '\t' = 1 := rfl
  have hcolon : Char.utf8Size ':' = 1 := rfl
  have hshort := h.short
  rw [Mapping.text, toMapping_position h, SourceMapping.toMapping, formatInt_ofNat hline,
    Position.triple]
  simp only [byteLen_append, byteLen_cons, htab, hcolon]
  omega

/-- Reading a printed source map gives the last position of every line. -/
theorem read_formatSourceMap {ms : List Mapping}
    (h : ∀ m ∈ ms, '\n' ∉ m.filename ∧ byteLen m.text < maxScanTokenSize) :
    parseSourceMap (formatSourceMap ms) = .ok (lastPosition ms) := by
  have hsorted : ∀ m ∈ sortByLine ms, '\n' ∉ m.filename ∧ byteLen m.text < maxScanTokenSize :=
    fun m hm => h m ((List.mergeSort_perm _ _).mem_iff.mp hm)
  have htexts : (sortByLine ms).flatMap (fun m => ended m.text) =
      ((sortByLine ms).map Mapping.text).flatMap ended := by
    rw [List.flatMap_map]
  have hnewline : ∀ l ∈ (sortByLine ms).map Mapping.text, '\n' ∉ l := by
    intro l hl
    obtain ⟨m, hm, rfl⟩ := List.mem_map.mp hl
    exact newline_not_mem_text m (hsorted m hm).1
  have hheader : parseLine (fun _ => none) sourceMapHeader = .ok fun _ => none := rfl
  rw [parseSourceMap, formatSourceMap, splitLines_ended (by decide), htexts,
    splitLines_flatMap hnewline, parseLines, if_neg (by decide), hheader]
  refine (parseLines_texts (fun m hm => (hsorted m hm).2) _).trans ?_
  congr 1
  funext n
  rw [foldl_update, lastPosition_sortByLine, Option.or_none]

/-- The last position of a line, in the printed map and among the occurrences. -/
theorem lastPosition_occurs {occs : List Occurrence}
    (hprint : ∀ o ∈ occs, (o.construct.position prog).Printable)
    (hlines : ∀ o ∈ occs, o.line prog < 2 ^ 63) {k : Nat} (hk : k < 2 ^ 63) :
    lastPosition (occs.map fun o => (o.mapping prog).toMapping) (Int64.ofNat k) =
      recordedAt prog occs k := by
  have hsame : occs.filter (fun o => decide ((o.mapping prog).toMapping.cLine = Int64.ofNat k)) =
      occursAt prog occs k := by
    refine List.filter_congr fun o ho => ?_
    refine decide_eq_decide.mpr ⟨fun h => ofNat_inj (hlines o ho) hk h, fun h => ?_⟩
    rw [← h]
    rfl
  have hfilter : (occs.map fun o => (o.mapping prog).toMapping).filter
      (fun m => decide (m.cLine = Int64.ofNat k)) =
        (occursAt prog occs k).map fun o => (o.mapping prog).toMapping := by
    rw [← hsame, List.filter_map]
    rfl
  rw [lastPosition, hfilter, List.getLast?_map, Option.map_map, recordedAt]
  cases hlast : (occursAt prog occs k).getLast? with
  | none => rfl
  | some o =>
      have ho : o ∈ occs := (List.mem_filter.mp (List.mem_of_getLast? hlast)).1
      exact congrArg some (toMapping_position (hprint o ho))

/-! ## From the program to the log -/

/-- What the source map of an emission does to a log line: the line is kept and followed by
the positions recorded last for the lines that its references name. -/
def AnnotatesWith (prog : Program) (occs : List Occurrence) (sm : LineMap) : Prop :=
  ∀ line, ∃ rs : List Reference,
    (∀ ws, LeftmostLongest IsReference line ws ↔ ws = rs.map Reference.text) ∧
      annotateLine line sm =
        line ++ suffix ((rs.map Reference.number).eraseDups.filterMap (recordedAt prog occs))

/-- What a successful `Emit` has written: the constructs, and a mapping for each. -/
theorem emit_occurs {label text : Text} {ms : List SourceMapping}
    (h : emit prog label = .ok (text, ms)) (hpos : ∀ c ∈ constructs prog, c.recordedPos ≠ 0)
    (hplaced : MapsInPlace prog) :
    ∃ acts occs, SoundRun prog label text ms acts occs ∧ Lined true true acts ∧
      ms = occs.map (Occurrence.mapping prog) := by
  obtain ⟨acts, occs, hrun, -⟩ := emit_soundRun h hpos
  obtain ⟨n, hacts⟩ := hrun.run
  refine ⟨acts, occs, hrun, lines_emitActs label _ _ (out_eq_some.mpr hacts), ?_⟩
  rw [hrun.mappings]
  exact emit_mappings hacts hpos hplaced hrun.composed.toOccur

/-- The printed source map can be read, and has for a line what was recorded last. -/
theorem read_occurs {acts : List Act} {occs : List Occurrence} {start : Bool}
    (hlined : Lined true start acts) (hocc : Occur prog (constructs prog) acts occs)
    (hprint : ∀ c ∈ constructs prog, (c.position prog).Printable)
    (hlines : newlines (Emitter.after prog acts).buf + 1 < 2 ^ 63) :
    ∃ sm, parseSourceMap (formatSourceMap
        ((occs.map (Occurrence.mapping prog)).map SourceMapping.toMapping)) = .ok sm ∧
      sm.lookup = recordedAt prog occs := by
  have hsmall : ∀ o ∈ occs, o.line prog < 2 ^ 63 := by
    intro o ho
    obtain ⟨has, -⟩ := hocc.within o ho
    have hok : (Emitter.after prog o.before).LineOk :=
      lineOk_of_prefix hlined.1 ⟨o.own ++ o.after, by rw [has, List.append_assoc]⟩
    obtain ⟨v, hv⟩ := acts_buf prog (Emitter.after prog o.before) (o.own ++ o.after)
    have hbuf : (Emitter.after prog acts).buf = (Emitter.after prog o.before).buf ++ v := by
      rw [← hv, has, List.append_assoc, Emitter.after, acts_append, Emitter.after]
    rw [hbuf, newlines_append] at hlines
    rw [Occurrence.line, hok]
    omega
  have hrows : ∀ m ∈ (occs.map (Occurrence.mapping prog)).map SourceMapping.toMapping,
      '\n' ∉ m.filename ∧ byteLen m.text < maxScanTokenSize := by
    intro m hm
    rw [List.map_map] at hm
    obtain ⟨o, ho, rfl⟩ := List.mem_map.mp hm
    have hp := hprint _ (hocc.mem ho)
    exact ⟨hp.name, byteLen_text (m := o.mapping prog) hp (hsmall o ho)⟩
  refine ⟨_, read_formatSourceMap hrows, ?_⟩
  funext k
  rw [LineMap.lookup]
  split_ifs with hk
  · rw [List.map_map]
    exact lastPosition_occurs (fun o ho => hprint _ (hocc.mem ho)) hsmall hk
  · have hnone : occursAt prog occs k = [] := by
      refine List.filter_eq_nil_iff.mpr fun o ho => ?_
      have := hsmall o ho
      simp only [decide_eq_true_eq]
      omega
    rw [recordedAt, hnone]
    rfl

theorem annotatesWith_of_lookup {occs : List Occurrence} {sm : LineMap}
    (h : sm.lookup = recordedAt prog occs) : AnnotatesWith prog occs sm := by
  intro line
  obtain ⟨rs, hrs, hmatch⟩ := findAll_references line
  refine ⟨rs, fun ws => ⟨fun hws => hws.unique hrs, ?_⟩, ?_⟩
  · rintro rfl
    exact hrs
  · rw [annotateLine_matches hmatch, positions, h]

/-- **From the file to the log.**  Let a file whose maps are the first names of their
specifications be parsed and emitted.  The mappings are those of the constructs of the
program, and no others; the printed source map can be read; a construct with text is what the
map has for the first line of the text; and a log line is kept and followed by the positions
of the constructs that were recorded last for the lines it refers to. -/
theorem log_positions {file : File} {label text : Text} {ms : List SourceMapping}
    (hparse : parseFile file = .ok prog) (hfirst : MapsNamedFirst file)
    (hemit : emit prog label = .ok (text, ms)) (hpos : ∀ c ∈ constructs prog, c.recordedPos ≠ 0)
    (hprint : ∀ c ∈ constructs prog, (c.position prog).Printable)
    (hlines : newlines text + 1 < 2 ^ 63) :
    ∃ acts occs sm, SoundRun prog label text ms acts occs ∧
      ms = occs.map (Occurrence.mapping prog) ∧
      parseSourceMap (formatSourceMap (ms.map SourceMapping.toMapping)) = .ok sm ∧
      sm.lookup = recordedAt prog occs ∧
      (∀ o ∈ occs, o.Visible prog →
        sm.lookup (o.line prog) = some (o.construct.position prog).triple) ∧
      AnnotatesWith prog occs sm := by
  have hplaced : MapsInPlace prog := (mapsInPlace_iff hparse).mpr hfirst
  obtain ⟨acts, occs, hrun, hlined, hms⟩ := emit_occurs hemit hpos hplaced
  rw [hrun.text] at hlines
  obtain ⟨sm, hsm, hlookup⟩ := read_occurs hlined hrun.composed.toOccur hprint hlines
  rw [← hms] at hsm
  refine ⟨acts, occs, sm, hrun, hms, hsm, hlookup, fun o ho hvisible => ?_,
    annotatesWith_of_lookup hlookup⟩
  rw [hlookup]
  exact recordedAt_visible hlined hrun.composed.toOccur hpos hplaced (hrun.mappings ▸ hms) ho
    hvisible

theorem arrayProgram_printable :
    ∀ c ∈ constructs arrayProgram, (c.position arrayProgram).Printable := by
  have hall : ∀ p ∈ (constructs arrayProgram).map (Construct.position arrayProgram),
      '\n' ∉ p.filename ∧ byteLen p.filename + 64 ≤ maxScanTokenSize ∧
        p.line < 2 ^ 63 ∧ p.column < 2 ^ 63 := by
    decide
  intro c hc
  obtain ⟨h1, h2, h3, h4⟩ := hall _ (List.mem_map_of_mem hc)
  exact ⟨h1, h2, h3, h4⟩

/-- The array and the program `Pass` in a log. -/
theorem arrayProgram_logs :
    parseFile (arraysFile [⟨['a'], 50⟩]) = .ok arrayProgram ∧
      ∃ text ms, emit arrayProgram "x.go" = .ok (text, ms) ∧
        ∃ acts occs sm, SoundRun arrayProgram "x.go" text ms acts occs ∧
          ms = occs.map (Occurrence.mapping arrayProgram) ∧
          parseSourceMap (formatSourceMap (ms.map SourceMapping.toMapping)) = .ok sm ∧
          sm.lookup = recordedAt arrayProgram occs ∧
          (∀ o ∈ occs, o.Visible arrayProgram →
            sm.lookup (o.line arrayProgram) = some (o.construct.position arrayProgram).triple) ∧
          AnnotatesWith arrayProgram occs sm :=
  ⟨arraysFile_parse, _, _, rfl, @log_positions arrayProgram (arraysFile [⟨['a'], 50⟩]) "x.go" _ _
    arraysFile_parse arraysFile_first rfl arrayProgram_pos arrayProgram_printable
    (by decide +kernel)⟩

end Gobee
