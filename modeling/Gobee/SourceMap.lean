/-
# The source map

`Emit` returns, beside the C text, the mappings that `recordPos` has made on the way.
This module follows the emission of a whole program and shows that the mappings are
sound:

* `Emits` : what the actions of an emitting computation satisfy, with rules for the
  primitives and for sequencing;
* `Lines` : the actions count their newlines and record positions at starts of lines;
* `Opens` : the actions write text before they record a position, or there are none;
* `Occur` : the actions contain those of some constructs, in order;
* `Composed` : the actions of a file are its support code and its definitions, no more.

`emit_soundRun` puts them together.  A *construct* is a user type, a map, a helper, a
program or a statement of a statement list, that is, what is written by a call of
`writeUserType`, `writeMap`, `writeHelper`, `writeProgram` or `writeStmt`.
-/
import Gobee.ActionLines
import Gobee.EmitProgram
import Gobee.StmtTree

namespace Gobee

open EmitM

variable {α β : Type} {prog : Program}

/-! ## Rules for emitted actions -/

/-- Whenever the computation succeeds, its actions satisfy `P`. -/
def Emits (P : List Act → Prop) (m : EmitM α) : Prop :=
  ∀ n r, out m n = some r → P r.2.2

theorem Emits.bind {P Q R : List Act → Prop} {m : EmitM α} {f : α → EmitM β} (hm : Emits P m)
    (hf : ∀ a, Emits Q (f a)) (h : ∀ as bs, P as → Q bs → R (as ++ bs)) : Emits R (m >>= f) := by
  intro n r hr
  rw [out_bind] at hr
  obtain ⟨q, hq, hr⟩ := Option.bind_eq_some_iff.mp hr
  obtain ⟨t, ht, rfl⟩ := Option.map_eq_some_iff.mp hr
  exact h _ _ (hm n q hq) (hf q.1 q.2.1 t ht)

theorem Emits.pure {P : List Act → Prop} (a : α) (h : P []) : Emits P (Pure.pure a : EmitM α) := by
  intro n r hr
  cases hr
  exact h

theorem Emits.perform {P : List Act → Prop} {a : Act} (h : P [a]) : Emits P (perform a) := by
  intro n r hr
  cases hr
  exact h

theorem Emits.fail {P : List Act → Prop} (msg : Text) : Emits P (EmitM.fail msg : EmitM α) := by
  intro n r hr
  cases hr

/-- The computation performs no action. -/
def Silent (m : EmitM α) : Prop := Emits (· = []) m

theorem silent_lift (r : Result α) : Silent (lift r) := by
  intro n q hq
  rw [out_lift] at hq
  obtain ⟨a, -, rfl⟩ := Option.map_eq_some_iff.mp hq
  rfl

theorem silent_format (e : Expr) : Silent (format prog e) := by
  intro n q hq
  rw [out_format] at hq
  obtain ⟨a, -, rfl⟩ := Option.map_eq_some_iff.mp hq
  rfl

theorem silent_resolveLHSName (id : Ident) (kind : Text) : Silent (resolveLHSName id kind) := by
  intro n q hq
  rw [out_resolveLHSName] at hq
  cases hq
  rfl

theorem silent_setAlias (id : Ident) (cName : Text) : Silent (setAlias prog id cName) := by
  intro n q hq
  rw [out_setAlias] at hq
  cases hq
  rfl

theorem silent_soleArg (msg : Text) (args : List Expr) : Silent (soleArg prog msg args) := by
  intro n q hq
  rw [out_soleArg] at hq
  obtain ⟨a, -, rfl⟩ := Option.map_eq_some_iff.mp hq
  rfl

theorem silent_formatForClause (s : Stmt) : Silent (formatForClause prog s) := by
  intro n q hq
  rw [out_formatForClause] at hq
  obtain ⟨a, -, rfl⟩ := Option.map_eq_some_iff.mp hq
  rfl

theorem Silent.bind {P : List Act → Prop} {m : EmitM α} {f : α → EmitM β} (hm : Silent m)
    (hf : ∀ a, Emits P (f a)) : Emits P (m >>= f) :=
  Emits.bind hm hf (by rintro as bs rfl h; exact h)

/-! ## Lines -/

/-- The actions count their newlines and record positions at starts of lines only; `a`
and `b` are whether the buffer is at the start of a line before and after them. -/
def Lined (a b : Bool) (as : List Act) : Prop := (∀ x ∈ as, x.Plain) ∧ lined a as = some b

/-- The computation takes the buffer from `a` to `b`. -/
abbrev Lines (a : Bool) (m : EmitM α) (b : Bool) : Prop := Emits (Lined a b) m

theorem Lines.bind {a b c : Bool} {m : EmitM α} {f : α → EmitM β} (hm : Lines a m b)
    (hf : ∀ x, Lines b (f x) c) : Lines a (m >>= f) c := by
  refine Emits.bind hm hf ?_
  rintro as bs ⟨ha, hla⟩ ⟨hb, hlb⟩
  refine ⟨?_, ?_⟩
  · intro x hx
    rcases List.mem_append.mp hx with hx | hx
    · exact ha x hx
    · exact hb x hx
  · rw [lined_append, hla]
    exact hlb

theorem Lines.pure {a : Bool} (x : α) : Lines a (Pure.pure x : EmitM α) a :=
  Emits.pure x ⟨by simp, rfl⟩

theorem lines_writef {a b : Bool} {s : Text} (h : startAfter a s = b) : Lines a (writef s) b :=
  Emits.perform ⟨by simp [Act.Plain], by simp [lined, Act.line, h]⟩

theorem lines_writeRaw {a b : Bool} {s : Text} (h : startAfter a s = b) :
    Lines a (writeRaw s) b :=
  Emits.perform ⟨by simp [Act.Plain], by simp [lined, Act.line, h]⟩

theorem lines_writeln {a : Bool} {s : Text} (h : newlines s = 0) : Lines a (writeln s) true :=
  Emits.perform ⟨by simpa [Act.Plain] using h, rfl⟩

theorem lines_writeIndent {a : Bool} : Lines a writeIndent false :=
  Emits.perform ⟨by simp [Act.Plain], rfl⟩

theorem lines_recordPos (p : Pos) : Lines true (recordPos p) true :=
  Emits.perform ⟨by simp [Act.Plain], rfl⟩

theorem startAfter_append (a : Bool) (s t : Text) :
    startAfter a (s ++ t) = startAfter (startAfter a s) t := by
  unfold startAfter
  rw [List.getLast?_append]
  cases t.getLast? <;> cases s.getLast? <;> rfl

/-- A text that ends in a newline leads to the start of a line. -/
theorem lines_writef_append {a : Bool} {s t : Text} (h : startAfter false t = true) :
    Lines a (writef (s ++ t)) true := by
  refine lines_writef ?_
  have ht : t.getLast? = some '\n' := by
    unfold startAfter at h
    cases ht : t.getLast? with
    | none => simp [ht] at h
    | some c => simpa [ht] using h
  rw [startAfter_append, startAfter, ht]
  rfl

theorem lines_indented {a b : Bool} {m : EmitM Unit} (h : Lines a m b) :
    Lines a (indented m) b := by
  refine Lines.bind (Emits.perform ⟨by simp [Act.Plain], rfl⟩) fun _ => ?_
  exact Lines.bind h fun _ => Emits.perform ⟨by simp [Act.Plain], rfl⟩

theorem lines_forEach {γ : Type} {f : γ → EmitM Unit} (hf : ∀ x, Lines true (f x) true)
    (xs : List γ) : Lines true (forEach f xs) true := by
  induction xs with
  | nil => exact Lines.pure ()
  | cons x xs ih => exact Lines.bind (hf x) fun _ => ih

/-- An indented line that ends in a newline. -/
theorem lines_line {a : Bool} {s t : Text} (h : startAfter false t = true) :
    Lines a (do writeIndent; writef (s ++ t)) true :=
  Lines.bind lines_writeIndent fun _ => lines_writef_append h

/-- A closing brace. -/
theorem lines_close {a : Bool} : Lines a (do writeIndent; writeln "\x7d") true :=
  Lines.bind lines_writeIndent fun _ => lines_writeln rfl

/-! ### Statements -/

theorem lines_writeSpec : ∀ (names : List Ident) (values : List Expr),
    Lines true (writeSpec prog names values) true
  | [], _ => Lines.pure ()
  | name :: names, values => by
      refine (silent_lift _).bind fun cType => ?_
      refine Lines.bind lines_writeIndent fun _ => ?_
      cases values with
      | nil => exact Lines.bind (lines_writef_append rfl) fun _ => lines_writeSpec names []
      | cons value rest =>
          refine (silent_format value).bind fun val => ?_
          exact Lines.bind (lines_writef_append rfl) fun _ => lines_writeSpec names rest

theorem lines_writeSpecs (specs : List ValueSpec) : Lines true (writeSpecs prog specs) true := by
  induction specs with
  | nil => exact Lines.pure ()
  | cons spec specs ih => exact Lines.bind (lines_writeSpec spec.names spec.values) fun _ => ih

theorem lines_writeDeclStmt (pos : Pos) (tok : DeclTok) (specs : List ValueSpec) :
    Lines true (writeDeclStmt prog pos tok specs) true := by
  unfold writeDeclStmt
  split_ifs
  · exact lines_writeSpecs specs
  · exact Emits.fail _

/-- The end of a comma-ok statement: one line and an alias. -/
theorem lines_commaOk {okIdent : Ident} {cName s t : Text} (h : startAfter false t = true) :
    Lines true (do writeIndent; writef (s ++ t); setAlias prog okIdent cName) true := by
  refine Lines.bind lines_writeIndent fun _ => ?_
  refine Lines.bind (lines_writef_append h) fun _ => ?_
  intro n r hr
  rw [silent_setAlias okIdent cName n r hr]
  exact ⟨by simp, rfl⟩

theorem lines_writeMapLookup (pos : Pos) (v ok fn : Expr) (args : List Expr) (mapName : Ident)
    (valType : GoType) : Lines true (writeMapLookup prog pos v ok fn args mapName valType) true := by
  refine (silent_lift _).bind fun valC => (silent_lift _).bind fun vId => ?_
  refine (silent_lift _).bind fun okId => (silent_soleArg _ _).bind fun key => ?_
  exact (silent_resolveLHSName _ _).bind fun valName => lines_commaOk rfl

theorem lines_writeStorageGet (pos : Pos) (v ok fn : Expr) (args : List Expr) (mapName : Ident)
    (valType : GoType) (helperFn : Text) :
    Lines true (writeStorageGet prog pos v ok fn args mapName valType helperFn) true := by
  refine (silent_lift _).bind fun valC => (silent_lift _).bind fun vId => ?_
  refine (silent_lift _).bind fun okId => (silent_soleArg _ _).bind fun obj => ?_
  exact (silent_resolveLHSName _ _).bind fun valName => lines_commaOk rfl

theorem lines_writeRingbufReserve (pos : Pos) (v ok : Expr) (mapName : Ident)
    (valType : GoType) : Lines true (writeRingbufReserve prog pos v ok mapName valType) true := by
  refine (silent_lift _).bind fun valC => (silent_lift _).bind fun vId => ?_
  refine (silent_lift _).bind fun okId => ?_
  exact (silent_resolveLHSName _ _).bind fun valName => lines_commaOk rfl

theorem lines_writeCommaOk (pos : Pos) (v ok rhs : Expr) :
    Lines true (writeCommaOk prog pos v ok rhs) true := by
  unfold writeCommaOk
  cases rhs with
  | call fn args =>
      dsimp only
      split
      · exact lines_writeMapLookup _ _ _ _ _ _ _
      · split
        · exact lines_writeRingbufReserve _ _ _ _ _
        · split
          · exact lines_writeStorageGet _ _ _ _ _ _ _ _
          · exact Emits.fail _
  | _ => exact Emits.fail _

theorem lines_writeSingleAssign (pos : Pos) (l : Expr) (tok : AssignTok) (r : Expr) :
    Lines true (writeSingleAssign prog pos l tok r) true := by
  refine (silent_format l).bind fun lhs => (silent_format r).bind fun rhs => ?_
  refine Lines.bind lines_writeIndent fun _ => ?_
  cases tok with
  | define =>
      refine (silent_lift _).bind fun id => (silent_lift _).bind fun cType => ?_
      exact lines_writef_append rfl
  | andNot => exact Emits.fail _
  | _ => exact lines_writef_append rfl

theorem lines_writeAssignStmt (lhs : List Expr) (tok : AssignTok) (rhs : List Expr) :
    Lines true (writeAssignStmt prog lhs tok rhs) true := by
  unfold writeAssignStmt
  dsimp only
  split
  · split_ifs
    · exact lines_writeCommaOk _ _ _ _
    · exact Emits.fail _
  · exact lines_writeSingleAssign _ _ _ _
  · exact Emits.fail _

theorem lines_writeReturnStmt (pos : Pos) (results : List Expr) :
    Lines true (writeReturnStmt prog pos results) true := by
  unfold writeReturnStmt
  split
  · exact Lines.bind lines_writeIndent fun _ => lines_writeln rfl
  · exact (silent_format _).bind fun val => lines_line rfl
  · exact Emits.fail _

theorem lines_writeExprStmt (x : Expr) : Lines true (writeExprStmt prog x) true :=
  (silent_format x).bind fun _ => lines_line rfl

theorem lines_writeIncDecStmt (x : Expr) (inc : Bool) :
    Lines true (writeIncDecStmt prog x inc) true :=
  Lines.bind lines_writeIndent fun _ => (silent_format x).bind fun _ => lines_writef_append rfl

theorem lines_writeIfStmt {pos : Pos} {hasInit : Bool} {cond : Expr} {body : EmitM Unit}
    {els : ElseClause} (hbody : Lines true body true) (hels : Lines false (writeElse prog pos els) true) :
    Lines true (writeIfStmt prog pos hasInit cond body els) true := by
  unfold writeIfStmt
  split_ifs
  · exact Emits.fail _
  · refine (silent_format cond).bind fun c => Lines.bind lines_writeIndent fun _ => ?_
    refine Lines.bind (lines_writef_append rfl) fun _ => ?_
    refine Lines.bind (lines_indented hbody) fun _ => ?_
    exact Lines.bind lines_writeIndent fun _ => hels

theorem lines_elseIf {pos : Pos} {cond : Expr} {body : EmitM Unit} (hbody : Lines true body true) :
    Lines false (writeElse prog pos (.elseIf cond body)) true := by
  refine Lines.bind (lines_writef rfl) fun _ => (silent_format cond).bind fun c => ?_
  refine Lines.bind (lines_writef_append rfl) fun _ => ?_
  exact Lines.bind (lines_indented hbody) fun _ => lines_close

theorem lines_elseBlock {pos : Pos} {body : EmitM Unit} (hbody : Lines true body true) :
    Lines false (writeElse prog pos (.block body)) true := by
  refine Lines.bind (lines_writef rfl) fun _ => ?_
  exact Lines.bind (lines_indented hbody) fun _ => lines_close

theorem lines_writeForStmt {pos : Pos} {init : Option Stmt} {cond : Option Expr}
    {post : Option Stmt} {body : EmitM Unit} (hbody : Lines true body true) :
    Lines true (writeForStmt prog pos init cond post body) true := by
  unfold writeForStmt
  split
  · refine (silent_formatForClause _).bind fun i => (silent_format _).bind fun c => ?_
    refine (silent_formatForClause _).bind fun p => ?_
    refine Lines.bind lines_writeIndent fun _ => ?_
    refine Lines.bind (lines_writef_append rfl) fun _ => ?_
    exact Lines.bind (lines_indented hbody) fun _ => lines_close
  · exact Emits.fail _

theorem lines_writeBlockStmt {body : EmitM Unit} (hbody : Lines true body true) :
    Lines true (writeBlockStmt body) true := by
  refine Lines.bind lines_writeIndent fun _ => Lines.bind (lines_writeln rfl) fun _ => ?_
  exact Lines.bind (lines_indented hbody) fun _ => lines_close

mutual
/-- **A statement begins and ends at the start of a line.** -/
theorem lines_writeStmt : ∀ s : Stmt, Lines true (writeStmt prog s) true
  | .decl pos tok specs => Lines.bind (lines_recordPos pos) fun _ =>
      lines_writeDeclStmt pos tok specs
  | .assign lhs tok rhs => Lines.bind (lines_recordPos _) fun _ =>
      lines_writeAssignStmt lhs tok rhs
  | .ifs pos _ _ body els => Lines.bind (lines_recordPos pos) fun _ =>
      lines_writeIfStmt (lines_writeBlock body) (lines_writeElse pos els)
  | .ret pos results => Lines.bind (lines_recordPos pos) fun _ =>
      lines_writeReturnStmt pos results
  | .expr x => Lines.bind (lines_recordPos x.pos) fun _ => lines_writeExprStmt x
  | .fors pos _ _ _ body => Lines.bind (lines_recordPos pos) fun _ =>
      lines_writeForStmt (lines_writeBlock body)
  | .block pos list => Lines.bind (lines_recordPos pos) fun _ =>
      lines_writeBlockStmt (lines_writeBlock list)
  | .incDec x inc => Lines.bind (lines_recordPos x.pos) fun _ => lines_writeIncDecStmt x inc
  | .other _ pos _ => Lines.bind (lines_recordPos pos) fun _ => Emits.fail _

theorem lines_writeBlock : ∀ list : List Stmt, Lines true (writeBlock prog list) true
  | [] => Lines.pure ()
  | s :: rest => Lines.bind (lines_writeStmt s) fun _ => lines_writeBlock rest

theorem lines_writeElse (pos : Pos) : ∀ els : Option Stmt,
    Lines false (writeElse prog pos (elseClause prog els)) true
  | none => lines_writeln rfl
  | some (.ifs _ _ _ body _) => lines_elseIf (lines_writeBlock body)
  | some (.block _ list) => lines_elseBlock (lines_writeBlock list)
  | some (.decl _ _ _) => Emits.fail _
  | some (.assign _ _ _) => Emits.fail _
  | some (.ret _ _) => Emits.fail _
  | some (.expr _) => Emits.fail _
  | some (.fors _ _ _ _ _) => Emits.fail _
  | some (.incDec _ _) => Emits.fail _
  | some (.other _ _ _) => Emits.fail _
end

/-! ### The file -/

theorem lines_writeln_then {a b : Bool} {s : Text} {m : EmitM Unit} (h : newlines s = 0)
    (hm : Lines true m b) : Lines a (do writeln s; m) b :=
  Lines.bind (lines_writeln h) fun _ => hm

theorem lines_writeHeader (source : Text) (withCoRE withEndian : Bool) :
    Lines true (writeHeader source withCoRE withEndian) true := by
  refine lines_writeln_then rfl (Lines.bind (lines_writef_append rfl) fun _ => ?_)
  have hlast : Lines true (writeln []) true := lines_writeln rfl
  have hendian : Lines true (do writeln "#include <bpf/bpf_endian.h>"; writeln []) true :=
    lines_writeln_then rfl hlast
  dsimp only
  split_ifs
  · exact lines_writeln_then rfl (lines_writeln_then rfl (lines_writeln_then rfl hendian))
  · exact lines_writeln_then rfl (lines_writeln_then rfl (lines_writeln_then rfl hlast))
  · exact lines_writeln_then rfl (lines_writeln_then rfl hendian)
  · exact lines_writeln_then rfl (lines_writeln_then rfl hlast)

theorem lines_writePrelude (fs : List Text) : Lines true (writePrelude fs) true := by
  induction fs with
  | nil => exact Lines.pure ()
  | cons f fs ih =>
      exact Lines.bind (lines_writeRaw rfl) fun _ => lines_writeln_then rfl ih

theorem startAfter_memberDecl {f : StructField} {decl : Text} (h : memberDecl f = .ok decl)
    (a : Bool) : startAfter a decl = true := by
  have hend : ∀ s t : Text, t.getLast? = some '\n' → startAfter a (s ++ t) = true := by
    intro s t ht
    rw [startAfter_append, startAfter, ht]
    rfl
  unfold memberDecl at h
  split at h
  all_goals
    obtain ⟨c, -, hc⟩ := bind_ok h
    cases hc
    exact hend _ _ rfl

theorem lines_writeFields (t : UserTypeDecl) (fields : List StructField) :
    Lines true (writeFields t fields) true := by
  induction fields with
  | nil => exact Lines.pure ()
  | cons f fields ih =>
      refine Lines.bind lines_writeIndent fun _ => ?_
      intro n r hr
      rw [out_bind, out_lift, toOption_wrapError] at hr
      obtain ⟨q, hq, hr⟩ := Option.bind_eq_some_iff.mp hr
      obtain ⟨decl, hdecl, rfl⟩ := Option.map_eq_some_iff.mp hq
      have hok : memberDecl f = .ok decl := by
        cases hm : memberDecl f with
        | error e => simp [hm, Except.toOption] at hdecl
        | ok d => simpa [hm, Except.toOption] using hdecl
      obtain ⟨u, hu, rfl⟩ := Option.map_eq_some_iff.mp hr
      exact Lines.bind (lines_writef (startAfter_memberDecl hok false)) (fun _ => ih) n u hu

theorem lines_writeStruct (t : UserTypeDecl) : Lines true (writeStruct prog t) true := by
  unfold writeStruct
  split
  · refine Lines.bind (lines_writef_append rfl) fun _ => ?_
    refine Lines.bind (lines_indented (lines_writeFields t _)) fun _ => ?_
    exact lines_writeln_then rfl (lines_writeln rfl)
  · exact Emits.fail _

theorem lines_writeMapEnd (m : MapDecl) : Lines true (writeMapEnd m) true := by
  unfold writeMapEnd
  dsimp only
  split_ifs
  · exact Lines.bind (lines_writef_append rfl) fun _ => lines_writef_append rfl
  · exact lines_writef_append rfl

theorem lines_writeMapTypes (m : MapDecl) : Lines true (writeMapTypes m) true := by
  have hend := lines_writeMapEnd m
  unfold writeMapTypes
  split_ifs
  · exact hend
  · refine (silent_lift _).bind fun valC => ?_
    exact Lines.bind (lines_writef_append rfl) fun _ => hend
  · exact lines_writeln_then rfl (lines_writeln_then rfl hend)
  · exact lines_writeln_then rfl (lines_writeln_then rfl hend)
  · refine (silent_lift _).bind fun valC => lines_writeln_then rfl (lines_writeln_then rfl ?_)
    exact Lines.bind (lines_writef_append rfl) fun _ => lines_writef_append rfl
  · split
    · exact Emits.fail _
    · refine (silent_lift _).bind fun keyC => (silent_lift _).bind fun valC => ?_
      refine Lines.bind (lines_writef_append rfl) fun _ => ?_
      exact Lines.bind (lines_writef_append rfl) fun _ => hend

theorem lines_writeMapDef (m : MapDecl) : Lines true (writeMapDef m) true := by
  refine (silent_lift _).bind fun cType => lines_writeln_then rfl ?_
  exact Lines.bind (lines_writef_append rfl) fun _ => lines_writeMapTypes m

theorem lines_writeMap (m : MapDecl) : Lines true (writeMap m) true := by
  unfold writeMap
  split
  · exact Lines.bind (lines_recordPos _) fun _ => lines_writeMapDef m
  · exact lines_writeMapDef m

theorem lines_writeBody (body : Option Body) : Lines true (writeBody prog body) true := by
  cases body with
  | none => exact fun n r hr => by cases hr
  | some b => exact lines_writeBlock b.list

theorem lines_writeHelper (h : HelperFunc) : Lines true (writeHelper prog h) true := by
  refine Lines.bind (lines_recordPos _) fun _ => ?_
  refine (silent_lift _).bind fun retC => (silent_lift _).bind fun params => ?_
  refine Lines.bind (lines_writef_append rfl) fun _ => ?_
  refine Lines.bind (lines_indented (lines_writeBody _)) fun _ => ?_
  exact lines_writeln_then rfl (lines_writeln rfl)

theorem lines_writeProgram (p : ProgramFunc) : Lines true (writeProgram prog p) true := by
  refine Lines.bind (lines_recordPos _) fun _ => ?_
  refine Lines.bind (lines_writef_append rfl) fun _ => (silent_lift _).bind fun param => ?_
  refine Lines.bind (lines_writef_append rfl) fun _ => ?_
  exact Lines.bind (lines_indented (lines_writeBody _)) fun _ => lines_writeln rfl

/-- **The whole emission counts its newlines and records positions at starts of lines.** -/
theorem lines_emitActs (label : Text) : Lines true (emitActs prog label) true := by
  refine Lines.bind (lines_writeHeader _ _ _) fun _ => ?_
  refine Lines.bind (lines_writef_append rfl) fun _ => ?_
  refine Lines.bind (lines_writePrelude _) fun _ => ?_
  refine Lines.bind (lines_forEach (fun t => ?_) _) fun _ => ?_
  · exact Lines.bind (lines_recordPos _) fun _ => lines_writeStruct t
  refine Lines.bind (lines_forEach lines_writeMap _) fun _ => ?_
  refine Lines.bind (lines_forEach lines_writeHelper _) fun _ => ?_
  exact lines_forEach lines_writeProgram _

/-! ## Constructs -/

/-- What a position is recorded for. -/
inductive Construct where
  | type (t : UserTypeDecl)
  | map (m : MapDecl)
  | helper (h : HelperFunc)
  | program (p : ProgramFunc)
  | stmt (s : Stmt)

namespace Construct

/-- The position that is recorded for a construct: for a map that of its `var`
specification. -/
def recordedPos : Construct → Pos
  | .type t => t.specPos
  | .map m => m.spec.getD 0
  | .helper h => h.decl.pos
  | .program p => p.decl.pos
  | .stmt s => s.pos

/-- The Go position of a construct: for a map that of its name. -/
def position (prog : Program) : Construct → Position
  | .type t => t.pos
  | .map m => m.pos
  | .helper h => h.pos
  | .program p => p.pos
  | .stmt s => prog.position s.pos

/-- The construct is a declaration of the file. -/
def isDefinition : Construct → Bool
  | .stmt _ => false
  | _ => true

/-- The method that writes a construct. -/
def write (prog : Program) : Construct → EmitM Unit
  | .type t => writeUserType prog t
  | .map m => writeMap m
  | .helper h => writeHelper prog h
  | .program p => writeProgram prog p
  | .stmt s => writeStmt prog s

end Construct

mutual
/-- The statements written for a statement: itself and those of its blocks.  An else
clause of an `else if` is not written (`StmtOrder`). -/
def stmtConstructs : Stmt → List Construct
  | .ifs pos init cond body els =>
      .stmt (.ifs pos init cond body els) :: (blockConstructs body ++ elseConstructs els)
  | .fors pos init cond post body =>
      .stmt (.fors pos init cond post body) :: blockConstructs body
  | .block pos list => .stmt (.block pos list) :: blockConstructs list
  | s => [.stmt s]

/-- The statements written for a statement list. -/
def blockConstructs : List Stmt → List Construct
  | [] => []
  | s :: rest => stmtConstructs s ++ blockConstructs rest

/-- The statements written for an else clause. -/
def elseConstructs : Option Stmt → List Construct
  | some (.ifs _ _ _ body _) => blockConstructs body
  | some (.block _ list) => blockConstructs list
  | _ => []
end

/-- The statements written for a function. -/
def bodyConstructs (fd : FuncDecl) : List Construct :=
  match fd.body with
  | none => []
  | some body => blockConstructs body.list

mutual
/-- A statement writes statements only. -/
theorem stmtConstructs_stmt (s : Stmt) : ∀ c ∈ stmtConstructs s, ∃ s', c = .stmt s' := by
  cases s with
  | ifs pos init cond body els =>
      intro c hc
      rw [stmtConstructs, List.mem_cons, List.mem_append] at hc
      rcases hc with rfl | hc | hc
      · exact ⟨_, rfl⟩
      · exact blockConstructs_stmt body c hc
      · exact elseConstructs_stmt els c hc
  | fors pos init cond post body =>
      intro c hc
      rw [stmtConstructs, List.mem_cons] at hc
      rcases hc with rfl | hc
      · exact ⟨_, rfl⟩
      · exact blockConstructs_stmt body c hc
  | block pos list =>
      intro c hc
      rw [stmtConstructs, List.mem_cons] at hc
      rcases hc with rfl | hc
      · exact ⟨_, rfl⟩
      · exact blockConstructs_stmt list c hc
  | _ => simp [stmtConstructs]

theorem blockConstructs_stmt (list : List Stmt) :
    ∀ c ∈ blockConstructs list, ∃ s', c = .stmt s' := by
  cases list with
  | nil => simp [blockConstructs]
  | cons s rest =>
      intro c hc
      rw [blockConstructs, List.mem_append] at hc
      rcases hc with hc | hc
      · exact stmtConstructs_stmt s c hc
      · exact blockConstructs_stmt rest c hc

theorem elseConstructs_stmt (els : Option Stmt) :
    ∀ c ∈ elseConstructs els, ∃ s', c = .stmt s' := by
  intro c hc
  match els, hc with
  | some (.ifs _ _ _ body _), hc =>
      rw [elseConstructs] at hc
      exact blockConstructs_stmt body c hc
  | some (.block _ list), hc =>
      rw [elseConstructs] at hc
      exact blockConstructs_stmt list c hc
end

theorem bodyConstructs_stmt (fd : FuncDecl) : ∀ c ∈ bodyConstructs fd, ∃ s', c = .stmt s' := by
  unfold bodyConstructs
  split
  · simp
  · exact blockConstructs_stmt _

/-- Everything that is written for a program, in order. -/
def constructs (prog : Program) : List Construct :=
  prog.types.map .type ++ prog.maps.map .map ++
    prog.helpers.flatMap (fun h => .helper h :: bodyConstructs h.decl) ++
    prog.programs.flatMap (fun p => .program p :: bodyConstructs p.decl)

/-- A place in a list of actions where a construct is written. -/
structure Occurrence where
  construct : Construct
  before : List Act
  own : List Act
  after : List Act

namespace Occurrence

/-- The actions are those of the construct, with the others around them. -/
def In (prog : Program) (o : Occurrence) (as : List Act) : Prop :=
  as = o.before ++ o.own ++ o.after ∧ o.own ≠ [] ∧
    ∃ n n', o.construct.write prog n = .ok ((), n', o.own)

/-- The same place with more actions around it. -/
def shift (pre post : List Act) (o : Occurrence) : Occurrence :=
  { o with before := pre ++ o.before, after := o.after ++ post }

theorem In.shift {o : Occurrence} {as : List Act} (h : o.In prog as) (pre post : List Act) :
    (o.shift pre post).In prog (pre ++ as ++ post) := by
  obtain ⟨has, hown⟩ := h
  refine ⟨?_, hown⟩
  simp [Occurrence.shift, has]

theorem In.before_lt {o : Occurrence} {as : List Act} (h : o.In prog as) :
    o.before.length < as.length := by
  obtain ⟨has, hown, -⟩ := h
  have := List.length_pos_iff.mpr hown
  rw [has]
  simp only [List.length_append]
  omega

end Occurrence

/-- The constructs are written one after another, or one inside another, in this order. -/
structure Occur (prog : Program) (cs : List Construct) (as : List Act)
    (occs : List Occurrence) : Prop where
  constructs : occs.map Occurrence.construct = cs
  ordered : occs.Pairwise fun o o' => o.before.length < o'.before.length
  within : ∀ o ∈ occs, o.In prog as

theorem Occur.append {cs ds : List Construct} {as bs : List Act} {occs occs' : List Occurrence}
    (ha : Occur prog cs as occs) (hb : Occur prog ds bs occs') :
    Occur prog (cs ++ ds) (as ++ bs) (occs.map (·.shift [] bs) ++ occs'.map (·.shift as [])) := by
  obtain ⟨hcs, hord, hin⟩ := ha
  obtain ⟨hds, hord', hin'⟩ := hb
  refine ⟨?_, ?_, ?_⟩
  · rw [← hcs, ← hds]
    simp [Occurrence.shift, Function.comp_def]
  · refine List.pairwise_append.mpr ⟨?_, ?_, ?_⟩
    · exact List.pairwise_map.mpr (by simpa [Occurrence.shift] using hord)
    · exact List.pairwise_map.mpr (by simpa [Occurrence.shift] using hord')
    · simp only [List.mem_map]
      rintro _ ⟨o, ho, rfl⟩ _ ⟨o', -, rfl⟩
      have := (hin o ho).before_lt
      simp only [Occurrence.shift, List.nil_append, List.length_append]
      omega
  · simp only [List.mem_append, List.mem_map]
    rintro _ (⟨o, ho, rfl⟩ | ⟨o, ho, rfl⟩)
    · simpa using (hin o ho).shift [] bs
    · simpa using (hin' o ho).shift as []

/-- A construct whose position is recorded first, before those that are written inside it. -/
theorem Occur.own {c : Construct} {cs : List Construct} {as : List Act} {occs : List Occurrence}
    {p : Pos} {n n' : Names} (h : Occur prog cs as occs)
    (hc : c.write prog n = .ok ((), n', .recordPos p :: as)) :
    Occur prog (c :: cs) (.recordPos p :: as)
      (⟨c, [], .recordPos p :: as, []⟩ :: occs.map (·.shift [.recordPos p] [])) := by
  obtain ⟨hcs, hord, hin⟩ := h
  refine ⟨?_, ?_, ?_⟩
  · rw [← hcs]
    simp [Occurrence.shift, Function.comp_def]
  · refine List.pairwise_cons.mpr ⟨?_, ?_⟩
    · simp [Occurrence.shift]
    · exact List.pairwise_map.mpr (by simpa [Occurrence.shift] using hord)
  · simp only [List.mem_cons, List.mem_map]
    rintro _ (rfl | ⟨o, ho, rfl⟩)
    · exact ⟨by simp, by simp, n, n', hc⟩
    · simpa using (hin o ho).shift [.recordPos p] []

/-- The actions write the constructs. -/
def Writes (prog : Program) (cs : List Construct) (as : List Act) : Prop :=
  ∃ occs, Occur prog cs as occs

theorem Writes.nil (as : List Act) : Writes prog [] as :=
  ⟨[], rfl, List.Pairwise.nil, by simp⟩

theorem Writes.append {cs ds : List Construct} {as bs : List Act} (ha : Writes prog cs as)
    (hb : Writes prog ds bs) : Writes prog (cs ++ ds) (as ++ bs) := by
  obtain ⟨occs, ha⟩ := ha
  obtain ⟨occs', hb⟩ := hb
  exact ⟨_, ha.append hb⟩

theorem Emits.writes_bind {cs ds : List Construct} {m : EmitM α} {f : α → EmitM β}
    (hm : Emits (Writes prog cs) m) (hf : ∀ a, Emits (Writes prog ds) (f a)) :
    Emits (Writes prog (cs ++ ds)) (m >>= f) :=
  Emits.bind hm hf fun _ _ => Writes.append

/-- Actions before and after a part do not matter. -/
theorem Emits.writes_then {cs : List Construct} {m : EmitM α} {f : α → EmitM β}
    (hf : ∀ a, Emits (Writes prog cs) (f a)) : Emits (Writes prog cs) (m >>= f) := by
  have hm : Emits (Writes prog []) m := fun _ _ _ => Writes.nil _
  exact Emits.writes_bind hm hf

/-- A method that records a position first writes its own construct before the others. -/
theorem occurs_own {c : Construct} {cs : List Construct} {p : Pos} {m : EmitM Unit}
    (hc : c.write prog = (do recordPos p; m)) (hm : Emits (Writes prog cs) m)
    {n : Names} {r : Unit × Names × List Act} (hr : out (c.write prog) n = some r) :
    ∃ occs, Occur prog (c :: cs) r.2.2 (⟨c, [], r.2.2, []⟩ :: occs) ∧
      occs.map Occurrence.construct = cs := by
  have hr' := hr
  rw [hc, out_bind, recordPos, out_perform, Option.bind_some] at hr'
  obtain ⟨q, hq, rfl⟩ := Option.map_eq_some_iff.mp hr'
  obtain ⟨occs, hocc⟩ := hm n q hq
  refine ⟨_, hocc.own (out_eq_some.mp hr), ?_⟩
  rw [← hocc.constructs]
  simp [Occurrence.shift, Function.comp_def]

theorem writes_own {c : Construct} {cs : List Construct} {p : Pos} {m : EmitM Unit}
    (hc : c.write prog = (do recordPos p; m)) (hm : Emits (Writes prog cs) m) :
    Emits (Writes prog (c :: cs)) (c.write prog) := by
  intro n r hr
  obtain ⟨occs, hocc, -⟩ := occurs_own hc hm hr
  exact ⟨_, hocc⟩

theorem writes_none (m : EmitM α) : Emits (Writes prog []) m := fun _ _ _ => Writes.nil _

theorem writes_before {cs : List Construct} {m : EmitM α} {f : α → EmitM β}
    (hm : Emits (Writes prog cs) m) : Emits (Writes prog cs) (m >>= f) := by
  have h := Emits.writes_bind hm fun a => writes_none (f a)
  rwa [List.append_nil] at h

theorem writes_indented {cs : List Construct} {m : EmitM Unit} (hm : Emits (Writes prog cs) m) :
    Emits (Writes prog cs) (indented m) :=
  Emits.writes_then fun _ => writes_before hm

theorem writes_writeIfStmt {pos : Pos} {hasInit : Bool} {cond : Expr} {body : EmitM Unit}
    {els : ElseClause} {cs ds : List Construct} (hbody : Emits (Writes prog cs) body)
    (hels : Emits (Writes prog ds) (writeElse prog pos els)) :
    Emits (Writes prog (cs ++ ds)) (writeIfStmt prog pos hasInit cond body els) := by
  unfold writeIfStmt
  split_ifs
  · exact Emits.fail _
  · refine Emits.writes_then fun c => Emits.writes_then fun _ => Emits.writes_then fun _ => ?_
    exact Emits.writes_bind (writes_indented hbody) fun _ => Emits.writes_then fun _ => hels

theorem writes_writeForStmt {pos : Pos} {init : Option Stmt} {cond : Option Expr}
    {post : Option Stmt} {body : EmitM Unit} {cs : List Construct}
    (hbody : Emits (Writes prog cs) body) :
    Emits (Writes prog cs) (writeForStmt prog pos init cond post body) := by
  unfold writeForStmt
  split
  · refine Emits.writes_then fun i => Emits.writes_then fun c => Emits.writes_then fun p => ?_
    refine Emits.writes_then fun _ => Emits.writes_then fun _ => ?_
    exact writes_before (writes_indented hbody)
  · exact Emits.fail _

mutual
/-- **`writeStmt` writes the statement and then the statements of its blocks.** -/
theorem writes_writeStmt : ∀ s : Stmt, Emits (Writes prog (stmtConstructs s)) (writeStmt prog s)
  | .decl pos tok specs => writes_own (c := .stmt (.decl pos tok specs)) rfl (writes_none _)
  | .assign lhs tok rhs => writes_own (c := .stmt (.assign lhs tok rhs)) rfl (writes_none _)
  | .ifs pos init cond body els => writes_own (c := .stmt (.ifs pos init cond body els)) rfl
      (writes_writeIfStmt (writes_writeBlock body) (writes_writeElse pos els))
  | .ret pos results => writes_own (c := .stmt (.ret pos results)) rfl (writes_none _)
  | .expr x => writes_own (c := .stmt (.expr x)) rfl (writes_none _)
  | .fors pos init cond post body => writes_own (c := .stmt (.fors pos init cond post body)) rfl
      (writes_writeForStmt (writes_writeBlock body))
  | .block pos list => writes_own (c := .stmt (.block pos list)) rfl
      (Emits.writes_then fun _ => Emits.writes_then fun _ =>
        writes_before (writes_indented (writes_writeBlock list)))
  | .incDec x inc => writes_own (c := .stmt (.incDec x inc)) rfl (writes_none _)
  | .other kind pos children => writes_own (c := .stmt (.other kind pos children)) rfl
      (writes_none _)

theorem writes_writeBlock : ∀ list : List Stmt,
    Emits (Writes prog (blockConstructs list)) (writeBlock prog list)
  | [] => writes_none _
  | s :: rest => Emits.writes_bind (writes_writeStmt s) fun _ => writes_writeBlock rest

theorem writes_writeElse (pos : Pos) : ∀ els : Option Stmt,
    Emits (Writes prog (elseConstructs els)) (writeElse prog pos (elseClause prog els))
  | none => writes_none _
  | some (.ifs _ _ _ body _) => Emits.writes_then fun _ => Emits.writes_then fun _ =>
      Emits.writes_then fun _ => writes_before (writes_indented (writes_writeBlock body))
  | some (.block _ list) => Emits.writes_then fun _ =>
      writes_before (writes_indented (writes_writeBlock list))
  | some (.decl _ _ _) => writes_none _
  | some (.assign _ _ _) => writes_none _
  | some (.ret _ _) => writes_none _
  | some (.expr _) => writes_none _
  | some (.fors _ _ _ _ _) => writes_none _
  | some (.incDec _ _) => writes_none _
  | some (.other _ _ _) => writes_none _
end

theorem writes_writeBody (fd : FuncDecl) :
    Emits (Writes prog (bodyConstructs fd)) (writeBody prog fd.body) := by
  unfold bodyConstructs
  cases fd.body with
  | none => exact writes_none _
  | some body => exact writes_writeBlock body.list

/-! ### The definitions of a file -/

/-- The actions of the definitions among some occurrences. -/
def definitionActs (occs : List Occurrence) : List Act :=
  (occs.filter fun o => o.construct.isDefinition).flatMap Occurrence.own

theorem definitionActs_append (occs occs' : List Occurrence) :
    definitionActs (occs ++ occs') = definitionActs occs ++ definitionActs occs' := by
  rw [definitionActs, List.filter_append, List.flatMap_append]
  rfl

theorem definitionActs_shift (pre post : List Act) (occs : List Occurrence) :
    definitionActs (occs.map (·.shift pre post)) = definitionActs occs := by
  rw [definitionActs, List.filter_map, List.flatMap_map]
  rfl

theorem definitionActs_stmts {occs : List Occurrence}
    (h : ∀ c ∈ occs.map Occurrence.construct, c.isDefinition = false) :
    definitionActs occs = [] := by
  have hfilter : occs.filter (fun o => o.construct.isDefinition) = [] := by
    rw [List.filter_eq_nil_iff]
    intro o ho
    rw [h _ (List.mem_map_of_mem ho)]
    decide
  rw [definitionActs, hfilter, List.flatMap_nil]

/-- The computation writes the constructs and, apart from their definitions, nothing. -/
def Composes (prog : Program) (cs : List Construct) (m : EmitM α) : Prop :=
  Emits (fun as => ∃ occs, Occur prog cs as occs ∧ as = definitionActs occs) m

theorem Composes.bind {cs ds : List Construct} {m : EmitM α} {f : α → EmitM β}
    (hm : Composes prog cs m) (hf : ∀ a, Composes prog ds (f a)) :
    Composes prog (cs ++ ds) (m >>= f) := by
  refine Emits.bind hm hf ?_
  rintro as bs ⟨occs, hocc, has⟩ ⟨occs', hocc', hbs⟩
  refine ⟨_, hocc.append hocc', ?_⟩
  rw [definitionActs_append, definitionActs_shift, definitionActs_shift, ← has, ← hbs]

theorem composes_forEach {γ : Type} {f : γ → EmitM Unit} {cs : γ → List Construct}
    (hf : ∀ x, Composes prog (cs x) (f x)) (xs : List γ) :
    Composes prog (xs.flatMap cs) (forEach f xs) := by
  induction xs with
  | nil =>
      intro n r hr
      cases hr
      exact ⟨[], ⟨rfl, List.Pairwise.nil, by simp⟩, rfl⟩
  | cons x xs ih => exact (hf x).bind fun _ => ih

/-- A definition that begins with its position, and the statements inside it. -/
theorem composes_own {c : Construct} {cs : List Construct} {p : Pos} {m : EmitM Unit}
    (hdef : c.isDefinition = true) (hcs : ∀ d ∈ cs, d.isDefinition = false)
    (hc : c.write prog = (do recordPos p; m)) (hm : Emits (Writes prog cs) m) :
    Composes prog (c :: cs) (c.write prog) := by
  intro n r hr
  obtain ⟨occs, hocc, hconstructs⟩ := occurs_own hc hm hr
  refine ⟨_, hocc, ?_⟩
  have hrest := definitionActs_stmts (hconstructs ▸ hcs)
  rw [← List.singleton_append, definitionActs_append, hrest, definitionActs]
  simp [hdef]

/-- The constructs inside a function are no definitions. -/
theorem bodyConstructs_inner (fd : FuncDecl) : ∀ d ∈ bodyConstructs fd, d.isDefinition = false := by
  intro d hd
  obtain ⟨s, rfl⟩ := bodyConstructs_stmt fd d hd
  rfl

theorem composes_writeHelper (h : HelperFunc) :
    Composes prog (.helper h :: bodyConstructs h.decl) (writeHelper prog h) := by
  refine composes_own (c := .helper h) rfl (bodyConstructs_inner h.decl) rfl ?_
  refine Emits.writes_then fun retC => Emits.writes_then fun params => ?_
  exact Emits.writes_then fun _ => writes_before (writes_indented (writes_writeBody h.decl))

theorem composes_writeProgram (p : ProgramFunc) :
    Composes prog (.program p :: bodyConstructs p.decl) (writeProgram prog p) := by
  refine composes_own (c := .program p) rfl (bodyConstructs_inner p.decl) rfl ?_
  refine Emits.writes_then fun _ => Emits.writes_then fun param => ?_
  exact Emits.writes_then fun _ => writes_before (writes_indented (writes_writeBody p.decl))

/-! ### Constructs begin with text -/

theorem opens_append {as bs : List Act} (h : opens as = true) : opens (as ++ bs) = true := by
  induction as with
  | nil => cases h
  | cons a as ih =>
      cases a with
      | writef s =>
          rcases Bool.or_eq_true_iff.mp h with hs | has
          · exact Bool.or_eq_true_iff.mpr (Or.inl hs)
          · exact Bool.or_eq_true_iff.mpr (Or.inr (ih has))
      | writeRaw s =>
          rcases Bool.or_eq_true_iff.mp h with hs | has
          · exact Bool.or_eq_true_iff.mpr (Or.inl hs)
          · exact Bool.or_eq_true_iff.mpr (Or.inr (ih has))
      | writeln s => rfl
      | recordPos p => cases h
      | writeIndent => exact ih h
      | indent => exact ih h
      | dedent => exact ih h

/-- The computation writes text before it records a position. -/
abbrev Opens (m : EmitM α) : Prop := Emits (opens · = true) m

theorem Opens.before {m : EmitM α} {f : α → EmitM β} (hm : Opens m) : Opens (m >>= f) := by
  have hf : ∀ a, Emits (fun _ => True) (f a) := fun _ _ _ _ => trivial
  exact Emits.bind hm hf fun _ _ has _ => opens_append has

theorem opens_writef {c : Char} {s : Text} : Opens (writef (c :: s)) := Emits.perform rfl

theorem opens_writeln {s : Text} : Opens (writeln s) := Emits.perform rfl

theorem opens_writeStruct (t : UserTypeDecl) : Opens (writeStruct prog t) := by
  unfold writeStruct
  split
  · exact Opens.before opens_writef
  · exact Emits.fail _

theorem opens_writeMapDef (m : MapDecl) : Opens (writeMapDef m) :=
  (silent_lift _).bind fun _ => Opens.before opens_writeln

/-- What follows the recorded position of a construct. -/
def Follows (p : Pos) (as : List Act) : Prop :=
  ∃ rest, as = .recordPos p :: rest ∧ (rest = [] ∨ opens rest = true)

theorem follows_own {p : Pos} {m : EmitM Unit} (hm : Opens m) :
    Emits (Follows p) (do recordPos p; m) := by
  intro n r hr
  rw [out_bind, recordPos, out_perform, Option.bind_some] at hr
  obtain ⟨q, hq, rfl⟩ := Option.map_eq_some_iff.mp hr
  exact ⟨q.2.2, rfl, Or.inr (hm n q hq)⟩

theorem opens_line (l : CLine) : opens l.acts = true := by
  have hend : ∀ s : Text, opens [.writeIndent, .writef (s ++ ";\n")] = true := by
    intro s
    cases s <;> rfl
  rcases l with ⟨cType, name, id, init⟩ | ⟨lhs, op, rhs⟩ | ⟨x, op⟩ | x | _ | x
  · exact hend _
  · exact hend _
  · exact hend _
  · exact hend _
  · rfl
  · exact hend _

theorem opens_lines (ls : List CLine) :
    ls.flatMap CLine.acts = [] ∨ opens (ls.flatMap CLine.acts) = true := by
  cases ls with
  | nil => exact Or.inl rfl
  | cons l ls => exact Or.inr (opens_append (opens_line l))

/-- A statement records its position and then writes text, if it writes anything. -/
theorem follows_writeStmt (s : Stmt) : Emits (Follows s.pos) (writeStmt prog s) := by
  intro n r hr
  rw [out_writeStmt] at hr
  obtain ⟨⟨c, n'⟩, hc, rfl⟩ := Option.map_eq_some_iff.mp hr
  by_cases hs : isSimple s = true
  · obtain ⟨ls, rfl⟩ : ∃ ls, c = .simple s ls := stmtTree_simple hs hc
    exact ⟨_, by rw [CStmt.acts], opens_lines ls⟩
  · cases s with
    | ifs pos init cond body els =>
        obtain ⟨-, c', b, n₁, e, -, -, -, heq⟩ := stmtTree_ifs hc
        obtain rfl : c = _ := heq
        exact ⟨_, by rw [CStmt.acts]; rfl, Or.inr rfl⟩
    | fors pos init cond post body =>
        obtain ⟨i, e, q, initL, condT, postL, b, -, -, -, -, -, -, -, heq⟩ := stmtTree_fors hc
        obtain rfl : c = _ := heq
        exact ⟨_, by rw [CStmt.acts]; rfl, Or.inr rfl⟩
    | block pos list =>
        obtain ⟨b, -, heq⟩ := stmtTree_block hc
        obtain rfl : c = _ := heq
        exact ⟨_, by rw [CStmt.acts]; rfl, Or.inr rfl⟩
    | other kind pos children => cases hc
    | _ => simp [isSimple] at hs

theorem follows_write {c : Construct} (hpos : c.recordedPos ≠ 0) :
    Emits (Follows c.recordedPos) (c.write prog) := by
  cases c with
  | type t => exact follows_own (opens_writeStruct t)
  | map m =>
      cases hm : m.spec with
      | none => simp [Construct.recordedPos, hm] at hpos
      | some p =>
          simp only [Construct.write, Construct.recordedPos, writeMap, hm, Option.getD_some]
          exact follows_own (opens_writeMapDef m)
  | helper h =>
      refine follows_own ?_
      refine (silent_lift _).bind fun retC => (silent_lift _).bind fun params => ?_
      exact Opens.before opens_writef
  | program p => exact follows_own (Opens.before opens_writef)
  | stmt s => exact follows_writeStmt s

/-! ### The constructs of the file -/

theorem composes_writeMap (m : MapDecl) : Composes prog [.map m] (writeMap m) := by
  intro n r hr
  refine ⟨[⟨.map m, [], r.2.2, []⟩], ⟨rfl, List.pairwise_singleton _ _, ?_⟩, ?_⟩
  · simp only [List.mem_singleton]
    rintro _ rfl
    refine ⟨by simp, ?_, n, r.2.1, out_eq_some.mp hr⟩
    intro hnil
    change r.2.2 = [] at hnil
    unfold writeMap at hr
    split at hr
    · rw [out_bind, recordPos, out_perform, Option.bind_some] at hr
      obtain ⟨q, -, rfl⟩ := Option.map_eq_some_iff.mp hr
      cases hnil
    · have := opens_writeMapDef m n r hr
      rw [hnil] at this
      cases this
  · exact (List.append_nil _).symm

/-- The part of `Emit` before the definitions. -/
def emitSupport (prog : Program) (label : Text) : EmitM Unit := do
  writeHeader label (usesKernelFieldAccess prog) (usesEndianHelpers prog)
  writeLicense prog
  writePrelude (usedPreludeHelpers prog)

/-- **The actions of a file**: those of its support code and then those of its definitions,
one after another, and no others. -/
structure Composed (prog : Program) (label : Text) (acts : List Act)
    (occs : List Occurrence) : Prop extends Occur prog (constructs prog) acts occs where
  whole : ∃ n support, emitSupport prog label ⟨[], 0⟩ = .ok ((), n, support) ∧
    acts = support ++ definitionActs occs

theorem composes_definitions : Composes prog (constructs prog) (do
    forEach (writeUserType prog) prog.types
    forEach writeMap prog.maps
    forEach (writeHelper prog) prog.helpers
    forEach (writeProgram prog) prog.programs) := by
  have htypes : Composes prog (prog.types.map .type)
      (forEach (writeUserType prog) prog.types) := by
    rw [List.map_eq_flatMap]
    exact composes_forEach (fun t => composes_own (c := .type t) rfl (by simp) rfl (writes_none _)) _
  have hmaps : Composes prog (prog.maps.map .map) (forEach writeMap prog.maps) := by
    rw [List.map_eq_flatMap]
    exact composes_forEach composes_writeMap _
  unfold constructs
  rw [List.append_assoc, List.append_assoc]
  refine htypes.bind fun _ => hmaps.bind fun _ => ?_
  exact (composes_forEach composes_writeHelper _).bind fun _ =>
    composes_forEach composes_writeProgram _

/-- **The emission writes the constructs of the program in order, and nothing besides.** -/
theorem emit_composed {label : Text} {n : Names} {acts : List Act}
    (h : emitActs prog label ⟨[], 0⟩ = .ok ((), n, acts)) :
    ∃ occs, Composed prog label acts occs := by
  have hout := out_eq_some.mpr h
  unfold emitActs at hout
  rw [out_bind] at hout
  obtain ⟨r₁, h₁, hout⟩ := Option.bind_eq_some_iff.mp hout
  obtain ⟨t₁, hout, heq₁⟩ := Option.map_eq_some_iff.mp hout
  rw [out_bind] at hout
  obtain ⟨r₂, h₂, hout⟩ := Option.bind_eq_some_iff.mp hout
  obtain ⟨t₂, hout, heq₂⟩ := Option.map_eq_some_iff.mp hout
  rw [out_bind] at hout
  obtain ⟨r₃, h₃, hout⟩ := Option.bind_eq_some_iff.mp hout
  obtain ⟨q, hq, heq₃⟩ := Option.map_eq_some_iff.mp hout
  have hsupport : out (emitSupport prog label) ⟨[], 0⟩ =
      some ((), r₃.2.1, r₁.2.2 ++ (r₂.2.2 ++ r₃.2.2)) := by
    rw [emitSupport, out_bind, h₁, Option.bind_some, out_bind, h₂, Option.bind_some, h₃]
    rfl
  have hacts : acts = r₁.2.2 ++ (r₂.2.2 ++ r₃.2.2) ++ q.2.2 := by
    cases heq₁
    cases heq₂
    cases heq₃
    simp only [List.append_assoc]
  subst hacts
  obtain ⟨occs, hocc, hwhole⟩ := composes_definitions _ _ hq
  have hnone : Occur prog [] (r₁.2.2 ++ (r₂.2.2 ++ r₃.2.2)) [] :=
    ⟨rfl, List.Pairwise.nil, by simp⟩
  refine ⟨_, hnone.append hocc, _, _, out_eq_some.mp hsupport, ?_⟩
  rw [List.map_nil, List.nil_append, definitionActs_shift, ← hwhole]

/-! ## Soundness -/

/-- The emitter after a list of actions. -/
def Emitter.after (prog : Program) (as : List Act) : Emitter := Emitter.new.acts prog as

/-- The text `u` of an occurrence stands after the text `b`, and if it is not empty, the
mappings have one to `x` for the line on which it begins, and all later mappings are for
later lines. -/
def Occurrence.MappedTo (prog : Program) (o : Occurrence) (x : Position) (text : Text)
    (ms : List SourceMapping) : Prop :=
  ∃ b u rest, text = b ++ u ++ rest ∧ (Emitter.after prog o.before).buf = b ∧
    (Emitter.after prog (o.before ++ o.own)).buf = b ++ u ∧
    (u ≠ [] → ∃ ms₁ ms₂, ms = ms₁ ++ ⟨1 + newlines b, x⟩ :: ms₂ ∧
      ∀ m ∈ ms₂, 1 + newlines b < m.cLine)

/-- What is recorded for a construct is its Go position. -/
def MapsInPlace (prog : Program) : Prop :=
  ∀ c ∈ constructs prog, prog.position c.recordedPos = c.position prog

/-- The text is mapped to the Go position of the construct. -/
def Occurrence.Mapped (prog : Program) (o : Occurrence) (text : Text)
    (ms : List SourceMapping) : Prop :=
  o.MappedTo prog (o.construct.position prog) text ms

theorem mapped_of_follows {o : Occurrence} {as : List Act} {start : Bool}
    (hin : o.In prog as) (hlined : Lined true start as) (hpos : o.construct.recordedPos ≠ 0)
    (hfollows : Follows o.construct.recordedPos o.own) :
    o.MappedTo prog (prog.position o.construct.recordedPos) (Emitter.after prog as).buf
      (Emitter.after prog as).mappings := by
  obtain ⟨has, -, -⟩ := hin
  obtain ⟨hplain, hlined⟩ := hlined
  obtain ⟨rest, hown, hrest⟩ := hfollows
  have hb : (Emitter.after prog (o.before ++ o.own)).buf =
      ((Emitter.after prog o.before).acts prog o.own).buf := by
    simp only [Emitter.after, acts_append]
  obtain ⟨u, hu⟩ := acts_buf prog (Emitter.after prog o.before) o.own
  obtain ⟨v, hv⟩ := acts_buf prog (Emitter.after prog (o.before ++ o.own)) o.after
  refine ⟨_, u, v, ?_, rfl, by rw [hb, hu], fun hne => ?_⟩
  · rw [← hu, ← hb, ← hv, has]
    simp only [Emitter.after, acts_append]
  · rcases hrest with rfl | hopens
    · -- only the position is recorded, so there is no text
      exfalso
      rw [hown] at hu
      simp only [Emitter.acts, List.foldl_cons, List.foldl_nil, Emitter.act, hpos,
        if_false] at hu
      exact hne (by simpa using hu)
    · have hrec : as = o.before ++ .recordPos o.construct.recordedPos :: (rest ++ o.after) := by
        rw [has, hown]
        simp
      exact mapping_is_last hplain hlined hrec hpos (opens_append hopens)

/-- The emission of a file: its actions with the constructs they write; the line counter is
one plus the newlines in the buffer at every moment; positions are recorded at starts of
lines; the lines of the mappings never go back. -/
structure SoundRun (prog : Program) (label text : Text) (ms : List SourceMapping)
    (acts : List Act) (occs : List Occurrence) : Prop where
  run : ∃ n, emitActs prog label ⟨[], 0⟩ = .ok ((), n, acts)
  text : text = (Emitter.after prog acts).buf
  mappings : ms = (Emitter.after prog acts).mappings
  composed : Composed prog label acts occs
  counted : ∀ pre, pre <+: acts → (Emitter.after prog pre).LineOk
  atStart : ∀ pre p post, acts = pre ++ .recordPos p :: post → (Emitter.after prog pre).AtStart
  ordered : ms.Pairwise fun m m' => m.cLine ≤ m'.cLine

/-- **The lines of the source map are right**: the text of every construct has a mapping for
the line on which it begins, the last one for that line, with the position that was recorded
for the construct. -/
theorem emit_soundRun {label text : Text} {ms : List SourceMapping}
    (h : emit prog label = .ok (text, ms)) (hpos : ∀ c ∈ constructs prog, c.recordedPos ≠ 0) :
    ∃ acts occs, SoundRun prog label text ms acts occs ∧
      ∀ o ∈ occs, o.MappedTo prog (prog.position o.construct.recordedPos) text ms := by
  obtain ⟨⟨_, n, acts⟩, hacts, heq⟩ := bind_ok h
  have hout : out (emitActs prog label) ⟨[], 0⟩ = some ((), n, acts) := out_eq_some.mpr hacts
  obtain ⟨hplain, hlined⟩ := lines_emitActs label _ _ hout
  obtain ⟨occs, hocc⟩ := emit_composed hacts
  cases heq
  refine ⟨acts, occs, ⟨⟨n, hacts⟩, rfl, rfl, hocc, ?_, ?_, ?_⟩, ?_⟩
  · exact fun pre hpre => lineOk_of_prefix hplain hpre
  · exact fun pre p post hacts' => atStart_of_recordPos hlined hacts'
  · change (Emitter.after prog acts).mappings.Pairwise _
    rw [Emitter.after, acts_mappings]
    exact mapped_pairwise acts Emitter.new
  · intro o ho
    have hc : o.construct.recordedPos ≠ 0 := by
      refine hpos _ ?_
      rw [← hocc.constructs]
      exact List.mem_map_of_mem ho
    obtain ⟨has, hne, m, m', hown⟩ := hocc.within o ho
    exact mapped_of_follows ⟨has, hne, m, m', hown⟩ ⟨hplain, hlined⟩ hc
      (follows_write hc m _ (out_eq_some.mpr hown))

end Gobee
