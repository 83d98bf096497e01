/-
# Scopes in Go and in C

The emitter prints identifiers by name, and Go and C open scopes at different points: a C
declarator is in scope in its own initialiser, a Go variable only after its statement.  A
comma-ok statement declares one C pointer for two Go variables, and a named result has no
C declaration at all.

This module walks a function body twice.  `blockWalk` follows the Go source and keeps one
list of entries with what Go and C can see of each; `blockCourse` follows the emitted
statements by the scoping rules of C alone.

* `rel_blockWalk` : **the two walks visit the same points in the same order, with the same
  C declarations in scope, and print the same names.**
-/
import Gobee.Course
import Gobee.Uses

namespace Gobee

open CSyntax

/-! ## Declarations -/

/-- A C declaration of a variable: its name, the Go identifier it is written for, and the
other result of a comma-ok statement, if the statement declares it. -/
structure CDecl where
  name : Text
  id : Ident
  ok : Option Ident
  deriving DecidableEq, Repr

/-- The Go identifiers the declaration is written for. -/
def CDecl.ids (d : CDecl) : List Ident := d.id :: d.ok.toList

/-- The declaration that C finds for a name. -/
def cLookup (scope : List CDecl) (w : Text) : Option CDecl := scope.find? fun d => d.name = w

/-- A declaration in scope. -/
inductive Entry where
  /-- a C variable; `new` unless it is written for a Go variable that exists already -/
  | var (d : CDecl) (new : Bool)
  /-- the second result of a comma-ok statement, which stands for a pointer -/
  | ok (id : Ident) (ptr : CDecl)
  /-- a Go variable without a C declaration -/
  | bare (id : Ident)
  deriving DecidableEq, Repr

/-- The declarations in scope, innermost first. -/
abbrev Scope := List Entry

/-- The declared Go identifier. -/
def Entry.id : Entry → Ident
  | .var d _ => d.id
  | .ok id _ => id
  | .bare id => id

/-- The name under which Go sees the entry. -/
def Entry.goName : Entry → Option Text
  | .var d new => if new = true ∧ d.id.name ≠ ['_'] then some d.id.name else none
  | .ok id _ => if id.name ≠ ['_'] then some id.name else none
  | .bare id => if id.name ≠ ['_'] then some id.name else none

/-- The C declaration of the entry. -/
def Entry.decl? : Entry → Option CDecl
  | .var d _ => some d
  | _ => none

/-- The C declarations in scope. -/
def decls (scope : Scope) : List CDecl := scope.filterMap Entry.decl?

/-- The entry that Go finds for a name. -/
def goLookup (scope : Scope) (x : Text) : Option Entry :=
  scope.find? fun e => e.goName = some x

@[simp] theorem decls_append (s t : Scope) : decls (s ++ t) = decls s ++ decls t :=
  List.filterMap_append

@[simp] theorem decls_cons_var (d : CDecl) (new : Bool) (s : Scope) :
    decls (.var d new :: s) = d :: decls s := rfl

/-! ## Points of a Go function -/

/-- What the source does at a point. -/
inductive GoStep where
  | declare (id : Ident) (init : Option Expr)
  | commaOk (v ok : Ident) (fn : Expr) (args : List Expr)
  | assign (lhs : Expr) (tok : AssignTok) (rhs : Expr)
  | step (x : Expr)
  | eval (x : Expr)
  | cond (x : Expr)
  | ret (x : Option Expr)

/-- A point of the source that is emitted. -/
structure Visit where
  /-- what Go has in scope -/
  go : Scope
  /-- what is in scope before the point -/
  enter : Scope
  /-- what the point declares -/
  declared : Scope
  aliases : Aliases
  step : GoStep

/-- What is in scope for C at the point, and for both languages after the statement. -/
def Visit.scope (v : Visit) : Scope := v.declared ++ v.enter

/-- The C type of an expression. -/
def exprTypeC (prog : Program) (e : Expr) : Text :=
  (goTypeToC? (prog.info.typeOf e)).toOption.getD []

/-- The use of what an assignment writes to. -/
def targetUse (op : Text) : Use := if op = ['='] then .store else .update

/-- The identifiers printed for a comma-ok call. -/
def commaOkMentions (prog : Program) (fn : Expr) (args : List Expr) : List Mention :=
  match mapLookupCall prog fn with
  | some (m, _) => ⟨.addr, true, m⟩ :: args.flatMap fun a => (reading prog a).mentions .value
  | none =>
      match ringbufReserveCall prog fn with
      | some (m, _) => [⟨.addr, true, m⟩]
      | none =>
          match storageGetCall prog fn with
          | some (m, _, _) =>
              ⟨.addr, true, m⟩ :: args.flatMap fun a => (reading prog a).mentions .value
          | none => []

/-- The identifiers printed at a point, in a function with the given C return type. -/
def GoStep.mentions (prog : Program) (retC : Text) : GoStep → List Mention
  | .declare _ none => []
  | .declare id (some e) => (reading prog e).mentions (typeUse ((cTypeOf prog id).getD []))
  | .commaOk _ _ fn args => commaOkMentions prog fn args
  | .assign l tok r =>
      (reading prog l).mentions (targetUse tok.string) ++
        (reading prog r).mentions (typeUse (exprTypeC prog l))
  | .step x => (reading prog x).mentions .update
  | .eval x => (reading prog x).mentions .value
  | .cond x => (reading prog x).mentions .truth
  | .ret none => []
  | .ret (some x) => (reading prog x).mentions (typeUse retC)

/-- The declared variable, and whether it is given a value. -/
def GoStep.decl? : GoStep → Option (Ident × Bool)
  | .declare id init => some (id, init.isSome)
  | .commaOk v _ _ _ => some (v, true)
  | _ => none

/-! ## The walk along the source -/

/-- The points of a piece of source, with the names of the emitter and the scope after
it. -/
structure Walk where
  course : Course Visit
  names : Names
  scope : Scope

/-- An ordinary variable. -/
def Entry.ordinary (id : Ident) : Entry := .var ⟨id.name, id, none⟩ true

/-- The points of one specification, of which `cur` is already declared. -/
def specVisits (go : Scope) (aliases : Aliases) : List Ident → List Expr → Scope → List Visit
  | [], _, _ => []
  | id :: ids, values, cur =>
      ⟨go, cur, [.ordinary id], aliases, .declare id values.head?⟩ ::
        specVisits go aliases ids values.tail (.ordinary id :: cur)

/-- The scope after the names of a specification. -/
def specScope (ids : List Ident) (scope : Scope) : Scope :=
  ids.foldl (fun s id => .ordinary id :: s) scope

/-- The points of a declaration. -/
def specsVisits (aliases : Aliases) : List ValueSpec → Scope → List Visit
  | [], _ => []
  | spec :: rest, scope =>
      specVisits scope aliases spec.names spec.values scope ++
        specsVisits aliases rest (specScope spec.names scope)

/-- The scope after a declaration. -/
def specsScope (specs : List ValueSpec) (scope : Scope) : Scope :=
  specs.foldl (fun s spec => specScope spec.names s) scope

/-- The hint for the name of a blank first result. -/
def commaOkKind (prog : Program) (fn : Expr) : Text :=
  if (mapLookupCall prog fn).isSome then "lookup"
  else if (ringbufReserveCall prog fn).isSome then "reserve"
  else "get"

/-- The identifier, if it declares a new variable. -/
def newIdent (prog : Program) (id : Ident) : Option Ident :=
  if (prog.info.defsAt id).isSome then some id else none

/-- The pointer of a comma-ok statement. -/
def commaOkDecl (prog : Program) (n : Names) (v ok : Ident) (fn : Expr) : CDecl :=
  ⟨(lhsName n v (commaOkKind prog fn)).1, v, newIdent prog ok⟩

/-- The names after a comma-ok statement. -/
def commaOkNames (prog : Program) (n : Names) (v ok : Ident) (fn : Expr) : Names :=
  let val := lhsName n v (commaOkKind prog fn)
  aliased prog val.2 ok val.1

/-- What a comma-ok statement declares. -/
def commaOkEntries (prog : Program) (n : Names) (v ok : Ident) (fn : Expr) : Scope :=
  let ptr := commaOkDecl prog n v ok fn
  ((newIdent prog ok).map fun id => Entry.ok id ptr).toList ++
    [.var ptr (prog.info.defsAt v).isSome]

/-- A statement with one point. -/
def oneWalk (n : Names) (v : Visit) : Walk := ⟨.ofList [v], n, v.scope⟩

/-- A point that declares nothing. -/
def plainVisit (n : Names) (scope : Scope) (step : GoStep) : Visit :=
  ⟨scope, scope, [], n.aliases, step⟩

/-- The point of a definition. -/
def defineVisit (n : Names) (scope : Scope) (id : Ident) (r : Expr) : Visit :=
  ⟨scope, scope, [.ordinary id], n.aliases, .declare id (some r)⟩

/-- The walk along a comma-ok statement. -/
def commaOkWalk (prog : Program) (n : Names) (scope : Scope) (v ok rhs : Expr) : Walk :=
  match identOf v, identOf ok, rhs with
  | some vId, some okId, .call fn args =>
      oneWalk (commaOkNames prog n vId okId fn)
        ⟨scope, scope, commaOkEntries prog n vId okId fn, n.aliases,
          .commaOk vId okId fn args⟩
  | _, _, _ => ⟨.skip, n, scope⟩

/-- The point of a single assignment or definition. -/
def singleVisit (n : Names) (scope : Scope) (l : Expr) (tok : AssignTok) (r : Expr) :
    Option Visit :=
  if tok = .define then (identOf l).map fun id => defineVisit n scope id r
  else some (plainVisit n scope (.assign l tok r))

/-- The walk along an optional point. -/
def visitWalk (n : Names) (scope : Scope) : Option Visit → Walk
  | some v => oneWalk n v
  | none => ⟨.skip, n, scope⟩

/-- The walk along an assignment. -/
def assignWalk (prog : Program) (n : Names) (scope : Scope) (lhs : List Expr)
    (tok : AssignTok) (rhs : List Expr) : Walk :=
  match lhs, rhs with
  | [v, ok], [r] => commaOkWalk prog n scope v ok r
  | [l], [r] => visitWalk n scope (singleVisit n scope l tok r)
  | _, _ => ⟨.skip, n, scope⟩

/-- The walk along a clause of a `for`. -/
def clauseWalk (n : Names) (scope : Scope) : Stmt → Walk
  | .assign [l] tok [r] => visitWalk n scope (singleVisit n scope l tok r)
  | .incDec x _ => oneWalk n (plainVisit n scope (.step x))
  | _ => ⟨.skip, n, scope⟩

/-- The variables that the dropped init clause of an `else if` declares. -/
def initEntries (prog : Program) : Option Stmt → Scope
  | some (.assign lhs .define _) =>
      (lhs.filterMap identOf).filterMap fun id => (newIdent prog id).map .bare
  | _ => []

mutual
/-- The walk along a statement. -/
def stmtWalk (prog : Program) : Stmt → Names → Scope → Walk
  | .decl _ _ specs, n, scope =>
      ⟨.ofList (specsVisits n.aliases specs scope), n, specsScope specs scope⟩
  | .assign lhs tok rhs, n, scope => assignWalk prog n scope lhs tok rhs
  | .ifs _ _ cond body els, n, scope =>
      let b := blockWalk prog body n scope
      let e := elseWalk prog els b.names scope
      ⟨.seq (.item (plainVisit n scope (.cond cond))) (.branch b.course e.course), e.names,
        scope⟩
  | .ret _ results, n, scope =>
      ⟨.seq (.ofList [plainVisit n scope (.ret results.head?)]) .stop, n, scope⟩
  | .expr x, n, scope => oneWalk n (plainVisit n scope (.eval x))
  | .fors _ init cond post body, n, scope =>
      match init, cond, post with
      | some i, some c, some p =>
          let h := clauseWalk n scope i
          let b := blockWalk prog body n h.scope
          ⟨.seq h.course (.loop (.item (plainVisit n h.scope (.cond c)))
              (.seq b.course (clauseWalk n h.scope p).course)),
            b.names, scope⟩
      | _, _, _ => ⟨.skip, n, scope⟩
  | .block _ list, n, scope =>
      let b := blockWalk prog list n scope
      ⟨b.course, b.names, scope⟩
  | .incDec x _, n, scope => oneWalk n (plainVisit n scope (.step x))
  | .other _ _ _, n, scope => ⟨.skip, n, scope⟩

/-- The walk along a list of statements. -/
def blockWalk (prog : Program) : List Stmt → Names → Scope → Walk
  | [], n, scope => ⟨.skip, n, scope⟩
  | s :: rest, n, scope =>
      let a := stmtWalk prog s n scope
      let b := blockWalk prog rest a.names a.scope
      ⟨.seq a.course b.course, b.names, b.scope⟩

/-- The walk along an else clause; of an `else if`, the emitter drops the init clause and
the branches behind it. -/
def elseWalk (prog : Program) : Option Stmt → Names → Scope → Walk
  | some (.ifs _ init cond body _), n, scope =>
      let inner := initEntries prog init ++ scope
      let b := blockWalk prog body n inner
      ⟨.seq (.item ⟨inner, scope, initEntries prog init, n.aliases, .cond cond⟩)
          (.branch b.course .skip),
        b.names, scope⟩
  | some (.block _ list), n, scope =>
      let b := blockWalk prog list n scope
      ⟨b.course, b.names, scope⟩
  | _, n, scope => ⟨.skip, n, scope⟩
end

/-! ## Points of an emitted function -/

/-- What the emitted code does at a point; a line keeps the Go statement it is written
for. -/
inductive Point where
  | line (src : Stmt) (l : CLine)
  | cond (t : CTree)

/-- A point of the emitted code with the declarations that C has in scope there. -/
structure Place where
  scope : List CDecl
  point : Point

/-- The second result of a comma-ok statement, if the statement declares it. -/
def okOf (prog : Program) : Stmt → Option Ident
  | .assign [_, ok] _ _ => (identOf ok).bind (newIdent prog)
  | _ => none

/-- The declaration of a line. -/
def CLine.declares (prog : Program) (src : Stmt) : CLine → List CDecl
  | .decl _ name id _ => [⟨name, id, okOf prog src⟩]
  | _ => []

/-- The use of an assigned value: it is converted to the type of the left side. -/
def assignedUse (prog : Program) : Stmt → Use
  | .assign [l] _ _ => typeUse (exprTypeC prog l)
  | _ => .value

/-- The names at a point, in a function with the given return type. -/
def Point.reads (prog : Program) (retC : Text) : Point → List Leaf
  | .line _ (.decl cType _ _ init) => init.toList.flatMap (Gobee.reads prog (typeUse cType))
  | .line src (.assign l op r) =>
      Gobee.reads prog (targetUse op) l ++ Gobee.reads prog (assignedUse prog src) r
  | .line _ (.step x _) => Gobee.reads prog .update x
  | .line _ (.expr x) => Gobee.reads prog .value x
  | .line _ (.ret x) => x.toList.flatMap (Gobee.reads prog (typeUse retC))
  | .cond t => Gobee.reads prog .truth t

/-- The declared variable, and whether it is given a value. -/
def Point.decl? : Point → Option (Ident × Bool)
  | .line _ (.decl _ _ id init) => some (id, init.isSome)
  | _ => none

/-- The line is a return. -/
def CLine.isRet : CLine → Bool
  | .ret _ => true
  | _ => false

section

variable (prog : Program)

/-- The places of some lines; a declarator is in scope in its own initialiser. -/
def linePlaces (src : Stmt) : List CLine → List CDecl → List Place
  | [], _ => []
  | l :: rest, scope =>
      ⟨l.declares prog src ++ scope, .line src l⟩ ::
        linePlaces src rest (l.declares prog src ++ scope)

/-- The declarations after some lines. -/
def lineScope (src : Stmt) (lines : List CLine) (scope : List CDecl) : List CDecl :=
  lines.foldl (fun s l => l.declares prog src ++ s) scope

mutual
/-- The places of an emitted statement, and the declarations after it. -/
def CStmt.course : CStmt → List CDecl → Course Place × List CDecl
  | .simple src lines, scope =>
      (if lines.any CLine.isRet then .seq (.ofList (linePlaces prog src lines scope)) .stop
        else .ofList (linePlaces prog src lines scope),
        lineScope prog src lines scope)
  | .block _ body, scope => ((blockCourse body scope).1, scope)
  | .ite _ _ cond body els, scope =>
      (.seq (.item ⟨scope, .cond cond⟩) (.branch (blockCourse body scope).1 (els.course scope)),
        scope)
  | .loop _ goInit init _ cond goPost post body, scope =>
      -- a variable of the init clause is in scope in the whole loop
      let inner := init.declares prog goInit ++ scope
      (.seq (.ofList (linePlaces prog goInit [init] scope))
          (.loop (.item ⟨inner, .cond cond⟩)
            (.seq (blockCourse body inner).1 (.ofList (linePlaces prog goPost [post] inner)))),
        scope)

/-- The places of an else part. -/
def CElse.course : CElse → List CDecl → Course Place
  | .none, _ => .skip
  | .elseIf _ _ cond body, scope =>
      .seq (.item ⟨scope, .cond cond⟩) (.branch (blockCourse body scope).1 .skip)
  | .block _ body, scope => (blockCourse body scope).1

/-- The places of a list of statements, and the declarations after it. -/
def blockCourse : List CStmt → List CDecl → Course Place × List CDecl
  | [], scope => (.skip, scope)
  | c :: rest, scope =>
      let a := c.course scope
      let b := blockCourse rest a.2
      (.seq a.1 b.1, b.2)
end

end

/-! ## The two walks agree -/

/-- The place is where the point of the source is emitted. -/
structure Shows (prog : Program) (v : Visit) (p : Place) : Prop where
  scope : p.scope = decls v.scope
  names (retC : Text) : p.point.reads prog retC =
    (v.step.mentions prog retC).flatMap (Mention.print prog v.aliases)
  decl : p.point.decl? = v.step.decl?

/-- The walk along the source agrees with the places of the emitted code. -/
structure Retraces (prog : Program) (w : Walk) (q : Course Place × List CDecl) (n : Names) :
    Prop where
  course : Course.Rel (Shows prog) w.course q.1
  names : w.names = n
  scope : decls w.scope = q.2

section

variable {prog : Program} {n : Names} {scope : Scope}

theorem reads_treeOf {e : Expr} {t : CTree} (ht : treeOf prog n e = some t) (u : Use) :
    reads prog u t = ((reading prog e).mentions u).flatMap (Mention.print prog n.aliases) :=
  (reads_exprTree e (exprTree_of_treeOf ht)).names u

theorem targetUse_assignText {tok : AssignTok} {op : Text} (h : assignText tok = some op) :
    op = tok.string := by
  cases tok with
  | define => cases h
  | andNot => cases h
  | _ => exact (Option.some.inj h).symm

theorem shows_spec {pos : Pos} {tok : DeclTok} {specs : List ValueSpec} {go : Scope} :
    ∀ {ids : List Ident} {values : List Expr} {ls : List CLine} {cur : Scope},
      specLines prog n ids values = some ls →
        List.Forall₂ (Shows prog) (specVisits go n.aliases ids values cur)
          (linePlaces prog (.decl pos tok specs) ls (decls cur)) ∧
        decls (specScope ids cur) = lineScope prog (.decl pos tok specs) ls (decls cur) ∧
        ls.any CLine.isRet = false
  | [], values, ls, cur, hls => by
      cases hls
      exact ⟨.nil, rfl, rfl⟩
  | id :: ids, values, ls, cur, hls => by
      obtain ⟨cType, hcType, hls⟩ := Option.bind_eq_some_iff.mp hls
      obtain ⟨init, hinit, hls⟩ := Option.bind_eq_some_iff.mp hls
      obtain ⟨rest, hrest, hls⟩ := Option.bind_eq_some_iff.mp hls
      cases hls
      obtain ⟨hplaces, hscope, hret⟩ := @shows_spec pos tok specs go ids values.tail rest (.ordinary id :: cur) hrest
      refine ⟨.cons ⟨rfl, fun retC => ?_, ?_⟩ hplaces, hscope, hret⟩
      · cases values with
        | nil =>
            cases hinit
            rfl
        | cons value values =>
            obtain ⟨t, ht, rfl⟩ := Option.map_eq_some_iff.mp hinit
            have hreads := reads_treeOf ht (typeUse cType)
            simpa [Point.reads, GoStep.mentions, hcType] using hreads
      · cases values with
        | nil =>
            cases hinit
            rfl
        | cons value values =>
            obtain ⟨t, ht, rfl⟩ := Option.map_eq_some_iff.mp hinit
            rfl

theorem linePlaces_append {src : Stmt} {ls ms : List CLine} {cs : List CDecl} :
    linePlaces prog src (ls ++ ms) cs =
      linePlaces prog src ls cs ++ linePlaces prog src ms (lineScope prog src ls cs) := by
  induction ls generalizing cs with
  | nil => rfl
  | cons l ls ih =>
      rw [List.cons_append, linePlaces, ih, linePlaces, List.cons_append]
      rfl

theorem shows_specs {pos : Pos} {tok : DeclTok} {specs : List ValueSpec} :
    ∀ {rest : List ValueSpec} {ls : List CLine} {cur : Scope},
      specsLines prog n rest = some ls →
        List.Forall₂ (Shows prog) (specsVisits n.aliases rest cur)
          (linePlaces prog (.decl pos tok specs) ls (decls cur)) ∧
        decls (specsScope rest cur) = lineScope prog (.decl pos tok specs) ls (decls cur) ∧
        ls.any CLine.isRet = false
  | [], ls, cur, hls => by
      cases hls
      exact ⟨.nil, rfl, rfl⟩
  | spec :: rest, ls, cur, hls => by
      obtain ⟨ls₁, hls₁, hls⟩ := Option.bind_eq_some_iff.mp hls
      obtain ⟨ls₂, hls₂, hls⟩ := Option.bind_eq_some_iff.mp hls
      cases hls
      obtain ⟨hplaces, hscope, hret⟩ := @shows_spec prog n pos tok specs cur _ _ _ cur hls₁
      obtain ⟨hplaces', hscope', hret'⟩ :=
        @shows_specs pos tok specs rest ls₂ (specScope spec.names cur) hls₂
      refine ⟨?_, ?_, ?_⟩
      · rw [linePlaces_append, ← hscope]
        exact List.rel_append hplaces hplaces'
      · rw [hscope] at hscope'
        rw [lineScope, List.foldl_append]
        exact hscope'
      · rw [List.any_append, hret, hret']
        rfl

/-- The line is what the point of the source is emitted as. -/
structure LineOf (prog : Program) (scope : Scope) (v : Visit) (src : Stmt) (l : CLine) :
    Prop where
  notRet : l.isRet = false
  enter : v.enter = scope
  decls : decls v.declared = l.declares prog src
  names (retC : Text) : (Point.line src l).reads prog retC =
    (v.step.mentions prog retC).flatMap (Mention.print prog v.aliases)
  decl : (Point.line src l).decl? = v.step.decl?

section

variable {v : Visit} {src : Stmt} {l : CLine}

theorem LineOf.scope_eq (h : LineOf prog scope v src l) :
    l.declares prog src ++ Gobee.decls scope = Gobee.decls v.scope := by
  rw [Visit.scope, decls_append, h.decls, h.enter]

theorem LineOf.shows (h : LineOf prog scope v src l) :
    Course.Rel (Shows prog) (.ofList [v])
      (.ofList (linePlaces prog src [l] (Gobee.decls scope))) :=
  Course.rel_ofList (.cons ⟨h.scope_eq, h.names, h.decl⟩ .nil)

/-- A statement with one line. -/
theorem LineOf.retraces (h : LineOf prog scope v src l) (n' : Names) :
    Retraces prog (oneWalk n' v) ((CStmt.simple src [l]).course prog (Gobee.decls scope)) n' := by
  refine ⟨?_, rfl, h.scope_eq.symm⟩
  rw [CStmt.course, List.any_cons, h.notRet]
  exact h.shows

end

theorem lineOf_define {l r : Expr} {id : Ident} {cType : Text} {rt : CTree}
    (hcType : cTypeOf prog id = some cType) (hr : treeOf prog n r = some rt) :
    LineOf prog scope (defineVisit n scope id r) (.assign [l] .define [r])
      (.decl cType id.name id (some rt)) where
  notRet := rfl
  enter := rfl
  decls := rfl
  names retC := by
    have hreads := reads_treeOf hr (typeUse cType)
    simpa [Point.reads, GoStep.mentions, defineVisit, hcType] using hreads
  decl := rfl

theorem lineOf_assign {l r : Expr} {tok : AssignTok} {lt rt : CTree}
    (hl : treeOf prog n l = some lt) (hr : treeOf prog n r = some rt) :
    LineOf prog scope (plainVisit n scope (.assign l tok r)) (.assign [l] tok [r])
      (.assign lt tok.string rt) where
  notRet := rfl
  enter := rfl
  decls := rfl
  names retC := by
    rw [Point.reads, reads_treeOf hl, reads_treeOf hr, plainVisit, GoStep.mentions,
      List.flatMap_append]
    rfl
  decl := rfl

theorem lineOf_step {x : Expr} {inc : Bool} {t : CTree} (hx : treeOf prog n x = some t) :
    LineOf prog scope (plainVisit n scope (.step x)) (.incDec x inc)
      (.step t (incDecText inc)) where
  notRet := rfl
  enter := rfl
  decls := rfl
  names _ := reads_treeOf hx .update
  decl := rfl

theorem lineOf_eval {x : Expr} {t : CTree} (hx : treeOf prog n x = some t) :
    LineOf prog scope (plainVisit n scope (.eval x)) (.expr x) (.expr t) where
  notRet := rfl
  enter := rfl
  decls := rfl
  names _ := reads_treeOf hx .value
  decl := rfl

/-- The point of a single assignment is emitted as its line. -/
theorem lineOf_single {l r : Expr} {tok : AssignTok} {line : CLine}
    (h : singleAssignLine prog n l tok r = some line) :
    ∃ v, singleVisit n scope l tok r = some v ∧
      LineOf prog scope v (.assign [l] tok [r]) line := by
  obtain ⟨lt, hl, h⟩ := Option.bind_eq_some_iff.mp h
  obtain ⟨rt, hr, h⟩ := Option.bind_eq_some_iff.mp h
  by_cases htok : tok = .define
  · subst htok
    obtain ⟨id, hid, h⟩ := Option.bind_eq_some_iff.mp h
    obtain ⟨cType, hcType, h⟩ := Option.bind_eq_some_iff.mp h
    cases h
    refine ⟨defineVisit n scope id r, ?_, lineOf_define hcType hr⟩
    rw [singleVisit, if_pos rfl, hid]
    rfl
  · have hline : (assignText tok).bind (fun op => some (CLine.assign lt op rt)) = some line := by
      cases tok with
      | define => exact absurd rfl htok
      | _ => exact h
    obtain ⟨op, hop, h⟩ := Option.bind_eq_some_iff.mp hline
    cases h
    rw [targetUse_assignText hop]
    exact ⟨_, by rw [singleVisit, if_neg htok], lineOf_assign hl hr⟩

/-- The walk along a clause of a `for` agrees with its line. -/
theorem lineOf_clause {s : Stmt} {line : CLine} (h : forClause prog n s = some line) :
    ∃ v, clauseWalk n scope s = oneWalk n v ∧ LineOf prog scope v s line := by
  unfold forClause at h
  split at h
  · rename_i l tok r
    obtain ⟨rt, hr, hline⟩ := Option.bind_eq_some_iff.mp h
    clear h
    split_ifs at hline with htok
    · subst htok
      obtain ⟨id, hid, hline⟩ := Option.bind_eq_some_iff.mp hline
      obtain ⟨cType, hcType, hline⟩ := Option.bind_eq_some_iff.mp hline
      cases hline
      refine ⟨_, ?_, lineOf_define hcType hr⟩
      rw [clauseWalk, singleVisit, if_pos rfl, hid]
      rfl
    · obtain ⟨lt, hl, hline⟩ := Option.bind_eq_some_iff.mp hline
      cases hline
      refine ⟨_, ?_, lineOf_assign hl hr⟩
      rw [clauseWalk, singleVisit, if_neg htok]
      rfl
  · obtain ⟨t, ht, h⟩ := Option.map_eq_some_iff.mp h
    cases h
    exact ⟨_, rfl, lineOf_step ht⟩
  · cases h

theorem reads_soleTree {args : List Expr} {t : CTree} (h : soleTree prog n args = some t)
    (u : Use) : reads prog u t = (args.flatMap fun a => (reading prog a).mentions u).flatMap
      (Mention.print prog n.aliases) := by
  unfold soleTree at h
  split at h
  · rw [reads_treeOf h]
    simp
  · cases h

/-- The names of a helper call on the address of a map. -/
theorem reads_addrCall {f : Text} {m : Ident} {as : List CTree} (u : Use) :
    reads prog u (.call (name f) (addrOf m :: as)) =
      Mention.print prog n.aliases ⟨.addr, true, m⟩ ++ readsArgs prog (fun _ => .value) as := by
  rw [reads, reads_name, List.nil_append]
  rfl

/-- The call of a comma-ok statement, its hint and its names. -/
theorem commaOkCall_names {fn : Expr} {args : List Expr} {c : CommaOkCall}
    (h : commaOkCall prog n fn args = some c) :
    c.kind = commaOkKind prog fn ∧ ∀ u, reads prog u c.call =
      (commaOkMentions prog fn args).flatMap (Mention.print prog n.aliases) := by
  unfold commaOkCall at h
  unfold commaOkKind commaOkMentions
  cases hlookup : mapLookupCall prog fn with
  | some p =>
      obtain ⟨m, valType⟩ := p
      rw [hlookup] at h
      obtain ⟨valC, -, h⟩ := Option.bind_eq_some_iff.mp h
      obtain ⟨key, hkey, h⟩ := Option.bind_eq_some_iff.mp h
      cases h
      refine ⟨rfl, fun u => ?_⟩
      rw [@reads_addrCall prog n, List.flatMap_cons, readsArgs, readsArgs, List.append_nil,
        reads_soleTree hkey]
  | none =>
      rw [hlookup] at h
      cases hreserve : ringbufReserveCall prog fn with
      | some p =>
          obtain ⟨m, valType⟩ := p
          rw [hreserve] at h
          obtain ⟨valC, -, h⟩ := Option.bind_eq_some_iff.mp h
          cases h
          refine ⟨rfl, fun u => ?_⟩
          rw [@reads_addrCall prog n]
          rfl
      | none =>
          rw [hreserve] at h
          cases hget : storageGetCall prog fn with
          | some p =>
              obtain ⟨m, valType, getFn⟩ := p
              rw [hget] at h
              obtain ⟨valC, -, h⟩ := Option.bind_eq_some_iff.mp h
              obtain ⟨obj, hobj, h⟩ := Option.bind_eq_some_iff.mp h
              cases h
              refine ⟨rfl, fun u => ?_⟩
              rw [@reads_addrCall prog n, List.flatMap_cons, readsArgs, reads_soleTree hobj]
              simp [readsArgs]
          | none =>
              rw [hget] at h
              cases h

/-- A comma-ok statement is emitted as its line. -/
theorem retraces_commaOk {v ok r : Expr} {line : CLine} {n' : Names}
    (h : commaOkLine prog n v ok r = some (line, n')) :
    Retraces prog (commaOkWalk prog n scope v ok r)
      ((CStmt.simple (.assign [v, ok] .define [r]) [line]).course prog (decls scope)) n' := by
  unfold commaOkLine at h
  split at h
  · rename_i fn args
    obtain ⟨c, hc, h⟩ := Option.bind_eq_some_iff.mp h
    obtain ⟨vId, hv, h⟩ := Option.bind_eq_some_iff.mp h
    obtain ⟨okId, hok, h⟩ := Option.bind_eq_some_iff.mp h
    cases h
    obtain ⟨hkind, hnames⟩ := commaOkCall_names hc
    have hline : LineOf prog scope
        ⟨scope, scope, commaOkEntries prog n vId okId fn, n.aliases, .commaOk vId okId fn args⟩
        (.assign [v, ok] .define [.call fn args])
        (.decl (c.valC ++ " *") (lhsName n vId c.kind).1 vId (some c.call)) := by
      refine ⟨rfl, rfl, ?_, fun retC => ?_, rfl⟩
      · rw [CLine.declares, okOf, hok, hkind, Option.bind_some]
        unfold commaOkEntries commaOkDecl
        cases newIdent prog okId with
        | none => rfl
        | some id => rfl
      · rw [Point.reads, Option.toList_some, List.flatMap_singleton]
        exact hnames _
    have hwalk := hline.retraces (commaOkNames prog n vId okId fn)
    have heq : commaOkWalk prog n scope v ok (.call fn args) =
        oneWalk (commaOkNames prog n vId okId fn)
          ⟨scope, scope, commaOkEntries prog n vId okId fn, n.aliases,
            .commaOk vId okId fn args⟩ := by
      simp only [commaOkWalk, hv, hok]
    have hnames' : aliased prog (lhsName n vId c.kind).2 okId (lhsName n vId c.kind).1 =
        commaOkNames prog n vId okId fn := by
      rw [commaOkNames, hkind]
    rw [heq, hnames']
    exact hwalk
  · cases h

theorem retraces_assign {lhs rhs : List Expr} {tok : AssignTok} {line : CLine} {n' : Names}
    (h : assignLine prog n lhs tok rhs = some (line, n')) :
    Retraces prog (assignWalk prog n scope lhs tok rhs)
      ((CStmt.simple (.assign lhs tok rhs) [line]).course prog (decls scope)) n' := by
  unfold assignLine at h
  split at h
  · split_ifs at h with htok
    subst htok
    exact retraces_commaOk h
  · rename_i l r
    obtain ⟨line', hline, heq⟩ := Option.map_eq_some_iff.mp h
    cases heq
    obtain ⟨v, hv, hlineOf⟩ := @lineOf_single prog n scope l r tok line hline
    rw [assignWalk, hv]
    exact hlineOf.retraces n
  · cases h

theorem retraces_return {pos : Pos} {results : List Expr} {line : CLine}
    (h : returnLine prog n results = some line) :
    Retraces prog (stmtWalk prog (.ret pos results) n scope)
      ((CStmt.simple (.ret pos results) [line]).course prog (decls scope)) n := by
  unfold returnLine at h
  split at h
  · cases h
    exact ⟨⟨Course.rel_ofList (.cons ⟨rfl, fun _ => rfl, rfl⟩ .nil), trivial⟩, rfl, rfl⟩
  · obtain ⟨t, ht, h⟩ := Option.map_eq_some_iff.mp h
    cases h
    refine ⟨⟨Course.rel_ofList (.cons ⟨rfl, fun retC => ?_, rfl⟩ .nil), trivial⟩, rfl, rfl⟩
    rw [Point.reads, Option.toList_some, List.flatMap_singleton]
    exact reads_treeOf ht _
  · cases h

theorem decls_initEntries (init : Option Stmt) : decls (initEntries prog init) = [] := by
  unfold initEntries
  split
  · rw [decls, List.filterMap_eq_nil_iff]
    intro e he
    obtain ⟨id, -, hid⟩ := List.mem_filterMap.mp he
    obtain ⟨id', -, rfl⟩ := Option.map_eq_some_iff.mp hid
    rfl
  · rfl

theorem shows_cond {cond : Expr} {t : CTree} {go declared : Scope}
    (ht : treeOf prog n cond = some t) (hdecls : decls declared = []) :
    Shows prog ⟨go, scope, declared, n.aliases, .cond cond⟩ ⟨decls scope, .cond t⟩ := by
  refine ⟨?_, fun retC => reads_treeOf ht .truth, rfl⟩
  rw [Visit.scope, decls_append, hdecls]
  rfl

mutual
theorem rel_stmtWalk (prog : Program) : ∀ (s : Stmt) {n n' : Names} {c : CStmt} (scope : Scope),
    stmtTree prog s n = some (c, n') →
      Retraces prog (stmtWalk prog s n scope) (c.course prog (decls scope)) n'
  | .decl pos tok specs, n, n', c, scope, h => by
      rw [stmtTree] at h
      split_ifs at h
      obtain ⟨ls, hls, heq⟩ := Option.map_eq_some_iff.mp h
      cases heq
      obtain ⟨hplaces, hscope, hret⟩ := @shows_specs prog n pos tok specs specs ls scope hls
      refine ⟨?_, rfl, hscope⟩
      rw [CStmt.course, hret]
      exact Course.rel_ofList hplaces
  | .assign lhs tok rhs, n, n', c, scope, h => by
      obtain ⟨⟨line, m⟩, hline, heq⟩ := Option.map_eq_some_iff.mp h
      cases heq
      exact retraces_assign hline
  | .ifs pos init cond body els, n, n', c, scope, h => by
      obtain ⟨-, t, b, n₁, e, ht, hb, he, hc⟩ := stmtTree_ifs h
      cases hc
      have hbody := rel_blockWalk prog body scope hb
      have helse := rel_elseWalk prog els scope he
      rw [← hbody.names] at helse
      exact ⟨⟨shows_cond ht rfl, hbody.course, helse.1⟩, helse.2, rfl⟩
  | .ret pos results, n, n', c, scope, h => by
      obtain ⟨line, hline, heq⟩ := Option.map_eq_some_iff.mp h
      cases heq
      exact retraces_return hline
  | .expr x, n, n', c, scope, h => by
      obtain ⟨t, ht, heq⟩ := Option.map_eq_some_iff.mp h
      cases heq
      exact (lineOf_eval ht).retraces _
  | .fors pos init cond post body, n, n', c, scope, h => by
      obtain ⟨i, g, p, initL, t, postL, b, rfl, rfl, rfl, hi, ht, hp, hb, hc⟩ := stmtTree_fors h
      cases hc
      -- condition, post clause and body stand in the scope of the init clause
      obtain ⟨v, hv, hinit⟩ := @lineOf_clause prog n scope i initL hi
      obtain ⟨w, hw, hpost⟩ := @lineOf_clause prog n v.scope p postL hp
      have hbody := rel_blockWalk prog body v.scope hb
      rw [stmtWalk, CStmt.course, hv]
      have hscope : initL.declares prog i ++ decls scope = decls v.scope := hinit.scope_eq
      refine ⟨⟨hinit.shows, ?_, ?_, ?_⟩, hbody.names, rfl⟩
      · rw [hscope]
        exact shows_cond ht rfl
      · rw [hscope]
        exact hbody.course
      · rw [hscope, show (oneWalk n v).scope = v.scope from rfl, hw]
        exact hpost.shows
  | .block pos list, n, n', c, scope, h => by
      obtain ⟨b, hb, hc⟩ := stmtTree_block h
      cases hc
      have hbody := rel_blockWalk prog list scope hb
      exact ⟨hbody.course, hbody.names, rfl⟩
  | .incDec x inc, n, n', c, scope, h => by
      obtain ⟨t, ht, heq⟩ := Option.map_eq_some_iff.mp h
      cases heq
      exact (lineOf_step ht).retraces _
  | .other kind pos children, n, n', c, scope, h => by cases h

/-- **The walk along a block and the places of the emitted block agree.** -/
theorem rel_blockWalk (prog : Program) : ∀ (list : List Stmt) {n n' : Names} {cs : List CStmt}
    (scope : Scope), blockTree prog list n = some (cs, n') →
      Retraces prog (blockWalk prog list n scope) (blockCourse prog cs (decls scope)) n'
  | [], n, n', cs, scope, h => by
      cases h
      exact ⟨trivial, rfl, rfl⟩
  | s :: rest, n, n', cs, scope, h => by
      obtain ⟨c, n₁, cs', hc, hcs, heq⟩ := blockTree_cons h
      cases heq
      have hs := rel_stmtWalk prog s scope hc
      have hrest := rel_blockWalk prog rest (stmtWalk prog s n scope).scope hcs
      rw [← hs.names, hs.scope] at hrest
      exact ⟨⟨hs.course, hrest.course⟩, hrest.names, hrest.scope⟩

theorem rel_elseWalk (prog : Program) : ∀ (els : Option Stmt) {n n' : Names} {e : CElse}
    (scope : Scope), elseTree prog els n = some (e, n') →
      Course.Rel (Shows prog) (elseWalk prog els n scope).course
          (e.course prog (decls scope)) ∧ (elseWalk prog els n scope).names = n'
  | none, n, n', e, scope, h => by
      cases h
      exact ⟨trivial, rfl⟩
  | some (.ifs pos init cond body els), n, n', e, scope, h => by
      obtain ⟨t, b, ht, hb, he⟩ := elseTree_ifs h
      cases he
      have hbody := rel_blockWalk prog body (initEntries prog init ++ scope) hb
      rw [decls_append, decls_initEntries, List.nil_append] at hbody
      exact ⟨⟨shows_cond ht (decls_initEntries init), hbody.course, trivial⟩, hbody.names⟩
  | some (.block pos list), n, n', e, scope, h => by
      obtain ⟨b, hb, he⟩ := elseTree_block h
      cases he
      have hbody := rel_blockWalk prog list scope hb
      exact ⟨hbody.course, hbody.names⟩
  | some (.decl _ _ _), _, _, _, _, h => by cases h
  | some (.assign _ _ _), _, _, _, _, h => by cases h
  | some (.ret _ _), _, _, _, _, h => by cases h
  | some (.expr _), _, _, _, _, h => by cases h
  | some (.fors _ _ _ _ _), _, _, _, _, h => by cases h
  | some (.incDec _ _), _, _, _, _, h => by cases h
  | some (.other _ _ _), _, _, _, _, h => by cases h
end

end

end Gobee
