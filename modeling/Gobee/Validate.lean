/-
# The validator

`validate.go`: the check of the imports, the walk over every function body with its
deny-list of syntax nodes, and the check of the types that the body defines.  The
findings are sorted by source position at the end.
-/
import Gobee.FormatExpr

namespace Gobee

/-! ## Diagnostics -/

/-- `Diagnostic`. -/
structure Diagnostic where
  pos : Position
  msg : Text
  deriving DecidableEq, Repr

/-- A finding of `validator.emit`. -/
def diagnosticAt (prog : Program) (pos : Pos) (msg : Text) : Diagnostic :=
  ⟨prog.position pos, msg⟩

/-- The order of the findings: by file, line and column. -/
def Position.before (a b : Position) : Bool :=
  if a.filename ≠ b.filename then decide (a.filename < b.filename)
  else if a.line ≠ b.line then decide (a.line < b.line)
  else decide (a.column < b.column)

/-! ## Imports -/

/-- `allowedImports`. -/
def allowedImports : List Text := [bpfPkgPath, "unsafe"]

/-- One import of `checkImports`. -/
def checkImport (prog : Program) (imp : ImportSpec) : List Diagnostic :=
  match imp.path with
  | none => [diagnosticAt prog imp.pos ("malformed import path " ++ imp.value)]
  | some path =>
      if path ∈ allowedImports then []
      else
        [diagnosticAt prog imp.pos ("import " ++ quote path ++
          " is not allowed in BPF programs; only " ++ quote bpfPkgPath ++ " can be imported")]

/-- `checkImports`. -/
def checkImports (prog : Program) : List Diagnostic := prog.imports.flatMap (checkImport prog)

/-! ## The walk over a body -/

/-- The message for a statement node that `visit` rejects by its kind. -/
def rejectedStmt : StmtKind → Option Text
  | .range => some "range loops are not supported; use a constant-bounded for loop"
  | .switch => some "switch is not supported; use if/else if"
  | .typeSwitch => some "type switch is not supported"
  | .go => some "goroutines are not supported in BPF programs"
  | .defer => some "defer is not supported in BPF programs"
  | .select => some "select is not supported in BPF programs"
  | .send => some "channel sends are not supported in BPF programs"
  | _ => none

/-- The message for an expression node that `visit` rejects by its kind. -/
def rejectedExpr : ExprKind → Option Text
  | .typeAssert => some "type assertions are not supported in BPF programs"
  | .slice => some "slices are not supported"
  | .funcLit => some "function literals/closures are not supported"
  | .chanType => some "channels are not supported in BPF programs"
  | .mapType =>
      some ("Go's builtin map is not supported; declare a BPF map as `var X = " ++
        "bpf.HashMap[K, V]\x7bMaxEntries: N\x7d` (or ArrayMap, LruHashMap, …)")
  | .interfaceType => some "interfaces are not supported"
  | .arrayType false => some "slices are not supported; use a fixed-size [N]T array"
  | _ => none

/-- The message for a call of a builtin that `checkCall` rejects. -/
def rejectedBuiltin (fn : Text) : Option Text :=
  if fn = "make" then some "make is not supported (no heap allocation in BPF programs)"
  else if fn = "new" then some "new is not supported (no heap allocation in BPF programs)"
  else if fn = "panic" then some "panic is not supported in BPF programs"
  else if fn = "recover" then some "recover is not supported in BPF programs"
  else none

/-- `visit`, with `checkForStmt` and `checkCall`: the finding at one node. -/
def visit (prog : Program) : Node → List Diagnostic
  | .stmt (.other kind pos _) => (rejectedStmt kind).toList.map (diagnosticAt prog pos)
  | .stmt (.fors pos none none none _) =>
      [diagnosticAt prog pos "infinite for loops are not allowed; use constant-bounded for"]
  | .expr (.other kind pos _) => (rejectedExpr kind).toList.map (diagnosticAt prog pos)
  | .expr (.call (.ident id) _) =>
      (rejectedBuiltin id.name).toList.map (diagnosticAt prog id.pos)
  | _ => []

/-- `isStringType`. -/
def isStringType (prog : Program) : GoType → Bool
  | .basic .string | .basic .untypedString => true
  | .named n targs =>
      match prog.info.underlying n targs with
      | .basic .string | .basic .untypedString => true
      | _ => false
  -- `Underlying` looks through an alias
  | .typeAlias _ _ actual => isStringType prog actual
  | _ => false

/-- The finding of `checkBodyTypes` for one definition. -/
def checkDef (prog : Program) (body : Body) : Ident × Option Obj → List Diagnostic
  | (id, some obj) =>
      -- `body.End()` is the position after the closing brace
      if id.pos < body.lbrace ∨ id.pos > body.rbrace + 1 then []
      else if isStringType prog obj.type then
        [diagnosticAt prog id.pos "strings are not supported in BPF programs"]
      else []
  | (_, none) => []

/-- `checkBodyTypes`. -/
def checkBodyTypes (prog : Program) (body : Body) : List Diagnostic :=
  prog.info.defs.flatMap (checkDef prog body)

/-- `FieldList.NumFields`. -/
def FieldList.numFields (fl : FieldList) : Nat :=
  (fl.list.map fun f => if f.names.isEmpty then 1 else f.names.length).sum

/-- `checkFunc`. -/
def checkFunc (prog : Program) (fd : FuncDecl) : List Diagnostic :=
  (if fd.recv.isSome then [diagnosticAt prog fd.pos "methods on user types are not supported"]
    else []) ++
  (match fd.typeParams with
    | some fl => [diagnosticAt prog fl.pos "generic functions are not supported"]
    | none => []) ++
  (match fd.results with
    | some fl =>
        if 1 < fl.numFields then
          [diagnosticAt prog fl.pos "multiple return values are not supported"]
        else []
    | none => []) ++
  match fd.body with
  | none => []
  | some body => (inspectStmts body.list).flatMap (visit prog) ++ checkBodyTypes prog body

/-! ## Validate -/

/-- The findings in the order they are made. -/
def findings (prog : Program) : List Diagnostic :=
  checkImports prog ++ prog.programs.flatMap (fun p => checkFunc prog p.decl) ++
    prog.helpers.flatMap (fun h => checkFunc prog h.decl)

/-- `Validate`: the findings, stably sorted by position. -/
def validate (prog : Program) : List Diagnostic :=
  (findings prog).mergeSort fun a b => !b.pos.before a.pos

theorem validate_eq_nil {prog : Program} : validate prog = [] ↔ findings prog = [] := by
  unfold validate
  rw [← List.length_eq_zero_iff, List.length_mergeSort, List.length_eq_zero_iff]

end Gobee
