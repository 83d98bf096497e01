/-
# The local names of the imports

A program may import the `bpf` package and `unsafe`, each under a local name of its own
choice.  Renaming these names should not change the C text.  The recognisers of `formatCall`
resolve a package name through `go/types`, except the one for `unsafe.Pointer`, which
compares its spelling; and a selector on a package that no recogniser takes is printed with
the name of the package.

* `ImportsRenamed` : the second program is the first one with its imports renamed;
* `supported_renamed` : **`Emit` accepts a program whatever its imports are called.**
-/
import Gobee.Renaming
import Gobee.Support
import Gobee.Supported
import Gobee.BindingNames

namespace Gobee

open CSyntax
open CSyntax.CExpr (render)

/-! ## Imports -/

/-- The identifier that declares the import an identifier names, and the path of the
import. -/
def importOf (prog : Program) (id : Ident) : Option (Ident × Text) :=
  match prog.info.uses id with
  | some ⟨d, .pkgName path, _⟩ => some (d, path)
  | _ => none

/-- The nodes of a function: those of its body, and its parameters and results. -/
def FuncDecl.source (fd : FuncDecl) : List Node :=
  fd.nodes ++ (fieldsOf fd.params ++ fieldsOf fd.results).flatMap fun field =>
    field.names.map (fun n => .expr (.ident n)) ++ inspectExpr field.type

/-- The nodes of all functions that are emitted. -/
def sourceNodes (prog : Program) : List Node := (emittedFuncs prog).flatMap FuncDecl.source

/-- The identifiers of all functions that are emitted. -/
def sourceIdents (prog : Program) : List Ident := (sourceNodes prog).filterMap Node.ident?

/-- The identifiers that declare the imports which these identifiers name. -/
def importDecls (prog : Program) : List Ident :=
  (sourceIdents prog).filterMap fun id => (importOf prog id).map Prod.fst

/-- The names that are taken: those of the functions and those of the declarations. -/
def takenNames (prog : Program) : List Text :=
  (sourceIdents prog).map Ident.name ++ prog.programs.map ProgramFunc.name ++
    prog.helpers.map HelperFunc.name ++ prog.maps.map MapDecl.name ++
    prog.types.map UserTypeDecl.name ++ prog.consts.map UserConstDecl.name

/-- The identifier at its new position. -/
def Ident.moved (move : Pos → Pos) (id : Ident) : Ident := ⟨id.name, move id.pos⟩

/-- The local names of the imports become those of `ren`, and the text moves. -/
def importRenaming (prog : Program) (ren : Ident → Text) (move : Pos → Pos) : Renaming where
  ident id := ⟨((importOf prog id).map fun p => ren p.1).getD id.name, move id.pos⟩
  pos := move

/-- An object of the renamed program. -/
def Obj.renamed (ren : Ident → Text) (move : Pos → Pos) (obj : Obj) : Obj :=
  match obj.kind with
  | .pkgName _ => { obj with decl := ⟨ren obj.decl, move obj.decl.pos⟩ }
  | _ => { obj with decl := obj.decl.moved move }

/-- **The second program is the first one with its imports renamed to fresh identifiers.**
The positions may move, as long as they stay apart. -/
structure ImportsRenamed (tables : UnicodeTables) (ren : Ident → Text) (move : Pos → Pos)
    (prog prog' : Program) : Prop where
  apart : Function.Injective move
  fresh : ∀ d ∈ importDecls prog,
    IsGoIdent tables (ren d) ∧ ren d ≠ ['_'] ∧ ren d ∉ takenNames prog
  distinct : ∀ d ∈ importDecls prog, ∀ d' ∈ importDecls prog, ren d = ren d' → d = d'
  imports : prog'.imports.map ImportSpec.path = prog.imports.map ImportSpec.path
  license : prog'.license = prog.license
  isPrint : prog'.isPrint = prog.isPrint
  maps : List.Forall₂ (fun m m' => m'.name = m.name ∧ m'.type = m.type ∧ m'.keyType = m.keyType ∧
    m'.valType = m.valType ∧ m'.maxEntries = m.maxEntries) prog.maps prog'.maps
  types : List.Forall₂ (fun t t' => t'.name = t.name ∧ t'.type = t.type) prog.types prog'.types
  helpers : List.Forall₂ (fun h h' => h'.name = h.name ∧
    h'.decl = h.decl.rename (importRenaming prog ren move)) prog.helpers prog'.helpers
  programs : List.Forall₂ (fun p p' => p'.name = p.name ∧ p'.section_ = p.section_ ∧
    p'.decl = p.decl.rename (importRenaming prog ren move)) prog.programs prog'.programs
  uses : ∀ id, .expr (.ident id) ∈ sourceNodes prog →
    prog'.info.uses ((importRenaming prog ren move).ident id) =
      (prog.info.uses id).map (Obj.renamed ren move)
  defs : ∀ id, .expr (.ident id) ∈ sourceNodes prog →
    prog'.info.defsAt ((importRenaming prog ren move).ident id) =
      (prog.info.defsAt id).map (Obj.renamed ren move)
  typeOf : ∀ e, .expr e ∈ sourceNodes prog →
    prog'.info.typeOf (e.rename (importRenaming prog ren move)) = prog.info.typeOf e
  underlying : prog'.info.underlying = prog.info.underlying

/-- What `go/types` promises about the name of a package: it has no type, it stands before
the dot of a selector only, it is declared outside the functions, and the package with a
function `Pointer` is `unsafe`, not `bpf`. -/
structure ImportFacts (prog : Program) : Prop where
  untyped : ∀ id p, importOf prog id = some p → prog.info.typeOf (.ident id) = none ∨
    prog.info.typeOf (.ident id) = some (.basic .invalid)
  callee : ∀ id args, .expr (.call (.ident id) args) ∈ sourceNodes prog → importOf prog id = none
  selected : ∀ x sel, .expr (.selector x sel) ∈ sourceNodes prog → importOf prog sel = none
  assigned : ∀ lhs tok rhs id, .stmt (.assign lhs tok rhs) ∈ sourceNodes prog →
    .ident id ∈ lhs → importOf prog id = none
  declared : ∀ pos tok specs spec id, .stmt (.decl pos tok specs) ∈ sourceNodes prog →
    spec ∈ specs → id ∈ spec.names → importOf prog id = none
  params : ∀ fd ∈ emittedFuncs prog, ∀ field ∈ fieldsOf fd.params, ∀ id ∈ field.names,
    importOf prog id = none
  outside : ∀ id obj, .expr (.ident id) ∈ sourceNodes prog → prog.info.defsAt id = some obj →
    (∀ path, obj.kind ≠ .pkgName path) ∧
      ∀ id' p, importOf prog id' = some p → obj.decl.pos ≠ p.1.pos
  pointer : ∀ id sel args p, .expr (.call (.selector (.ident id) sel) args) ∈ sourceNodes prog →
    sel.name = ("Pointer" : Text) → importOf prog id = some p → p.2 ≠ bpfPkgPath ∧ args.length = 1
  /-- the parser gives every identifier a position of its own -/
  positions : ∀ id id', .expr (.ident id) ∈ sourceNodes prog →
    .expr (.ident id') ∈ sourceNodes prog → id.pos = id'.pos → id = id'

/-- The text of the expression shows the name of an import: the expression is the name
itself, or a conversion with `Pointer`. -/
def showsImport (prog : Program) : Expr → Bool
  | .ident id => (importOf prog id).isSome
  | .call (.selector (.ident id) sel) _ =>
      (importOf prog id).isSome && sel.name == "Pointer".toList
  | _ => false

/-- None of the expressions shows the name of an import. -/
def ImportFree (prog : Program) (es : List Expr) : Prop := ∀ e ∈ es, showsImport prog e = false

/-! ## The nodes of the source -/

section

variable {prog : Program}

/-- The nodes below a node of the source are nodes of the source. -/
theorem closed_source (prog : Program) : Closed (sourceNodes prog) := by
  refine Closed.flatMap fun fd _ => Closed.append ?_ (Closed.flatMap fun field _ => ?_)
  · unfold FuncDecl.nodes
    split
    · exact .nil
    · exact closed_stmts _
  · exact (closed_idents _).append (closed_expr _)

/-- A node below a node of the source. -/
theorem below {n m : Node} (hn : n ∈ sourceNodes prog) (hm : m ∈ inspectNode n) :
    m ∈ sourceNodes prog := closed_source prog n hn hm

theorem operand_mem {x : Expr} {sel : Ident} (hmem : .expr (.selector x sel) ∈ sourceNodes prog) :
    .expr x ∈ sourceNodes prog :=
  below hmem (List.mem_cons_of_mem _ (List.mem_append_left _ (self_mem_inspectExpr x)))

theorem callee_mem {fn : Expr} {args : List Expr}
    (hmem : .expr (.call fn args) ∈ sourceNodes prog) : .expr fn ∈ sourceNodes prog :=
  below hmem (List.mem_cons_of_mem _ (List.mem_append_left _ (self_mem_inspectExpr fn)))

theorem arg_mem {fn arg : Expr} {args : List Expr}
    (hmem : .expr (.call fn args) ∈ sourceNodes prog) (harg : arg ∈ args) :
    .expr arg ∈ sourceNodes prog :=
  below hmem (List.mem_cons_of_mem _ (List.mem_append_right _ (mem_inspectExprs harg)))

theorem lhs_mem {lhs rhs : List Expr} {tok : AssignTok} {e : Expr}
    (hmem : .stmt (.assign lhs tok rhs) ∈ sourceNodes prog) (he : e ∈ lhs) :
    .expr e ∈ sourceNodes prog :=
  below hmem (List.mem_cons_of_mem _ (List.mem_append_left _ (mem_inspectExprs he)))

theorem rhs_mem {lhs rhs : List Expr} {tok : AssignTok} {e : Expr}
    (hmem : .stmt (.assign lhs tok rhs) ∈ sourceNodes prog) (he : e ∈ rhs) :
    .expr e ∈ sourceNodes prog :=
  below hmem (List.mem_cons_of_mem _ (List.mem_append_right _ (mem_inspectExprs he)))

theorem ifs_mem {pos : Pos} {init : Option Stmt} {cond : Expr} {body : List Stmt}
    {els : Option Stmt} (hmem : .stmt (.ifs pos init cond body els) ∈ sourceNodes prog) :
    .expr cond ∈ sourceNodes prog ∧ (∀ s ∈ body, .stmt s ∈ sourceNodes prog) ∧
      ∀ s, els = some s → .stmt s ∈ sourceNodes prog := by
  refine ⟨below hmem ?_, fun s hs => below hmem ?_, fun s hs => below hmem ?_⟩
  · simp [inspectNode, inspectStmt, self_mem_inspectExpr]
  · simp [inspectNode, inspectStmt, mem_inspectStmts hs]
  · subst hs
    simp [inspectNode, inspectStmt, inspectStmt?, self_mem_inspectStmt]

theorem fors_mem {pos : Pos} {init : Option Stmt} {cond : Option Expr} {post : Option Stmt}
    {body : List Stmt} (hmem : .stmt (.fors pos init cond post body) ∈ sourceNodes prog) :
    (∀ s, init = some s → .stmt s ∈ sourceNodes prog) ∧
      (∀ c, cond = some c → .expr c ∈ sourceNodes prog) ∧
      (∀ s, post = some s → .stmt s ∈ sourceNodes prog) ∧
      ∀ s ∈ body, .stmt s ∈ sourceNodes prog := by
  refine ⟨fun s hs => below hmem ?_, fun c hc => below hmem ?_, fun s hs => below hmem ?_,
    fun s hs => below hmem ?_⟩
  · subst hs
    simp [inspectNode, inspectStmt, inspectStmt?, self_mem_inspectStmt]
  · subst hc
    simp [inspectNode, inspectStmt, inspectExpr?, self_mem_inspectExpr]
  · subst hs
    simp [inspectNode, inspectStmt, inspectStmt?, self_mem_inspectStmt]
  · simp [inspectNode, inspectStmt, mem_inspectStmts hs]

theorem block_mem {pos : Pos} {list : List Stmt}
    (hmem : .stmt (.block pos list) ∈ sourceNodes prog) :
    ∀ s ∈ list, .stmt s ∈ sourceNodes prog :=
  fun _ hs => below hmem (List.mem_cons_of_mem _ (mem_inspectStmts hs))

theorem func_mem {fd : FuncDecl} (hfd : fd ∈ emittedFuncs prog) {n : Node}
    (hn : n ∈ fd.source) : n ∈ sourceNodes prog := List.mem_flatMap.mpr ⟨fd, hfd, hn⟩

theorem body_mem {fd : FuncDecl} (hfd : fd ∈ emittedFuncs prog) {body : Body}
    (hbody : fd.body = some body) : ∀ s ∈ body.list, .stmt s ∈ sourceNodes prog := by
  intro s hs
  refine func_mem hfd (List.mem_append_left _ ?_)
  rw [FuncDecl.nodes, hbody]
  exact mem_inspectStmts hs

theorem fieldType_mem {fd : FuncDecl} (hfd : fd ∈ emittedFuncs prog) {field : Field}
    (hfield : field ∈ fieldsOf fd.params ++ fieldsOf fd.results) :
    .expr field.type ∈ sourceNodes prog := by
  refine func_mem hfd (List.mem_append_right _ (List.mem_flatMap.mpr ⟨field, hfield, ?_⟩))
  exact List.mem_append_right _ (self_mem_inspectExpr field.type)

end

/-! ## The recognisers -/

/-- A method of the renamed program. -/
def Method.moved (move : Pos → Pos) (m : Method) : Method := { m with recv := m.recv.moved move }

/-- A part of an argument list in the renamed program. -/
def ArgPart.moved (move : Pos → Pos) : ArgPart → ArgPart
  | .addr id => .addr (id.moved move)
  | part => part

/-- A form of the renamed program. -/
def CallForm.moved (move : Pos → Pos) : CallForm → CallForm
  | .helper w parts => .helper w (parts.map (ArgPart.moved move))
  | form => form

theorem allArgs_moved (move : Pos → Pos) (nargs : Nat) :
    (allArgs nargs).map (ArgPart.moved move) = allArgs nargs := by
  rw [allArgs, List.map_map]
  rfl

/-- The forms of the methods that take no other table. -/
theorem form_moved (move : Pos → Pos) {form : Method → Option CallForm}
    (hform : form ∈ [ringbufForm, queueForm, progArrayForm, perfEventArrayForm, redirectForm]) :
    form ∘ Method.moved move = Option.map (CallForm.moved move) ∘ form := by
  funext ⟨recv, sel, type, targs⟩
  simp only [List.mem_cons, List.not_mem_nil, or_false] at hform
  rcases hform with rfl | rfl | rfl | rfl | rfl
  all_goals
    simp only [Function.comp_apply, Method.moved]
    first
      | unfold ringbufForm
      | unfold queueForm
      | unfold progArrayForm
      | unfold perfEventArrayForm
      | unfold redirectForm
    dsimp only
    split_ifs <;> rfl

theorem storageForm_moved (move : Pos → Pos) :
    storageForm ∘ Prod.map (Method.moved move) (fun t => t) =
      Option.map (CallForm.moved move) ∘ storageForm := by
  funext ⟨⟨recv, sel, type, targs⟩, valType, getFn, deleteFn⟩
  simp only [Function.comp_apply, Method.moved, Prod.map]
  unfold storageForm
  dsimp only
  split_ifs <;> rfl

theorem mapForm_moved (move : Pos → Pos) (nargs : Nat) :
    mapForm nargs ∘ Prod.map (Method.moved move) (fun t => t) =
      CallForm.moved move ∘ mapForm nargs := by
  funext m
  simp only [Function.comp_apply, mapForm, Method.moved, Prod.map, CallForm.moved,
    List.map_append, List.map_cons, allArgs_moved]
  split_ifs <;> rfl

theorem bpfForm_moved (move : Pos → Pos) (nargs : Nat) (w : Text) :
    (bpfForm nargs w).moved move = bpfForm nargs w := by
  unfold bpfForm
  split_ifs
  all_goals simp only [CallForm.moved, List.map_cons, List.map_nil, ArgPart.moved,
    allArgs_moved]

section

variable {tables : UnicodeTables} {ren : Ident → Text} {move : Pos → Pos} {prog prog' : Program}
  {id : Ident} {p : Ident × Text}

/-- A package is no receiver. -/
theorem methodOf_package {pkg sel : Ident} {view : GoType → GoType}
    (hview : ∀ kind, view (.basic kind) = .basic kind)
    (htype : prog.info.typeOf (.ident pkg) = none ∨
      prog.info.typeOf (.ident pkg) = some (.basic .invalid)) :
    methodOf prog view (.selector (.ident pkg) sel) = none := by
  unfold methodOf
  dsimp only
  rcases htype with htype | htype
  · rw [htype]
    rfl
  · rw [htype, Option.map_some, hview]

theorem importOf_eq_some : importOf prog id = some p ↔
    ∃ t, prog.info.uses id = some ⟨p.1, .pkgName p.2, t⟩ := by
  unfold importOf
  split
  · rename_i d path t huses
    rw [huses]
    constructor
    · intro h
      cases h
      exact ⟨t, rfl⟩
    · rintro ⟨t', h⟩
      cases h
      rfl
  · rename_i hno
    constructor
    · intro h
      cases h
    · rintro ⟨t, h⟩
      exact absurd h (hno p.1 p.2 t)

theorem name_renamed (hid : importOf prog id = none) :
    ((importRenaming prog ren move).ident id).name = id.name := by
  simp only [importRenaming, hid, Option.map_none, Option.getD_none]

theorem name_import (hid : importOf prog id = some p) :
    ((importRenaming prog ren move).ident id).name = ren p.1 := by
  simp only [importRenaming, hid, Option.map_some, Option.getD_some]

theorem isBpfPackage_eq (prog : Program) (id : Ident) :
    isBpfPackage prog (.ident id) = (importOf prog id).any fun p => p.2 == bpfPkgPath := by
  rw [isBpfPackage, importOf]
  cases prog.info.uses id with
  | none => rfl
  | some obj =>
      obtain ⟨d, kind, t⟩ := obj
      cases kind <;> rfl

variable (h : ImportsRenamed tables ren move prog prog')

include h

theorem importOf_renamed (hid : .expr (.ident id) ∈ sourceNodes prog) :
    importOf prog' ((importRenaming prog ren move).ident id) =
      (importOf prog id).map fun p => (⟨ren p.1, move p.1.pos⟩, p.2) := by
  unfold importOf
  rw [h.uses id hid]
  cases prog.info.uses id with
  | none => rfl
  | some obj =>
      obtain ⟨d, kind, t⟩ := obj
      cases kind <;> rfl

theorem isBpfPackage_renamed {x : Expr} (hx : .expr x ∈ sourceNodes prog) :
    isBpfPackage prog' (x.rename (importRenaming prog ren move)) = isBpfPackage prog x := by
  cases x with
  | ident id =>
      simp only [Expr.rename, isBpfPackage_eq, importOf_renamed h hx, Option.any_map]
  | _ => rfl

/-! ## Methods and functions of the package -/

theorem methodOf_renamed (hfacts : ImportFacts prog) {fn : Expr} {view : GoType → GoType}
    (hview : ∀ kind, view (.basic kind) = .basic kind) (hfn : .expr fn ∈ sourceNodes prog) :
    methodOf prog' view (fn.rename (importRenaming prog ren move)) =
      (methodOf prog view fn).map (Method.moved move) := by
  cases fn with
  | selector x sel =>
      cases x with
      | ident pkg =>
          have htype := h.typeOf (.ident pkg) (operand_mem hfn)
          have hsel := @name_renamed ren move _ _ (hfacts.selected _ _ hfn)
          cases hpkg : importOf prog pkg with
          | some p =>
              have huntyped := hfacts.untyped pkg p hpkg
              rw [methodOf_package hview huntyped, Expr.rename, Expr.rename,
                methodOf_package hview (by rwa [← htype] at huntyped)]
              rfl
          | none =>
              have hrecv : (importRenaming prog ren move).ident pkg = pkg.moved move := by
                rw [Ident.moved, ← @name_renamed ren move _ _ hpkg]
                rfl
              unfold methodOf
              simp only [Expr.rename] at htype ⊢
              rw [htype, hsel, hrecv]
              cases (prog.info.typeOf (.ident pkg)).map view with
              | none => rfl
              | some t =>
                  cases t with
                  | named n targs =>
                      dsimp only
                      split_ifs <;> rfl
                  | _ => rfl
      | _ => rfl
  | _ => rfl

theorem storageMapInfo_renamed (hfacts : ImportFacts prog) {fn : Expr}
    (hfn : .expr fn ∈ sourceNodes prog) :
    storageMapInfo prog' (fn.rename (importRenaming prog ren move)) =
      (storageMapInfo prog fn).map
        (Prod.map (Method.moved move) fun t => t) := by
  unfold storageMapInfo
  rw [methodOf_renamed h hfacts (fun _ => rfl) hfn]
  cases methodOf prog stripPointer fn with
  | none => rfl
  | some m =>
      simp only [Option.map_some, Method.moved]
      split <;> rfl

theorem mapMethodCall_renamed (hfacts : ImportFacts prog) {fn : Expr}
    (hfn : .expr fn ∈ sourceNodes prog) :
    mapMethodCall prog' (fn.rename (importRenaming prog ren move)) =
      (mapMethodCall prog fn).map
        (Prod.map (Method.moved move) fun t => t) := by
  unfold mapMethodCall
  rw [methodOf_renamed h hfacts (fun _ => rfl) hfn]
  cases methodOf prog _ fn with
  | none => rfl
  | some m =>
      simp only [Option.map_some, Method.moved]
      split
      · split_ifs <;> rfl
      · rfl

theorem methodForm_renamed (hfacts : ImportFacts prog) {fn : Expr}
    (hfn : .expr fn ∈ sourceNodes prog) (nargs : Nat) :
    methodForm prog' (fn.rename (importRenaming prog ren move)) nargs =
      (methodForm prog fn nargs).map (CallForm.moved move) := by
  unfold methodForm
  rw [methodOf_renamed h hfacts (fun _ => rfl) hfn, methodOf_renamed h hfacts (fun _ => rfl) hfn,
    storageMapInfo_renamed h hfacts hfn, mapMethodCall_renamed h hfacts hfn]
  have hring := @form_moved move ringbufForm (by simp)
  have hqueue := @form_moved move queueForm (by simp)
  have hprog := @form_moved move progArrayForm (by simp)
  have hperf := @form_moved move perfEventArrayForm (by simp)
  have hredirect := @form_moved move redirectForm (by simp)
  simp only [Option.map_or, Option.bind_map, Option.map_bind, Option.map_map, hring, hqueue, hprog,
    hperf, hredirect, storageForm_moved, mapForm_moved]

theorem bpfConstant_renamed (hfacts : ImportFacts prog) {x : Expr} {sel : Ident}
    (hmem : .expr (.selector x sel) ∈ sourceNodes prog) :
    bpfConstant prog' (x.rename (importRenaming prog ren move))
        ((importRenaming prog ren move).ident sel) = bpfConstant prog x sel := by
  unfold bpfConstant
  rw [isBpfPackage_renamed h (operand_mem hmem), name_renamed (hfacts.selected _ _ hmem)]

theorem bpfFunction_renamed (hfacts : ImportFacts prog) {fn : Expr}
    (hfn : .expr fn ∈ sourceNodes prog) :
    bpfFunction prog' (fn.rename (importRenaming prog ren move)) = bpfFunction prog fn := by
  cases fn with
  | selector x sel =>
      rw [Expr.rename, bpfFunction, bpfFunction, isBpfPackage_renamed h (operand_mem hfn),
        name_renamed (hfacts.selected _ _ hfn)]
  | _ => rfl

omit h in
theorem conversionType_renamed (hfacts : ImportFacts prog) {fn : Expr} {args : List Expr}
    (hmem : .expr (.call fn args) ∈ sourceNodes prog) :
    conversionType (fn.rename (importRenaming prog ren move)) = conversionType fn := by
  cases fn with
  | ident id =>
      rw [Expr.rename, conversionType, conversionType, name_renamed (hfacts.callee _ _ hmem)]
  | _ => rfl

omit h in
theorem isUnsafePointer_renamed (hfacts : ImportFacts prog) {fn : Expr} {args : List Expr}
    (hmem : .expr (.call fn args) ∈ sourceNodes prog)
    (hshows : showsImport prog (.call fn args) = false) :
    isUnsafePointer (fn.rename (importRenaming prog ren move)) = isUnsafePointer fn := by
  cases fn with
  | selector x sel =>
      cases x with
      | ident pkg =>
          have hsel := @name_renamed ren move _ _ (hfacts.selected _ _ (callee_mem hmem))
          rw [Expr.rename, Expr.rename, isUnsafePointer, isUnsafePointer, hsel]
          cases hpkg : importOf prog pkg with
          | none => rw [name_renamed hpkg]
          | some p =>
              have hname : (sel.name == "Pointer".toList) = false := by
                simpa [showsImport, hpkg] using hshows
              rw [hname, Bool.false_and, Bool.false_and]
      | _ => rfl
  | _ => rfl

/-- **The form of a call that is no conversion with `Pointer` does not depend on the names of
the imports.** -/
theorem callForm_renamed (hfacts : ImportFacts prog) {fn : Expr} {args : List Expr}
    (hmem : .expr (.call fn args) ∈ sourceNodes prog)
    (hshows : showsImport prog (.call fn args) = false) (nargs : Nat) :
    callForm prog' (fn.rename (importRenaming prog ren move)) nargs =
      (callForm prog fn nargs).moved move := by
  have hfn := callee_mem hmem
  unfold callForm
  rw [conversionType_renamed hfacts hmem, isUnsafePointer_renamed hfacts hmem hshows,
    methodForm_renamed h hfacts hfn, bpfFunction_renamed h hfacts hfn]
  cases conversionType fn with
  | some cType => rfl
  | none =>
      dsimp only
      split_ifs
      · rfl
      · cases methodForm prog fn nargs with
        | some form => rfl
        | none =>
            cases bpfFunction prog fn with
            | some w => exact (bpfForm_moved _ nargs w).symm
            | none => rfl

end

/-! ## Selectors on a package -/

section

variable {tables : UnicodeTables} {prog : Program} {pkg sel : Ident} {p : Ident × Text}

theorem isBpfPackage_other (hpkg : importOf prog pkg = some p) (hp : p.2 ≠ bpfPkgPath) :
    isBpfPackage prog (.ident pkg) = false := by
  rw [isBpfPackage_eq, hpkg, Option.any_some, beq_eq_false_iff_ne]
  exact hp

/-- A call of a function of another package than `bpf` is taken for a conversion with
`unsafe.Pointer`, or printed as it stands. -/
theorem callForm_package (hpkg : importOf prog pkg = some p) (hp : p.2 ≠ bpfPkgPath)
    (htype : prog.info.typeOf (.ident pkg) = none ∨
      prog.info.typeOf (.ident pkg) = some (.basic .invalid)) (nargs : Nat) :
    callForm prog (.selector (.ident pkg) sel) nargs =
      if isUnsafePointer (.selector (.ident pkg) sel) then .bare else .user := by
  have hid : methodOf prog (fun t => t) (.selector (.ident pkg) sel) = none :=
    methodOf_package (fun _ => rfl) htype
  have hstrip : methodOf prog stripPointer (.selector (.ident pkg) sel) = none :=
    methodOf_package (fun _ => rfl) htype
  have hmethod : methodForm prog (.selector (.ident pkg) sel) nargs = none := by
    unfold methodForm storageMapInfo mapMethodCall
    rw [hstrip, show methodOf prog id (.selector (.ident pkg) sel) = none from hid]
    rfl
  have hbpf : bpfFunction prog (.selector (.ident pkg) sel) = none := by
    rw [bpfFunction, isBpfPackage_other hpkg hp]
    rfl
  unfold callForm
  rw [hmethod, hbpf]
  rfl

theorem callSupported_package (hpkg : importOf prog pkg = some p) (hp : p.2 ≠ bpfPkgPath)
    (htype : prog.info.typeOf (.ident pkg) = none ∨
      prog.info.typeOf (.ident pkg) = some (.basic .invalid)) (b : Bool) :
    callSupported prog (.selector (.ident pkg) sel) true [b] = b := by
  have hid : methodOf prog (fun t => t) (.selector (.ident pkg) sel) = none :=
    methodOf_package (fun _ => rfl) htype
  have hstrip : methodOf prog stripPointer (.selector (.ident pkg) sel) = none :=
    methodOf_package (fun _ => rfl) htype
  have hnone : methodOf prog id (.selector (.ident pkg) sel) = none := hid
  have hbpf : bpfFunction prog (.selector (.ident pkg) sel) = none := by
    rw [bpfFunction, isBpfPackage_other hpkg hp]
    rfl
  unfold callSupported unsafePointerRule ringbufRule queueLikeRule progArrayRule
    perfEventArrayRule storageRule redirectRule mapRule bpfRule storageMapInfo mapMethodCall
  rw [hnone, hstrip, hbpf]
  cases isUnsafePointer (.selector (.ident pkg) sel) <;> cases b <;> rfl

/-- No selector is a chain of kernel reads. -/
theorem selectorSupported_eq (x : Expr) (text base : Bool) :
    selectorSupported prog x sel text base = ((bpfConstant prog x sel).isSome || text) := by
  unfold selectorSupported coreReadFields
  rw [kernelStructType_eq]

end

/-! ## The same constructs are supported -/

section

variable {tables : UnicodeTables} {ren : Ident → Text} {move : Pos → Pos} {prog prog' : Program}
  (h : ImportsRenamed tables ren move prog prog')

include h


theorem callSupported_renamed (hfacts : ImportFacts prog) {fn : Expr} {args : List Expr}
    (hmem : .expr (.call fn args) ∈ sourceNodes prog)
    (hshows : showsImport prog (.call fn args) = false) (fnOk : Bool) (oks : List Bool) :
    callSupported prog' (fn.rename (importRenaming prog ren move)) fnOk oks =
      callSupported prog fn fnOk oks := by
  have hfn := callee_mem hmem
  have hmethod : ∀ {view : GoType → GoType}, (∀ kind, view (.basic kind) = .basic kind) → _ :=
    fun hview => methodOf_renamed h hfacts hview hfn
  have hring : ringbufRule prog' (fn.rename (importRenaming prog ren move)) =
      ringbufRule prog fn := by
    unfold ringbufRule
    rw [hmethod fun _ => rfl]
    cases methodOf prog _ fn <;> rfl
  have hqueue : queueLikeRule prog' (fn.rename (importRenaming prog ren move)) =
      queueLikeRule prog fn := by
    unfold queueLikeRule
    rw [hmethod fun _ => rfl]
    cases methodOf prog _ fn <;> rfl
  have hprogArray : progArrayRule prog' (fn.rename (importRenaming prog ren move)) =
      progArrayRule prog fn := by
    unfold progArrayRule
    rw [hmethod fun _ => rfl]
    cases methodOf prog _ fn <;> rfl
  have hperf : perfEventArrayRule prog' (fn.rename (importRenaming prog ren move)) =
      perfEventArrayRule prog fn := by
    unfold perfEventArrayRule
    rw [hmethod fun _ => rfl]
    cases methodOf prog _ fn <;> rfl
  have hstorage : storageRule prog' (fn.rename (importRenaming prog ren move)) =
      storageRule prog fn := by
    unfold storageRule
    rw [storageMapInfo_renamed h hfacts hfn]
    cases storageMapInfo prog fn <;> rfl
  have hredirect : redirectRule prog' (fn.rename (importRenaming prog ren move)) =
      redirectRule prog fn := by
    unfold redirectRule
    rw [hmethod fun _ => rfl]
    cases methodOf prog _ fn <;> rfl
  have hmap : mapRule prog' (fn.rename (importRenaming prog ren move)) = mapRule prog fn := by
    unfold mapRule
    rw [mapMethodCall_renamed h hfacts hfn]
    cases mapMethodCall prog fn <;> rfl
  have hconversion : conversionRule (fn.rename (importRenaming prog ren move)) =
      conversionRule fn := by
    rw [conversionRule, conversionType_renamed hfacts hmem, conversionRule]
  have hpointer : unsafePointerRule (fn.rename (importRenaming prog ren move)) =
      unsafePointerRule fn := by
    rw [unsafePointerRule, isUnsafePointer_renamed hfacts hmem hshows, unsafePointerRule]
  have hbpf : bpfRule prog' (fn.rename (importRenaming prog ren move)) = bpfRule prog fn := by
    rw [bpfRule, bpfFunction_renamed h hfacts hfn, bpfRule]
  rw [callSupported, hconversion, hpointer, hring, hqueue, hprogArray, hperf, hstorage,
    hredirect, hmap, hbpf, callSupported]

end

section

variable {tables : UnicodeTables} {ren : Ident → Text} {move : Pos → Pos} {prog prog' : Program}

theorem showsImport_call {fn : Expr} {args : List Expr}
    (hshows : showsImport prog (.call fn args) = true) :
    ∃ pkg sel p, fn = .selector (.ident pkg) sel ∧ importOf prog pkg = some p ∧
      sel.name = ("Pointer" : Text) := by
  cases fn with
  | selector x sel =>
      cases x with
      | ident pkg =>
          rw [showsImport, Bool.and_eq_true, beq_iff_eq, Option.isSome_iff_exists] at hshows
          obtain ⟨⟨p, hp⟩, hsel⟩ := hshows
          exact ⟨pkg, sel, p, rfl, hp, hsel⟩
      | _ => cases hshows
  | _ => cases hshows

mutual
/-- **An expression is supported whatever the imports are called.** -/
theorem nodeSupported_renamed (h : ImportsRenamed tables ren move prog prog')
    (hfacts : ImportFacts prog) : ∀ e : Expr,
    .expr e ∈ sourceNodes prog →
    nodeSupported prog' (e.rename (importRenaming prog ren move)) = nodeSupported prog e
  | .basicLit _ _ _, _ => rfl
  | .ident _, _ => rfl
  | .selector x sel, hmem => by
      rw [Expr.rename, nodeSupported, nodeSupported,
        nodeSupported_renamed h hfacts x (operand_mem hmem)]
      simp only [selectorSupported_eq, bpfConstant_renamed h hfacts hmem]
  | .unary _ _ x, hmem => by
      have hx : Node.expr x ∈ sourceNodes prog :=
        below hmem (List.mem_cons_of_mem _ (self_mem_inspectExpr x))
      rw [Expr.rename, nodeSupported, nodeSupported, nodeSupported_renamed h hfacts x hx]
  | .binary x _ y, hmem => by
      have hx : Node.expr x ∈ sourceNodes prog :=
        below hmem (List.mem_cons_of_mem _ (List.mem_append_left _ (self_mem_inspectExpr x)))
      have hy : Node.expr y ∈ sourceNodes prog :=
        below hmem (List.mem_cons_of_mem _ (List.mem_append_right _ (self_mem_inspectExpr y)))
      rw [Expr.rename, nodeSupported, nodeSupported, nodeSupported_renamed h hfacts x hx,
        nodeSupported_renamed h hfacts y hy]
  | .call fn args, hmem => by
      have hfn := nodeSupported_renamed h hfacts fn (callee_mem hmem)
      have hargs := nodesSupported_renamed h hfacts args fun arg harg => arg_mem hmem harg
      rw [Expr.rename, nodeSupported, nodeSupported, hfn, hargs]
      cases hshows : showsImport prog (.call fn args) with
      | false => rw [callSupported_renamed h hfacts hmem hshows]
      | true =>
          obtain ⟨pkg, sel, p, rfl, hpkg, hsel⟩ := showsImport_call hshows
          obtain ⟨hp, hlen⟩ := hfacts.pointer pkg sel args p hmem hsel hpkg
          obtain ⟨arg, rfl⟩ := List.length_eq_one_iff.mp hlen
          have hmemPkg := operand_mem (callee_mem hmem)
          have htype := hfacts.untyped pkg p hpkg
          have htype' := htype
          rw [← h.typeOf _ hmemPkg] at htype'
          have hpkg' := importOf_renamed h hmemPkg
          rw [hpkg, Option.map_some] at hpkg'
          have hok : (nodeSupported prog (.selector (.ident pkg) sel)).text = true := by
            rw [nodeSupported, selectorSupported_eq]
            simp [nodeSupported, Checked.plain]
          rw [hok, nodesSupported, nodesSupported, callSupported_package hpkg hp htype]
          rw [Expr.rename, Expr.rename, callSupported_package hpkg' hp htype']
  | .paren _ x, hmem => by
      have hx : Node.expr x ∈ sourceNodes prog :=
        below hmem (List.mem_cons_of_mem _ (self_mem_inspectExpr x))
      rw [Expr.rename, nodeSupported, nodeSupported, nodeSupported_renamed h hfacts x hx]
  | .index x i, hmem => by
      have hx : Node.expr x ∈ sourceNodes prog :=
        below hmem (List.mem_cons_of_mem _ (List.mem_append_left _ (self_mem_inspectExpr x)))
      have hi : Node.expr i ∈ sourceNodes prog :=
        below hmem (List.mem_cons_of_mem _ (List.mem_append_right _ (self_mem_inspectExpr i)))
      rw [Expr.rename, nodeSupported, nodeSupported, nodeSupported_renamed h hfacts x hx,
        nodeSupported_renamed h hfacts i hi]
  | .star _ x, hmem => by
      have hx : Node.expr x ∈ sourceNodes prog :=
        below hmem (List.mem_cons_of_mem _ (self_mem_inspectExpr x))
      rw [Expr.rename, nodeSupported, nodeSupported, nodeSupported_renamed h hfacts x hx]
  | .other _ _ _, _ => rfl

theorem nodesSupported_renamed (h : ImportsRenamed tables ren move prog prog')
    (hfacts : ImportFacts prog) : ∀ es : List Expr,
    (∀ e ∈ es, .expr e ∈ sourceNodes prog) →
    nodesSupported prog' (renameExprs (importRenaming prog ren move) es) = nodesSupported prog es
  | [], _ => rfl
  | e :: rest, hmem => by
      rw [renameExprs, nodesSupported, nodesSupported,
        nodeSupported_renamed h hfacts e (hmem e List.mem_cons_self),
        nodesSupported_renamed h hfacts rest fun e' he' => hmem e' (List.mem_cons_of_mem _ he')]
end

end

/-! ## Statements -/

section

variable {tables : UnicodeTables} {ren : Ident → Text} {move : Pos → Pos} {prog prog' : Program}

theorem identOf_renamed (f : Renaming) (e : Expr) :
    identOf (e.rename f) = (identOf e).map f.ident := by
  cases e <;> rfl

theorem exprSupported_renamed (h : ImportsRenamed tables ren move prog prog')
    (hfacts : ImportFacts prog) {e : Expr} (hmem : .expr e ∈ sourceNodes prog) :
    exprSupported prog' (e.rename (importRenaming prog ren move)) = exprSupported prog e := by
  rw [exprSupported, nodeSupported_renamed h hfacts e hmem, exprSupported]

variable (h : ImportsRenamed tables ren move prog prog')

include h

theorem typeOfIdent_renamed {id : Ident} (hmem : .expr (.ident id) ∈ sourceNodes prog) :
    typeOfIdent prog' ((importRenaming prog ren move).ident id) = typeOfIdent prog id :=
  h.typeOf (.ident id) hmem

theorem hasCType_renamed {id : Ident} (hmem : .expr (.ident id) ∈ sourceNodes prog) :
    hasCType prog' ((importRenaming prog ren move).ident id) = hasCType prog id := by
  rw [hasCType, typeOfIdent_renamed h hmem, hasCType]

theorem mapLookupCall_renamed (hfacts : ImportFacts prog) {fn : Expr}
    (hfn : .expr fn ∈ sourceNodes prog) :
    mapLookupCall prog' (fn.rename (importRenaming prog ren move)) =
      (mapLookupCall prog fn).map (Prod.map (Ident.moved move) id) := by
  unfold mapLookupCall
  rw [mapMethodCall_renamed h hfacts hfn]
  cases mapMethodCall prog fn with
  | none => rfl
  | some m =>
      obtain ⟨⟨recv, sel, type, targs⟩, valType, helper⟩ := m
      simp only [Option.map_some, Prod.map, Method.moved]
      split_ifs <;> rfl

theorem ringbufReserveCall_renamed (hfacts : ImportFacts prog) {fn : Expr}
    (hfn : .expr fn ∈ sourceNodes prog) :
    ringbufReserveCall prog' (fn.rename (importRenaming prog ren move)) =
      (ringbufReserveCall prog fn).map (Prod.map (Ident.moved move) id) := by
  unfold ringbufReserveCall
  rw [methodOf_renamed h hfacts (fun _ => rfl) hfn]
  cases methodOf prog _ fn with
  | none => rfl
  | some m =>
      obtain ⟨recv, sel, type, targs⟩ := m
      simp only [Option.map_some, Method.moved]
      split
      · split_ifs <;> rfl
      · rfl

theorem storageGetCall_renamed (hfacts : ImportFacts prog) {fn : Expr}
    (hfn : .expr fn ∈ sourceNodes prog) :
    storageGetCall prog' (fn.rename (importRenaming prog ren move)) =
      (storageGetCall prog fn).map (Prod.map (Ident.moved move) id) := by
  unfold storageGetCall
  rw [storageMapInfo_renamed h hfacts hfn]
  cases storageMapInfo prog fn with
  | none => rfl
  | some m =>
      obtain ⟨⟨recv, sel, type, targs⟩, valType, getFn, deleteFn⟩ := m
      simp only [Option.map_some, Prod.map, Method.moved]
      split_ifs <;> rfl

theorem soleSupported_renamed (hfacts : ImportFacts prog) {args : List Expr}
    (hargs : ∀ e ∈ args, .expr e ∈ sourceNodes prog) :
    soleSupported prog' (renameExprs (importRenaming prog ren move) args) =
      soleSupported prog args := by
  rcases args with _ | ⟨a, _ | ⟨b, rest⟩⟩
  · rfl
  · exact exprSupported_renamed h hfacts (hargs a List.mem_cons_self)
  · rfl

theorem commaOkSupported_renamed (hfacts : ImportFacts prog) {v ok rhs : Expr}
    (hmem : .expr rhs ∈ sourceNodes prog) :
    commaOkSupported prog' (v.rename (importRenaming prog ren move))
        (ok.rename (importRenaming prog ren move)) (rhs.rename (importRenaming prog ren move)) =
      commaOkSupported prog v ok rhs := by
  cases rhs with
  | call fn args =>
      have hfn := callee_mem hmem
      have hargs := @soleSupported_renamed _ _ _ _ _ h hfacts args fun arg harg => arg_mem hmem harg
      have hcall : commaOkCallSupported prog' (fn.rename (importRenaming prog ren move))
          (renameExprs (importRenaming prog ren move) args) =
          commaOkCallSupported prog fn args := by
        unfold commaOkCallSupported
        rw [mapLookupCall_renamed h hfacts hfn, ringbufReserveCall_renamed h hfacts hfn,
          storageGetCall_renamed h hfacts hfn, hargs]
        cases mapLookupCall prog fn with
        | some m => rfl
        | none =>
            cases ringbufReserveCall prog fn with
            | some m => rfl
            | none => cases storageGetCall prog fn <;> rfl
      rw [Expr.rename, commaOkSupported, commaOkSupported, hcall, identOf_renamed,
        identOf_renamed, Option.isSome_map, Option.isSome_map]
  | _ => rfl

theorem definedSupported_renamed {l : Expr} (hmem : .expr l ∈ sourceNodes prog) :
    definedSupported prog' (l.rename (importRenaming prog ren move)) = definedSupported prog l := by
  cases l with
  | ident id => exact hasCType_renamed h hmem
  | _ => rfl

theorem assignSupported_renamed (hfacts : ImportFacts prog) {lhs rhs : List Expr}
    {tok : AssignTok} (hlhs : ∀ e ∈ lhs, .expr e ∈ sourceNodes prog)
    (hrhs : ∀ e ∈ rhs, .expr e ∈ sourceNodes prog) :
    assignSupported prog' (renameExprs (importRenaming prog ren move) lhs) tok
        (renameExprs (importRenaming prog ren move) rhs) = assignSupported prog lhs tok rhs := by
  rcases lhs with _ | ⟨a, _ | ⟨b, _ | ⟨c, lhs⟩⟩⟩ <;> rcases rhs with _ | ⟨r, _ | ⟨r', rhs⟩⟩ <;>
    try rfl
  · have ha := hlhs a List.mem_cons_self
    have hr := hrhs r List.mem_cons_self
    simp only [renameExprs, assignSupported, exprSupported_renamed h hfacts ha,
      exprSupported_renamed h hfacts hr, definedSupported_renamed h ha]
  · have hr := hrhs r List.mem_cons_self
    simp only [renameExprs, assignSupported, commaOkSupported_renamed h hfacts hr]

theorem clauseSupported_renamed (hfacts : ImportFacts prog) {s : Stmt}
    (hmem : .stmt s ∈ sourceNodes prog) :
    clauseSupported prog' (s.rename (importRenaming prog ren move)) = clauseSupported prog s := by
  cases s with
  | assign lhs tok rhs =>
      rcases lhs with _ | ⟨l, _ | ⟨l', lhs⟩⟩ <;> rcases rhs with _ | ⟨r, _ | ⟨r', rhs⟩⟩ <;> try rfl
      have hl := lhs_mem hmem (List.mem_singleton_self l)
      have hr := rhs_mem hmem (List.mem_singleton_self r)
      simp only [Stmt.rename, renameExprs, clauseSupported, exprSupported_renamed h hfacts hl,
        exprSupported_renamed h hfacts hr, definedSupported_renamed h hl]
  | incDec x inc =>
      exact exprSupported_renamed h hfacts
        (below hmem (List.mem_cons_of_mem _ (self_mem_inspectExpr x)))
  | _ => rfl

theorem specSupported_renamed (hfacts : ImportFacts prog) {ids : List Ident} {values : List Expr}
    (hids : ∀ id ∈ ids, .expr (.ident id) ∈ sourceNodes prog)
    (hvalues : ∀ e ∈ values, .expr e ∈ sourceNodes prog) :
    specSupported prog' (ids.map (importRenaming prog ren move).ident)
        (values.map (Expr.rename (importRenaming prog ren move))) =
      specSupported prog ids values := by
  induction ids generalizing values with
  | nil => rfl
  | cons id ids ih =>
      obtain ⟨hid, hids⟩ := List.forall_mem_cons.mp hids
      have htail := ih hids fun e he => hvalues e (List.mem_of_mem_tail he)
      rw [List.map_tail] at htail
      rw [List.map_cons, specSupported, specSupported, htail, hasCType_renamed h hid,
        List.head?_map]
      cases values with
      | nil => rfl
      | cons v values =>
          rw [List.head?_cons, Option.map_some, Option.all_some, Option.all_some,
            exprSupported_renamed h hfacts (hvalues v List.mem_cons_self)]

theorem specsSupported_renamed (hfacts : ImportFacts prog) {specs : List ValueSpec}
    (hmem : ∀ nd ∈ inspectSpecs specs, nd ∈ sourceNodes prog) :
    ((renameSpecs (importRenaming prog ren move) specs).all fun spec =>
        specSupported prog' spec.names spec.values) =
      specs.all fun spec => specSupported prog spec.names spec.values := by
  rw [renameSpecs_eq, List.all_map, Bool.eq_iff_iff, List.all_eq_true, List.all_eq_true]
  refine forall₂_congr fun spec hspec => ?_
  rw [Function.comp_apply, names_rename, values_rename, specSupported_renamed h hfacts
    (fun id hid => hmem _ (mem_inspectSpecs hspec hid))
    (fun e he => hmem _ (mem_inspectSpecs_of_value hspec he))]

theorem resultsSupported_renamed (hfacts : ImportFacts prog) {results : List Expr}
    (hmem : ∀ e ∈ results, .expr e ∈ sourceNodes prog) :
    resultsSupported prog' (renameExprs (importRenaming prog ren move) results) =
      resultsSupported prog results := by
  rcases results with _ | ⟨x, _ | ⟨y, rest⟩⟩
  · rfl
  · exact exprSupported_renamed h hfacts (hmem x List.mem_cons_self)
  · rfl

end

section

variable {tables : UnicodeTables} {ren : Ident → Text} {move : Pos → Pos} {prog prog' : Program}

mutual
/-- **A statement is supported whatever the imports are called.** -/
theorem stmtSupported_renamed (h : ImportsRenamed tables ren move prog prog')
    (hfacts : ImportFacts prog) : ∀ s : Stmt, .stmt s ∈ sourceNodes prog →
    stmtSupported prog' (s.rename (importRenaming prog ren move)) = stmtSupported prog s
  | .decl _ _ specs, hmem => by
      have hspecs := specsSupported_renamed h hfacts fun nd hnd =>
        below hmem (List.mem_cons_of_mem _ hnd)
      rw [Stmt.rename, stmtSupported, stmtSupported, hspecs]
  | .assign lhs tok rhs, hmem =>
      assignSupported_renamed h hfacts (fun _ he => lhs_mem hmem he) fun _ he => rhs_mem hmem he
  | .ifs _ init cond body els, hmem => by
      obtain ⟨hcond, hbody, hels⟩ := ifs_mem hmem
      rw [Stmt.rename, stmtSupported, stmtSupported, exprSupported_renamed h hfacts hcond,
        blockSupported_renamed h hfacts body hbody, elseSupported_renamed h hfacts els hels,
        renameStmt?_eq, Option.isNone_map]
  | .ret _ results, hmem =>
      resultsSupported_renamed h hfacts fun _ he =>
        below hmem (List.mem_cons_of_mem _ (mem_inspectExprs he))
  | .expr x, hmem =>
      exprSupported_renamed h hfacts (below hmem (List.mem_cons_of_mem _ (self_mem_inspectExpr x)))
  | .fors _ init cond post body, hmem => by
      obtain ⟨hinit, hcond, hpost, hbody⟩ := fors_mem hmem
      have hclause : ∀ c : Option Stmt, (∀ s, c = some s → .stmt s ∈ sourceNodes prog) →
          (renameStmt? (importRenaming prog ren move) c).any (clauseSupported prog') =
            c.any (clauseSupported prog) := by
        intro c hc
        cases c with
        | none => rfl
        | some s => exact clauseSupported_renamed h hfacts (hc s rfl)
      have hexpr : (renameExpr? (importRenaming prog ren move) cond).any (exprSupported prog') =
          cond.any (exprSupported prog) := by
        cases cond with
        | none => rfl
        | some c => exact exprSupported_renamed h hfacts (hcond c rfl)
      rw [Stmt.rename, stmtSupported, stmtSupported, hclause init hinit, hexpr,
        hclause post hpost, blockSupported_renamed h hfacts body hbody]
  | .block _ list, hmem => blockSupported_renamed h hfacts list (block_mem hmem)
  | .incDec x _, hmem =>
      exprSupported_renamed h hfacts (below hmem (List.mem_cons_of_mem _ (self_mem_inspectExpr x)))
  | .other _ _ _, _ => rfl

theorem blockSupported_renamed (h : ImportsRenamed tables ren move prog prog')
    (hfacts : ImportFacts prog) : ∀ list : List Stmt, (∀ s ∈ list, .stmt s ∈ sourceNodes prog) →
    blockSupported prog' (renameStmts (importRenaming prog ren move) list) =
      blockSupported prog list
  | [], _ => rfl
  | s :: rest, hmem => by
      obtain ⟨hs, hrest⟩ := List.forall_mem_cons.mp hmem
      rw [renameStmts, blockSupported, blockSupported, stmtSupported_renamed h hfacts s hs,
        blockSupported_renamed h hfacts rest hrest]

theorem elseSupported_renamed (h : ImportsRenamed tables ren move prog prog')
    (hfacts : ImportFacts prog) : ∀ els : Option Stmt,
    (∀ s, els = some s → .stmt s ∈ sourceNodes prog) →
    elseSupported prog' (renameStmt? (importRenaming prog ren move) els) = elseSupported prog els
  | none, _ => rfl
  | some (.ifs _ _ cond body _), hmem => by
      obtain ⟨hcond, hbody, -⟩ := ifs_mem (hmem _ rfl)
      rw [renameStmt?, Stmt.rename, elseSupported, elseSupported,
        exprSupported_renamed h hfacts hcond, blockSupported_renamed h hfacts body hbody]
  | some (.block _ list), hmem => blockSupported_renamed h hfacts list (block_mem (hmem _ rfl))
  | some (.decl _ _ _), _ => rfl
  | some (.assign _ _ _), _ => rfl
  | some (.ret _ _), _ => rfl
  | some (.expr _), _ => rfl
  | some (.fors _ _ _ _ _), _ => rfl
  | some (.incDec _ _), _ => rfl
  | some (.other _ _ _), _ => rfl
end

/-! ## The file -/

theorem fieldsOf_rename (f : Renaming) (fl : Option FieldList) :
    fieldsOf (fl.map (FieldList.rename f)) = (fieldsOf fl).map (Field.rename f) := by
  cases fl <;> rfl

theorem all_of_forall₂ {α β : Type} {R : α → β → Prop} {p : α → Bool} {q : β → Bool}
    {xs : List α} {ys : List β} (h : List.Forall₂ R xs ys)
    (hall : ∀ x ∈ xs, ∀ y, R x y → q y = p x) : ys.all q = xs.all p := by
  induction h with
  | nil => rfl
  | cons hxy _ ih =>
      rw [List.all_cons, List.all_cons, hall _ List.mem_cons_self _ hxy,
        ih fun x hx => hall x (List.mem_cons_of_mem _ hx)]

theorem bodySupported_renamed (h : ImportsRenamed tables ren move prog prog')
    (hfacts : ImportFacts prog) {fd : FuncDecl} (hfd : fd ∈ emittedFuncs prog) :
    bodySupported prog' (fd.rename (importRenaming prog ren move)) = bodySupported prog fd := by
  unfold bodySupported
  cases hbody : fd.body with
  | none => simp [FuncDecl.rename, hbody]
  | some body =>
      have hblock := blockSupported_renamed h hfacts body.list (body_mem hfd hbody)
      simpa [FuncDecl.rename, hbody, Body.rename] using hblock

theorem helperSupported_renamed (h : ImportsRenamed tables ren move prog prog')
    (hfacts : ImportFacts prog) {f f' : HelperFunc} (hf : f.decl ∈ emittedFuncs prog)
    (hdecl : f'.decl = f.decl.rename (importRenaming prog ren move)) :
    helperSupported prog' f' = helperSupported prog f := by
  have hparams : ((fieldsOf f.decl.params).map (Field.rename (importRenaming prog ren move))).all
      (fun field => hasCType? (prog'.info.typeOf field.type)) =
      (fieldsOf f.decl.params).all fun field => hasCType? (prog.info.typeOf field.type) := by
    rw [List.all_map, Bool.eq_iff_iff, List.all_eq_true, List.all_eq_true]
    refine forall₂_congr fun field hfield => ?_
    rw [Function.comp_apply, Field.rename, h.typeOf _ (fieldType_mem hf
      (List.mem_append_left _ hfield))]
  have hresults : returnSupported prog' (f.decl.rename (importRenaming prog ren move)) =
      returnSupported prog f.decl := by
    have htype : ∀ field ∈ fieldsOf f.decl.results,
        prog'.info.typeOf (field.type.rename (importRenaming prog ren move)) =
          prog.info.typeOf field.type :=
      fun field hfield => h.typeOf _ (fieldType_mem hf (List.mem_append_right _ hfield))
    unfold returnSupported
    rw [FuncDecl.rename, fieldsOf_rename]
    rcases hfields : fieldsOf f.decl.results with _ | ⟨r, _ | ⟨r', rest⟩⟩
    · rfl
    · rw [hfields] at htype
      simp [Field.rename, htype r List.mem_cons_self]
    · rfl
  rw [helperSupported, hdecl, hresults, bodySupported_renamed h hfacts hf]
  rw [FuncDecl.rename, fieldsOf_rename, hparams, helperSupported]

theorem programSupported_renamed (h : ImportsRenamed tables ren move prog prog')
    (hfacts : ImportFacts prog) {p p' : ProgramFunc} (hp : p.decl ∈ emittedFuncs prog)
    (hdecl : p'.decl = p.decl.rename (importRenaming prog ren move)) :
    programSupported prog' p' = programSupported prog p := by
  have htype : ∀ field ∈ fieldsOf p.decl.params,
      prog'.info.typeOf (field.type.rename (importRenaming prog ren move)) =
        prog.info.typeOf field.type :=
    fun field hfield => h.typeOf _ (fieldType_mem hp (List.mem_append_left _ hfield))
  unfold programSupported
  rw [hdecl, bodySupported_renamed h hfacts hp]
  rw [FuncDecl.rename]
  rcases hparams : p.decl.params with _ | ⟨pos, _ | ⟨field, _ | ⟨field', rest⟩⟩⟩
  · rfl
  · rfl
  · rw [hparams] at htype
    have hone := htype field List.mem_cons_self
    simp [FieldList.rename, Field.rename, hone]
  · rfl

/-- **`Emit` accepts a program whatever its imports are called.** -/
theorem supported_renamed (h : ImportsRenamed tables ren move prog prog')
    (hfacts : ImportFacts prog) : supported prog' = supported prog := by
  have htypes : prog'.types.all (typeSupported prog') = prog.types.all (typeSupported prog) :=
    all_of_forall₂ h.types fun t _ t' ⟨_, ht⟩ => by
      rw [typeSupported, typeSupported, ht, h.underlying]
  have hmaps : prog'.maps.all mapSupported = prog.maps.all mapSupported :=
    all_of_forall₂ h.maps fun m _ m' ⟨_, hkind, hkey, hval, _⟩ => by
      rw [mapSupported, mapSupported, hkind, hkey, hval]
  have hhelpers : prog'.helpers.all (helperSupported prog') =
      prog.helpers.all (helperSupported prog) :=
    all_of_forall₂ h.helpers fun f hf f' ⟨_, hdecl⟩ =>
      helperSupported_renamed h hfacts (mem_emittedFuncs.mpr (.inl ⟨f, hf, rfl⟩)) hdecl
  have hprograms : prog'.programs.all (programSupported prog') =
      prog.programs.all (programSupported prog) :=
    all_of_forall₂ h.programs fun p hp p' ⟨_, _, hdecl⟩ =>
      programSupported_renamed h hfacts (mem_emittedFuncs.mpr (.inr ⟨p, hp, rfl⟩)) hdecl
  rw [supported, htypes, hmaps, hhelpers, hprograms, supported]

end

end Gobee
