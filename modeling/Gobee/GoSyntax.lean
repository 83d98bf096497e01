/-
# The Go side: syntax trees, types and the parsed program

What `parser.ParseFile` and `go/types` hand to the transpiler, as far as `Validate`,
`Emit` and `WriteBindings` look at it: the expressions and statements of a function
body, resolved types and objects, and the `Program` record of `program.go`.

Expression and statement forms that the emitter has no case for are kept as nodes of
their own kind with their children in source order, because the validator walks into
them.  A node is identified by its position, as a pointer identifies it in `go/ast`.
-/
import Gobee.CToken

namespace Gobee

/-! ## Positions -/

/-- `token.Pos`; `0` is `token.NoPos`. -/
abbrev Pos := Nat

/-- `token.Position`. -/
structure Position where
  filename : Text
  line : Nat
  column : Nat
  deriving DecidableEq, Repr

/-- Decimal digits of a number. -/
def itoa (n : Nat) : Text := Nat.toDigits 10 n

/-- `token.Position.String`. -/
def Position.string (p : Position) : Text :=
  let s :=
    if 0 < p.line then
      p.filename ++ (if p.filename = [] then [] else [':']) ++ itoa p.line ++
        (if p.column = 0 then [] else ':' :: itoa p.column)
    else p.filename
  if s = [] then ['-'] else s

/-! ## Expressions and statements -/

/-- `ast.Ident`. -/
structure Ident where
  name : Text
  pos : Pos
  deriving DecidableEq, Repr

/-- The kinds of `ast.BasicLit`. -/
inductive LitKind where
  | int | float | imag | char | string
  deriving DecidableEq, Repr

/-- The binary operators of Go. -/
inductive BinaryOp where
  | add | sub | mul | quo | rem | and | or | xor | shl | shr | andNot
  | land | lor | eql | neq | lss | leq | gtr | geq
  deriving DecidableEq, Repr

/-- `token.Token.String` of a binary operator. -/
def BinaryOp.string : BinaryOp → Text
  | .add => "+" | .sub => "-" | .mul => "*" | .quo => "/" | .rem => "%"
  | .and => "&" | .or => "|" | .xor => "^" | .shl => "<<" | .shr => ">>" | .andNot => "&^"
  | .land => "&&" | .lor => "||" | .eql => "==" | .neq => "!=" | .lss => "<" | .leq => "<="
  | .gtr => ">" | .geq => ">="

/-- The unary operators of Go (`*x` is a node of its own). -/
inductive UnaryOp where
  | add | sub | not | xor | and | arrow | tilde
  deriving DecidableEq, Repr

/-- `token.Token.String` of a unary operator. -/
def UnaryOp.string : UnaryOp → Text
  | .add => "+" | .sub => "-" | .not => "!" | .xor => "^" | .and => "&" | .arrow => "<-"
  | .tilde => "~"

/-- The tokens of an assignment. -/
inductive AssignTok where
  | define | assign
  | add | sub | mul | quo | rem | and | or | xor | shl | shr | andNot
  deriving DecidableEq, Repr

/-- `token.Token.String` of an assignment token. -/
def AssignTok.string : AssignTok → Text
  | .define => ":=" | .assign => "=" | .add => "+=" | .sub => "-=" | .mul => "*="
  | .quo => "/=" | .rem => "%=" | .and => "&=" | .or => "|=" | .xor => "^=" | .shl => "<<="
  | .shr => ">>=" | .andNot => "&^="

/-- Expression nodes the emitter has no case for. -/
inductive ExprKind where
  | compositeLit | keyValue | funcLit | slice | typeAssert | indexList | ellipsis
  /-- `[N]T` if `sized`, `[]T` otherwise -/
  | arrayType (sized : Bool)
  | structType | funcType | interfaceType | mapType | chanType | bad
  deriving DecidableEq, Repr

/-- `%T` of such a node. -/
def ExprKind.goType : ExprKind → Text
  | .compositeLit => "*ast.CompositeLit" | .keyValue => "*ast.KeyValueExpr"
  | .funcLit => "*ast.FuncLit" | .slice => "*ast.SliceExpr"
  | .typeAssert => "*ast.TypeAssertExpr" | .indexList => "*ast.IndexListExpr"
  | .ellipsis => "*ast.Ellipsis" | .arrayType _ => "*ast.ArrayType"
  | .structType => "*ast.StructType" | .funcType => "*ast.FuncType"
  | .interfaceType => "*ast.InterfaceType" | .mapType => "*ast.MapType"
  | .chanType => "*ast.ChanType" | .bad => "*ast.BadExpr"

/-- Statement nodes the emitter has no case for. -/
inductive StmtKind where
  | range | switch | typeSwitch | go | defer | select | send
  | branch | labeled | empty | caseClause | commClause | bad
  deriving DecidableEq, Repr

/-- `%T` of such a node. -/
def StmtKind.goType : StmtKind → Text
  | .range => "*ast.RangeStmt" | .switch => "*ast.SwitchStmt"
  | .typeSwitch => "*ast.TypeSwitchStmt" | .go => "*ast.GoStmt" | .defer => "*ast.DeferStmt"
  | .select => "*ast.SelectStmt" | .send => "*ast.SendStmt" | .branch => "*ast.BranchStmt"
  | .labeled => "*ast.LabeledStmt" | .empty => "*ast.EmptyStmt"
  | .caseClause => "*ast.CaseClause" | .commClause => "*ast.CommClause"
  | .bad => "*ast.BadStmt"

/-- The keyword of a declaration inside a function body. -/
inductive DeclTok where
  | var | const | type
  deriving DecidableEq, Repr

mutual
/-- `ast.Expr`. -/
inductive Expr where
  | basicLit (pos : Pos) (kind : LitKind) (value : Text)
  | ident (id : Ident)
  | selector (x : Expr) (sel : Ident)
  | unary (pos : Pos) (op : UnaryOp) (x : Expr)
  | binary (x : Expr) (op : BinaryOp) (y : Expr)
  | call (fn : Expr) (args : List Expr)
  | paren (pos : Pos) (x : Expr)
  | index (x i : Expr)
  | star (pos : Pos) (x : Expr)
  | other (kind : ExprKind) (pos : Pos) (children : List Node)

/-- `ast.ValueSpec`; a local `ast.TypeSpec` is one with its name and its type. -/
inductive ValueSpec where
  | mk (names : List Ident) (type : Option Expr) (values : List Expr)

/-- `ast.Stmt`; an `ast.BlockStmt` below another statement is its list of statements. -/
inductive Stmt where
  | decl (pos : Pos) (tok : DeclTok) (specs : List ValueSpec)
  | assign (lhs : List Expr) (tok : AssignTok) (rhs : List Expr)
  | ifs (pos : Pos) (init : Option Stmt) (cond : Expr) (body : List Stmt) (els : Option Stmt)
  | ret (pos : Pos) (results : List Expr)
  | expr (x : Expr)
  | fors (pos : Pos) (init : Option Stmt) (cond : Option Expr) (post : Option Stmt)
      (body : List Stmt)
  | block (pos : Pos) (list : List Stmt)
  | incDec (x : Expr) (inc : Bool)
  | other (kind : StmtKind) (pos : Pos) (children : List Node)

/-- A child of a node that the emitter has no case for. -/
inductive Node where
  | expr (x : Expr)
  | stmt (s : Stmt)
end

namespace ValueSpec

/-- The declared names. -/
def names : ValueSpec → List Ident
  | .mk names _ _ => names

/-- The initialisers. -/
def values : ValueSpec → List Expr
  | .mk _ _ values => values

end ValueSpec

/-- `Expr.Pos`. -/
def Expr.pos : Expr → Pos
  | .basicLit pos _ _ => pos
  | .ident id => id.pos
  | .selector x _ => x.pos
  | .unary pos _ _ => pos
  | .binary x _ _ => x.pos
  | .call fn _ => fn.pos
  | .paren pos _ => pos
  | .index x _ => x.pos
  | .star pos _ => pos
  | .other _ pos _ => pos

/-- A Go expression without the parentheses around it. -/
def unparen : Expr → Expr
  | .paren _ x => unparen x
  | e => e

/-- `Stmt.Pos`. -/
def Stmt.pos : Stmt → Pos
  | .decl pos _ _ => pos
  | .assign lhs _ _ => (lhs.head?.map Expr.pos).getD 0
  | .ifs pos _ _ _ _ => pos
  | .ret pos _ => pos
  | .expr x => x.pos
  | .fors pos _ _ _ _ => pos
  | .block pos _ => pos
  | .incDec x _ => x.pos
  | .other _ pos _ => pos

/-- `%T` of a statement. -/
def Stmt.goType : Stmt → Text
  | .decl _ _ _ => "*ast.DeclStmt"
  | .assign _ _ _ => "*ast.AssignStmt"
  | .ifs _ _ _ _ _ => "*ast.IfStmt"
  | .ret _ _ => "*ast.ReturnStmt"
  | .expr _ => "*ast.ExprStmt"
  | .fors _ _ _ _ _ => "*ast.ForStmt"
  | .block _ _ => "*ast.BlockStmt"
  | .incDec _ _ => "*ast.IncDecStmt"
  | .other kind _ _ => kind.goType

/-! ## Walking a tree -/

mutual
/-- The nodes `ast.Inspect` visits below and at an expression, in its order. -/
def inspectExpr : Expr → List Node
  | .basicLit pos kind value => [.expr (.basicLit pos kind value)]
  | .ident id => [.expr (.ident id)]
  | .selector x sel => .expr (.selector x sel) :: (inspectExpr x ++ [.expr (.ident sel)])
  | .unary pos op x => .expr (.unary pos op x) :: inspectExpr x
  | .binary x op y => .expr (.binary x op y) :: (inspectExpr x ++ inspectExpr y)
  | .call fn args => .expr (.call fn args) :: (inspectExpr fn ++ inspectExprs args)
  | .paren pos x => .expr (.paren pos x) :: inspectExpr x
  | .index x i => .expr (.index x i) :: (inspectExpr x ++ inspectExpr i)
  | .star pos x => .expr (.star pos x) :: inspectExpr x
  | .other kind pos children => .expr (.other kind pos children) :: inspectNodes children

/-- The nodes of a list of expressions. -/
def inspectExprs : List Expr → List Node
  | [] => []
  | e :: rest => inspectExpr e ++ inspectExprs rest

/-- The nodes of an optional expression. -/
def inspectExpr? : Option Expr → List Node
  | none => []
  | some e => inspectExpr e

/-- The nodes of a declaration's specification. -/
def inspectSpec : ValueSpec → List Node
  | .mk names type values =>
      names.map (fun n => .expr (.ident n)) ++ inspectExpr? type ++ inspectExprs values

/-- The nodes of a list of specifications. -/
def inspectSpecs : List ValueSpec → List Node
  | [] => []
  | v :: rest => inspectSpec v ++ inspectSpecs rest

/-- The nodes of a statement. -/
def inspectStmt : Stmt → List Node
  | .decl pos tok specs => .stmt (.decl pos tok specs) :: inspectSpecs specs
  | .assign lhs tok rhs => .stmt (.assign lhs tok rhs) :: (inspectExprs lhs ++ inspectExprs rhs)
  | .ifs pos init cond body els =>
      .stmt (.ifs pos init cond body els) ::
        (inspectStmt? init ++ inspectExpr cond ++ inspectStmts body ++ inspectStmt? els)
  | .ret pos results => .stmt (.ret pos results) :: inspectExprs results
  | .expr x => .stmt (.expr x) :: inspectExpr x
  | .fors pos init cond post body =>
      .stmt (.fors pos init cond post body) ::
        (inspectStmt? init ++ inspectExpr? cond ++ inspectStmt? post ++ inspectStmts body)
  | .block pos list => .stmt (.block pos list) :: inspectStmts list
  | .incDec x inc => .stmt (.incDec x inc) :: inspectExpr x
  | .other kind pos children => .stmt (.other kind pos children) :: inspectNodes children

/-- The nodes of a list of statements. -/
def inspectStmts : List Stmt → List Node
  | [] => []
  | s :: rest => inspectStmt s ++ inspectStmts rest

/-- The nodes of an optional statement. -/
def inspectStmt? : Option Stmt → List Node
  | none => []
  | some s => inspectStmt s

/-- The nodes of a child. -/
def inspectNode : Node → List Node
  | .expr e => inspectExpr e
  | .stmt s => inspectStmt s

/-- The nodes of a list of children. -/
def inspectNodes : List Node → List Node
  | [] => []
  | n :: rest => inspectNode n ++ inspectNodes rest
end

/-- The identifier that a node is. -/
def Node.ident? : Node → Option Ident
  | .expr (.ident id) => some id
  | _ => none

theorem self_mem_inspectExpr (e : Expr) : .expr e ∈ inspectExpr e := by
  cases e <;> exact List.mem_cons_self

theorem self_mem_inspectStmt (s : Stmt) : .stmt s ∈ inspectStmt s := by
  cases s <;> exact List.mem_cons_self

theorem inspectExprs_eq_flatMap (es : List Expr) : inspectExprs es = es.flatMap inspectExpr := by
  induction es with
  | nil => rfl
  | cons e es ih => rw [inspectExprs, ih, List.flatMap_cons]

theorem mem_inspectExprs {es : List Expr} {e : Expr} (he : e ∈ es) : .expr e ∈ inspectExprs es := by
  rw [inspectExprs_eq_flatMap]
  exact List.mem_flatMap.mpr ⟨e, he, self_mem_inspectExpr e⟩

theorem inspectStmts_eq_flatMap (list : List Stmt) :
    inspectStmts list = list.flatMap inspectStmt := by
  induction list with
  | nil => rfl
  | cons s list ih => rw [inspectStmts, ih, List.flatMap_cons]

theorem mem_inspectStmts {list : List Stmt} {s : Stmt} (hs : s ∈ list) :
    .stmt s ∈ inspectStmts list := by
  rw [inspectStmts_eq_flatMap]
  exact List.mem_flatMap.mpr ⟨s, hs, self_mem_inspectStmt s⟩

theorem mem_inspectSpecs {specs : List ValueSpec} {spec : ValueSpec} {id : Ident}
    (hspec : spec ∈ specs) (hid : id ∈ spec.names) : .expr (.ident id) ∈ inspectSpecs specs := by
  induction specs with
  | nil => cases hspec
  | cons v rest ih =>
      rw [inspectSpecs, List.mem_append]
      rcases List.mem_cons.mp hspec with rfl | hspec
      · refine .inl ?_
        cases spec with
        | mk names type values =>
            rw [inspectSpec]
            exact List.mem_append_left _ (List.mem_append_left _ (List.mem_map.mpr ⟨id, hid, rfl⟩))
      · exact .inr (ih hspec)

theorem mem_inspectSpecs_of_value {specs : List ValueSpec} {spec : ValueSpec} {e : Expr}
    (hspec : spec ∈ specs) (he : e ∈ spec.values) : .expr e ∈ inspectSpecs specs := by
  induction specs with
  | nil => cases hspec
  | cons v specs ih =>
      rw [inspectSpecs, List.mem_append]
      rcases List.mem_cons.mp hspec with rfl | hspec
      · obtain ⟨names, type, values⟩ := spec
        exact .inl (List.mem_append_right _ (mem_inspectExprs he))
      · exact .inr (ih hspec)

/-! ## Types and objects -/

/-- The basic types of `go/types`. -/
inductive Basic where
  | bool | int | int8 | int16 | int32 | int64 | uint | uint8 | uint16 | uint32 | uint64
  | uintptr | float32 | float64 | complex64 | complex128 | string | unsafePointer
  | untypedBool | untypedInt | untypedRune | untypedFloat | untypedComplex | untypedString
  | untypedNil | byte | rune | invalid
  deriving DecidableEq, Repr

/-- `Basic.Name`. -/
def Basic.name : Basic → Text
  | .bool => "bool" | .int => "int" | .int8 => "int8" | .int16 => "int16" | .int32 => "int32"
  | .int64 => "int64" | .uint => "uint" | .uint8 => "uint8" | .uint16 => "uint16"
  | .uint32 => "uint32" | .uint64 => "uint64" | .uintptr => "uintptr"
  | .float32 => "float32" | .float64 => "float64" | .complex64 => "complex64"
  | .complex128 => "complex128" | .string => "string" | .unsafePointer => "unsafe.Pointer"
  | .untypedBool => "untyped bool" | .untypedInt => "untyped int"
  | .untypedRune => "untyped rune" | .untypedFloat => "untyped float"
  | .untypedComplex => "untyped complex" | .untypedString => "untyped string"
  | .untypedNil => "untyped nil" | .byte => "byte" | .rune => "rune"
  | .invalid => "invalid type"

/-- The type name of a `types.Named`: the path of its package, none for `error`, and its
name. -/
structure TypeName where
  pkg : Option Text
  name : Text
  deriving DecidableEq, Repr

/-- `types.Type`; the forms no function here looks into are kept as their text. -/
inductive GoType where
  | basic (kind : Basic)
  | pointer (elem : GoType)
  | named (name : TypeName) (targs : List GoType)
  | array (elem : GoType) (len : Nat)
  /-- `types.Alias`: a declared second name of a type -/
  | typeAlias (name : TypeName) (targs : List GoType) (actual : GoType)
  | other (text : Text)

mutual
/-- `Type.String`. -/
def GoType.string : GoType → Text
  | .basic kind => kind.name
  | .pointer elem => "*" ++ elem.string
  | .named name targs =>
      (name.pkg.map (· ++ ['.'])).getD [] ++ name.name ++
        (if targs.isEmpty then [] else '[' :: (GoType.strings targs ++ [']']))
  | .array elem len => "[" ++ itoa len ++ "]" ++ elem.string
  | .typeAlias name targs _ =>
      (name.pkg.map (· ++ ['.'])).getD [] ++ name.name ++
        (if targs.isEmpty then [] else '[' :: (GoType.strings targs ++ [']']))
  | .other text => text

/-- A comma-separated list of types. -/
def GoType.strings : List GoType → Text
  | [] => []
  | [t] => t.string
  | t :: u :: rest => t.string ++ "," ++ GoType.strings (u :: rest)
end

/-- A field of a struct with its tag. -/
structure StructField where
  name : Text
  type : GoType
  tag : Text

/-- `Named.Underlying`, as far as it is looked at. -/
inductive Underlying where
  | struct (fields : List StructField)
  | basic (kind : Basic)
  | other

/-- `constant.Value`. -/
inductive ConstVal where
  | bool (b : Bool)
  /-- the value's quoted spelling -/
  | string (quoted : Text)
  | int (n : Int)
  /-- a fraction in lowest terms -/
  | rat (num : Int) (den : Nat)
  /-- any other value, by its exact string -/
  | other (exact : Text)
  deriving DecidableEq, Repr

/-- The decimal text of an integer. -/
def intText : Int → Text
  | .ofNat n => itoa n
  | .negSucc n => '-' :: itoa (n + 1)

/-- `Value.ExactString`. -/
def ConstVal.exactString : ConstVal → Text
  | .bool true => "true"
  | .bool false => "false"
  | .string quoted => quoted
  | .int n => intText n
  | .rat num den => intText num ++ "/" ++ itoa den
  | .other exact => exact

/-- The kinds of `types.Object`. -/
inductive ObjKind where
  | var
  | const (val : ConstVal)
  | pkgName (path : Text)
  | func
  | typeName
  | builtin
  | nil
  deriving DecidableEq, Repr

/-- `types.Object`; `decl` is the identifier that declares it and identifies it (for an
object of the universe scope, its name at position `0`). -/
structure Obj where
  decl : Ident
  kind : ObjKind
  type : GoType

/-- `types.Info`. -/
structure Info where
  uses : Ident → Option Obj
  /-- in the order in which the map is ranged over -/
  defs : List (Ident × Option Obj)
  typeOf : Expr → Option GoType
  underlying : TypeName → List GoType → Underlying

/-- `Info.Defs[id]`, `nil` when absent. -/
def Info.defsAt (info : Info) (id : Ident) : Option Obj := (info.defs.lookup id).join

/-! ## The program -/

/-- `ast.Field` of a parameter or result list. -/
structure Field where
  names : List Ident
  type : Expr

/-- `ast.FieldList`. -/
structure FieldList where
  pos : Pos
  list : List Field

/-- The body of a function with the positions of its braces. -/
structure Body where
  lbrace : Pos
  list : List Stmt
  rbrace : Pos

/-- `ast.FuncDecl`. -/
structure FuncDecl where
  pos : Pos
  name : Ident
  recv : Option FieldList
  typeParams : Option FieldList
  params : Option FieldList
  results : Option FieldList
  body : Option Body

/-- `ast.ImportSpec`: its position, the quoted path and what `strconv.Unquote` makes of
it. -/
structure ImportSpec where
  pos : Pos
  value : Text
  path : Option Text

/-- A top-level function without a `//bpf:section` directive. -/
structure HelperFunc where
  name : Text
  pos : Position
  decl : FuncDecl

/-- A top-level function annotated with `//bpf:section`. -/
structure ProgramFunc where
  name : Text
  section_ : Text
  pos : Position
  decl : FuncDecl

/-- A user-defined struct; `specPos` is the position of its `ast.TypeSpec`. -/
structure UserTypeDecl where
  name : Text
  pos : Position
  type : TypeName
  specPos : Pos

/-- A package-level constant declaration with a value of its own. -/
structure UserConstDecl where
  name : Text
  pos : Position
  type : Option Expr
  value : Expr

/-- A BPF map declared at package scope; `spec` is the position of its `ast.ValueSpec`. -/
structure MapDecl where
  name : Text
  pos : Position
  type : Text
  keyType : Option GoType
  valType : Option GoType
  maxEntries : Nat
  spec : Option Pos

/-- The intermediate representation of one input file. -/
structure Program where
  /-- `FileSet.Position` -/
  position : Pos → Position
  imports : List ImportSpec
  info : Info
  license : Text
  maps : List MapDecl
  programs : List ProgramFunc
  helpers : List HelperFunc
  types : List UserTypeDecl
  consts : List UserConstDecl
  /-- `strconv.IsPrint`, for characters above ASCII -/
  isPrint : Char → Bool := fun _ => true

end Gobee
