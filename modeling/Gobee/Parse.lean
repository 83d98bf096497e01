/-
# From the file to the program

`directives.go` and `parse.go` after the Go front-end: the `//bpf:` directives of the
comments, and `collectDecls`, which sorts the top-level declarations of the type-checked
file into programs, helpers, maps, struct types and constants.
-/
import Gobee.Consts

namespace Gobee

/-! ## Directives -/

/-- `unicode.IsSpace`. -/
def isSpace (c : Char) : Bool :=
  c.toNat ∈ [0x09, 0x0a, 0x0b, 0x0c, 0x0d, 0x20, 0x85, 0xa0, 0x1680, 0x2028, 0x2029, 0x202f,
    0x205f, 0x3000] || (0x2000 ≤ c.toNat && c.toNat ≤ 0x200a)

/-- `strings.Fields`. -/
def fields (s : Text) : List Text := (s.splitOnP isSpace).filter fun f => !f.isEmpty

/-- `directive`, without the `k=v` pairs that nothing reads. -/
structure Directive where
  name : Text
  args : List Text
  deriving DecidableEq, Repr

/-- `directivePrefix`. -/
def directivePrefix : Text := "//bpf:"

/-- `parseDirective`. -/
def parseDirective (text : Text) : Result (Option Directive) :=
  if directivePrefix.isPrefixOf text then
    match fields (text.drop directivePrefix.length) with
    | [] => errorf "empty directive"
    | name :: rest => .ok (some ⟨name, rest.filter fun f => !('=' ∈ f)⟩)
  else .ok none

/-- `ast.Comment`. -/
structure Comment where
  pos : Pos
  text : Text

/-- `docDirective`: the first directive of a doc comment with the name. -/
def docDirective (doc : List Comment) (name : Text) : Option Directive :=
  (doc.filterMap fun c =>
    match parseDirective c.text with
    | .ok d => d
    | .error _ => none).find? fun d => d.name == name

/-! ## The file -/

/-- A top-level declaration. -/
inductive Decl where
  | func (doc : List Comment) (fd : FuncDecl)
  | var (specs : List ValueSpec)
  /-- the names of the type specifications -/
  | type (names : List Ident)
  | const (specs : List ValueSpec)
  | imports

/-- A file as the Go front-end hands it over. -/
structure File where
  pos : Pos
  comments : List Comment
  imports : List ImportSpec
  decls : List Decl
  position : Pos → Position
  info : Info
  /-- `strconv.IsPrint`, for characters above ASCII -/
  isPrint : Char → Bool := fun _ => true

/-- A position in an error. -/
def File.posText (file : File) (pos : Pos) : Text := (file.position pos).string

/-- `collectFileDirectives`: the last license directive counts. -/
def collectLicense (file : File) : List Comment → Text → Result Text
  | [], license => .ok license
  | c :: rest, license => do
      match ← wrapError (file.posText c.pos ++ ": " ++ ·) (parseDirective c.text) with
      | some ⟨name, args⟩ =>
          if name = "license" then
            match args with
            | [] => errorf (file.posText c.pos ++ ": //bpf:license requires a name (e.g. GPL)")
            | a :: _ => collectLicense file rest a
          else collectLicense file rest license
      | none => collectLicense file rest license

/-! ## Maps -/

/-- `strconv.Atoi` on a literal without a sign. -/
def atoi (s : Text) : Result Nat :=
  let n := s.foldl (fun n c => 10 * n + (c.toNat - '0'.toNat)) 0
  if s.isEmpty || !s.all Char.isDigit then
    errorf ("strconv.Atoi: parsing " ++ quote s ++ ": invalid syntax")
  else if 2 ^ 63 ≤ n then
    errorf ("strconv.Atoi: parsing " ++ quote s ++ ": value out of range")
  else .ok n

/-- The value of a `MaxEntries` field. -/
def maxEntriesOf (pos : Text) : Node → Result Nat
  | .expr (.basicLit _ .int value) => do
      let n ← wrapError (pos ++ ": MaxEntries: " ++ ·) (atoi value)
      if n = 0 then errorf (pos ++ ": MaxEntries must be > 0") else return n
  | _ => errorf (pos ++ ": MaxEntries must be an integer literal")

/-- The loop of `tryBuildMapDecl` over the elements of the literal. -/
def literalEntries (pos name : Text) : List Node → Nat → Result Nat
  | [], n => .ok n
  | .expr (.other .keyValue _ [.expr (.ident key), value]) :: rest, n =>
      if key.name = "MaxEntries" then do
        let m ← maxEntriesOf pos value
        literalEntries pos name rest m
      else literalEntries pos name rest n
  | .expr (.other .keyValue _ _) :: rest, n => literalEntries pos name rest n
  | _ :: _, _ =>
      errorf (pos ++ ": " ++ name ++ " initializer must use field names (e.g. MaxEntries: 1024)")

/-- `storageMapDirectives`. -/
def storageMapDirectives : List Text :=
  ["task_storage", "sk_storage", "inode_storage", "perf_event_array"]

/-- The type arguments of a map: its key and value types. -/
def mapTypeArgs (pos name : Text) : List GoType → Result (Option GoType × Option GoType)
  | [] => .ok (none, none)
  | [v] => .ok (none, some v)
  | [k, v] => .ok (some k, some v)
  | targs =>
      errorf (pos ++ ": " ++ name ++ " has " ++ itoa targs.length ++
        " type arguments; expected 1 or 2")

/-- The end of `tryBuildMapDecl`: the size of a map from its initialiser. -/
def mapMaxEntries (pos name goType : Text) (optional : Bool) : Option Expr → Result Nat
  | none =>
      if optional then .ok 0
      else
        errorf (pos ++ ": " ++ name ++ " must be initialized with a struct literal (e.g. " ++
          goType ++ "\x7bMaxEntries: 1024\x7d)")
  -- the first child of a literal is its type
  | some (.other .compositeLit _ (_ :: elts)) => do
      let n ← literalEntries pos name elts 0
      if n = 0 ∧ optional = false then errorf (pos ++ ": " ++ name ++ " missing MaxEntries field")
      else return n
  | some _ =>
      errorf (pos ++ ": " ++ name ++ " must be initialized with a " ++ goType ++
        "\x7b...\x7d struct literal")

/-- `tryBuildMapDecl`. -/
def tryBuildMapDecl (file : File) (id : Ident) (value : Option Expr) (spec : Pos) :
    Result (Option MapDecl) :=
  let pos := file.posText id.pos
  match (file.info.defsAt id).map Obj.type with
  | some (.named n targs) =>
      if n.pkg = some bpfPkgPath then
        match bpfMapGoTypeToDirective.lookup n.name with
        | none => .ok none
        | some directive => do
            let (keyType, valType) ← mapTypeArgs pos id.name targs
            let maxEntries ←
              mapMaxEntries pos id.name n.name (directive ∈ storageMapDirectives) value
            return some ⟨id.name, file.position id.pos, directive, keyType, valType, maxEntries,
              some spec⟩
      else .ok none
  | _ => .ok none

/-- The names of one `var` specification, with the values that are left. -/
def collectVars (file : File) (spec : Pos) : List Ident → List Expr → Result (List MapDecl)
  | [], _ => .ok []
  | id :: ids, values => do
      let m ← tryBuildMapDecl file id values.head? spec
      let rest ← collectVars file spec ids values.tail
      return m.toList ++ rest

/-- The position of a specification. -/
def ValueSpec.pos (spec : ValueSpec) : Pos := (spec.names.head?.map Ident.pos).getD 0

/-- The `token.VAR` branch of `collectDecls`. -/
def collectVarSpecs (file : File) : List ValueSpec → Result (List MapDecl)
  | [] => .ok []
  | spec :: specs => do
      let ms ← collectVars file spec.pos spec.names spec.values
      let rest ← collectVarSpecs file specs
      return ms ++ rest

/-! ## Declarations -/

/-- The `token.TYPE` branch of `collectDecls`, for one name. -/
def collectType (file : File) (id : Ident) : Option UserTypeDecl :=
  match (file.info.defsAt id).map Obj.type with
  | some (.named n targs) =>
      match file.info.underlying n targs with
      | .struct _ => some ⟨id.name, file.position id.pos, n, id.pos⟩
      | _ => none
  | _ => none

/-- What `collectDecls` appends for one declaration. -/
structure Collected where
  programs : List ProgramFunc
  helpers : List HelperFunc
  maps : List MapDecl
  types : List UserTypeDecl
  consts : List UserConstDecl

/-- Nothing. -/
def Collected.empty : Collected := ⟨[], [], [], [], []⟩

/-- Two collections, one after the other. -/
def Collected.append (a b : Collected) : Collected :=
  ⟨a.programs ++ b.programs, a.helpers ++ b.helpers, a.maps ++ b.maps, a.types ++ b.types,
    a.consts ++ b.consts⟩

/-- The `ast.FuncDecl` case of `collectDecls`. -/
def collectFunc (file : File) (doc : List Comment) (fd : FuncDecl) : Result Collected :=
  match docDirective doc "section" with
  | some ⟨_, []⟩ => errorf (file.posText fd.pos ++ ": //bpf:section requires a section name")
  | some ⟨_, name :: _⟩ =>
      .ok { Collected.empty with programs := [⟨fd.name.name, name, file.position fd.pos, fd⟩] }
  | none =>
      -- the placeholder `func main() {}` is dropped
      if fd.name.name = "main" ∧ fd.recv.isNone then .ok .empty
      else if fd.recv.isSome then .ok .empty
      else .ok { Collected.empty with helpers := [⟨fd.name.name, file.position fd.pos, fd⟩] }

/-- One declaration of `collectDecls`. -/
def collectDecl (file : File) : Decl → Result Collected
  | .func doc fd => collectFunc file doc fd
  | .var specs => do
      let maps ← collectVarSpecs file specs
      return { Collected.empty with maps := maps }
  | .type names => .ok { Collected.empty with types := names.filterMap (collectType file) }
  | .const specs =>
      .ok { Collected.empty with consts := specs.flatMap (collectSpec file.position) }
  | .imports => .ok .empty

/-- `collectDecls`. -/
def collectDecls (file : File) : List Decl → Result Collected
  | [] => .ok .empty
  | d :: rest => do
      let c ← collectDecl file d
      let cs ← collectDecls file rest
      return c.append cs

/-- `ParseFile`, on a file that parses and type-checks. -/
def parseFile (file : File) : Result Program := do
  let license ← collectLicense file file.comments []
  let c ← collectDecls file file.decls
  if license = [] then errorf (file.posText file.pos ++ ": missing //bpf:license directive")
  else if c.programs.isEmpty then
    errorf (file.posText file.pos ++ ": no //bpf:section functions found")
  else
    return { position := file.position, imports := file.imports, info := file.info,
             license := license, maps := c.maps, programs := c.programs, helpers := c.helpers,
             types := c.types, consts := c.consts, isPrint := file.isPrint }

end Gobee
