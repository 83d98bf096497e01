/-
# Formatting expressions

The expression half of `emit.go`: `formatExpr` with `formatIdent`, `formatSelector`,
`formatUnary`, `formatBinary` and `formatCall`, and the recognisers that turn calls of
map methods and of `bpf` functions into kernel helper calls.

Formatting an expression only reads the program and the alias table, so it is a
function of these.  A recogniser takes the formatted arguments as computations and runs
the ones it needs, in the order of the source.
-/
import Gobee.Tables

namespace Gobee

/-! ## Small pieces -/

/-- `emitter.aliases`: the C name that stands for an object, by its declaration. -/
abbrev Aliases := List (Ident × Text)

/-- A position as it is printed in an error. -/
def posText (prog : Program) (pos : Pos) : Text := (prog.position pos).string

/-- `strings.Join`. -/
def join (sep : Text) : List Text → Text
  | [] => []
  | [a] => a
  | a :: b :: rest => a ++ sep ++ join sep (b :: rest)

/-- Hexadecimal digits of a byte. -/
def hexByte (n : Nat) : Text :=
  [Nat.digitChar (n / 16 % 16), Nat.digitChar (n % 16)]

/-- The last hexadecimal digits of a number. -/
def hexDigits : Nat → Nat → Text
  | 0, _ => []
  | k + 1, n => hexDigits k (n / 16) ++ [Nat.digitChar (n % 16)]

/-- One character of a quoted string, where `isPrint` says which characters above ASCII are
printable. -/
def quoteChar (isPrint : Char → Bool) (c : Char) : Text :=
  if c = '"' then ['\\', '"']
  else if c = '\\' then ['\\', '\\']
  else if c = '\n' then ['\\', 'n']
  else if c = '\t' then ['\\', 't']
  else if c = '\r' then ['\\', 'r']
  else if c.toNat = 7 then ['\\', 'a']
  else if c.toNat = 8 then ['\\', 'b']
  else if c.toNat = 12 then ['\\', 'f']
  else if c.toNat = 11 then ['\\', 'v']
  else if c.toNat < 32 || c.toNat = 127 then '\\' :: 'x' :: hexByte c.toNat
  else if c.toNat < 127 || isPrint c then [c]
  else if c.toNat < 0x10000 then '\\' :: 'u' :: hexDigits 4 c.toNat
  else '\\' :: 'U' :: hexDigits 8 c.toNat

/-- `strconv.Quote`, the `%q` of a string. -/
def quoteWith (isPrint : Char → Bool) (s : Text) : Text :=
  '"' :: (s.flatMap (quoteChar isPrint) ++ ['"'])

/-- The `%q` of a name, a path or a text of an error: they are taken to be printable above
ASCII. -/
def quote (s : Text) : Text := quoteWith (fun _ => true) s

/-- Run a list of computations from left to right. -/
def sequence {α : Type} : List (Result α) → Result (List α)
  | [] => .ok []
  | r :: rest => do
      let a ← r
      let as ← sequence rest
      return a :: as

/-- Use what a recogniser found, or go on. -/
def orTry {α : Type} (r : Result (Option α)) (next : Result α) : Result α :=
  match r with
  | .error e => .error e
  | .ok (some c) => .ok c
  | .ok none => next

/-! ## Identifiers and selectors -/

/-- `formatIdent`. -/
def formatIdent (prog : Program) (aliases : Aliases) (id : Ident) : Text :=
  match prog.info.uses id with
  | none => id.name
  | some obj =>
      match aliases.lookup obj.decl with
      | some cName => cName
      | none =>
          match obj.kind with
          | .const val => val.exactString
          | _ => id.name

/-- The expression is the local name of the `bpf` package. -/
def isBpfPackage (prog : Program) : Expr → Bool
  | .ident id =>
      match prog.info.uses id with
      | some ⟨_, .pkgName path, _⟩ => path == bpfPkgPath
      | _ => false
  | _ => false

/-- The rest of a text after the first occurrence of `key`. -/
def afterFirst (key : Text) : Text → Option Text
  | [] => if key = [] then some [] else none
  | c :: cs =>
      if key.isPrefixOf (c :: cs) then some ((c :: cs).drop key.length) else afterFirst key cs

/-- `parseBpfTag`. -/
def parseBpfTag (tag : Text) : Text :=
  match afterFirst "bpf:\"" tag with
  | none => []
  | some rest => if '"' ∈ rest then rest.takeWhile (· != '"') else []

/-- The fields of a named struct type, none if its underlying type is no struct. -/
def structFields (prog : Program) (n : TypeName) (targs : List GoType) : List StructField :=
  match prog.info.underlying n targs with
  | .struct fields => fields
  | _ => []

/-- `bpfFieldNameTag`. -/
def bpfFieldNameTag (prog : Program) (n : TypeName) (targs : List GoType) (goName : Text) :
    Text :=
  match (structFields prog n targs).find? fun f => f.name == goName with
  | none => []
  | some f => parseBpfTag f.tag

/-- `lookupKernelField`. -/
def lookupKernelField (prog : Program) (n : TypeName) (targs : List GoType) (goName : Text) :
    Option Text :=
  ((structFields prog n targs).find? fun f => f.name == goName).map fun f =>
    if parseBpfTag f.tag = [] then goCamelToSnake goName else parseBpfTag f.tag

/-- `isKernelContextStruct`. -/
def isKernelContextStruct (n : TypeName) : Bool :=
  match bpfPackageTypeInfo n with
  | some info => info.fieldsCORE
  | none => false

/-- The type behind at most one pointer. -/
def stripPointer : GoType → GoType
  | .pointer elem => elem
  | t => t

/-- `kernelStructType`. -/
def kernelStructType (prog : Program) (x : Expr) : Option (TypeName × List GoType) :=
  match (prog.info.typeOf x).map stripPointer with
  | some (.named n targs) => if isKernelContextStruct n then some (n, targs) else none
  | _ => none

/-- The loop of `coreReadChain`: the C fields from the base to the outermost selector. -/
def coreReadFields (prog : Program) : Expr → List Text → Result (Option (List Text))
  | .selector x sel, fields =>
      match kernelStructType prog x with
      | none => .ok none
      | some (n, targs) =>
          match lookupKernelField prog n targs sel.name with
          | none =>
              errorf (posText prog x.pos ++ ": field " ++ quote sel.name ++
                " not declared on kernel struct " ++ n.name)
          | some field => coreReadFields prog x (field :: fields)
  | _, fields => .ok (if fields.isEmpty then none else some fields)

/-- `coreReadChain`; `base` formats the expression below the last selector. -/
def coreReadChain (prog : Program) (sel : Expr) (base : Result Text) : Result (Option Text) := do
  match ← coreReadFields prog sel [] with
  | none => return none
  | some fields =>
      let b ← base
      return some ("BPF_CORE_READ(" ++ join ", " (b :: fields) ++ ")")

/-- The C text of `bpf.Name` if it is one of the package's constants. -/
def bpfConstant (prog : Program) (x : Expr) (sel : Ident) : Option Text :=
  if isBpfPackage prog x then bpfConstants.lookup sel.name else none

/-- The operator and the name of a member access: an arrow and the name of the field's
tag behind a pointer, a dot and the Go name otherwise. -/
def memberAccess (prog : Program) (x : Expr) (sel : Ident) : Text × Text :=
  match prog.info.typeOf x with
  | some (.pointer (.named n targs)) =>
      let tag := bpfFieldNameTag prog n targs sel.name
      ("->", if tag = [] then sel.name else tag)
  | some (.pointer _) => ("->", sel.name)
  | _ => (['.'], sel.name)

/-- `formatSelector`. -/
def formatSelector (prog : Program) (x : Expr) (sel : Ident) (text base : Result Text) :
    Result Text :=
  match bpfConstant prog x sel with
  | some c => .ok c
  | none =>
      orTry (coreReadChain prog (.selector x sel) base) do
        let b ← text
        let access := memberAccess prog x sel
        return b ++ access.1 ++ access.2

/-! ## Operators -/

/-- The C spelling of the unary operators that have one. -/
def unaryText : UnaryOp → Option Text
  | .not => some ['!']
  | .and => some ['&']
  | .sub => some ['-']
  | .xor => some ['~']
  | _ => none

/-- `formatUnary`. -/
def formatUnary (prog : Program) (pos : Pos) (op : UnaryOp) (x : Result Text) : Result Text := do
  let inner ← x
  match unaryText op with
  | some c => return c ++ inner
  | none => errorf (posText prog pos ++ ": unsupported unary op " ++ quote op.string)

/-- `formatBinary`. -/
def formatBinary (x : Result Text) (op : BinaryOp) (y : Result Text) : Result Text := do
  let l ← x
  let r ← y
  return l ++ " " ++ op.string ++ " " ++ r

/-! ## Calls -/

/-- Go's basic type names that are emitted as casts. -/
def goBasicNameToC : List (Text × Text) :=
  [("bool", "bool"), ("int8", "__s8"), ("int16", "__s16"), ("int32", "__s32"),
    ("int64", "__s64"), ("uint8", "__u8"), ("uint16", "__u16"), ("uint32", "__u32"),
    ("uint64", "__u64")]

/-- A method called on an identifier whose type is declared in the `bpf` package. -/
structure Method where
  recv : Ident
  sel : Text
  type : Text
  targs : List GoType

/-- The method a callee names, given how the type of the receiver is looked at. -/
def methodOf (prog : Program) (view : GoType → GoType) : Expr → Option Method
  | .selector (.ident id) sel =>
      match (prog.info.typeOf (.ident id)).map view with
      | some (.named n targs) =>
          if n.pkg = some bpfPkgPath then some ⟨id, sel.name, n.name, targs⟩ else none
      | _ => none
  | _ => none

/-- The callee of a conversion `T(x)` to a basic type, as its C type. -/
def conversionType : Expr → Option Text
  | .ident id => goBasicNameToC.lookup id.name
  | _ => none

/-- The conversion branch of `formatCall`. -/
def conversionCall (prog : Program) (fn : Expr) (args : List (Result Text)) :
    Result (Option Text) :=
  match conversionType fn with
  | none => .ok none
  | some cType =>
      match args with
      | [arg] => do
          let inner ← arg
          return some ("(" ++ cType ++ ")(" ++ inner ++ ")")
      | _ =>
          errorf (posText prog fn.pos ++ ": type conversion expects exactly one argument")

/-- The callee is `unsafe.Pointer`. -/
def isUnsafePointer : Expr → Bool
  | .selector (.ident pkg) sel => sel.name == "Pointer".toList && pkg.name == "unsafe".toList
  | _ => false

/-- The `unsafe.Pointer` branch of `formatCall`. -/
def unsafePointerCall (prog : Program) (fn : Expr) (args : List (Result Text)) :
    Result (Option Text) :=
  if isUnsafePointer fn then
    match args with
    | [arg] => do
        let inner ← arg
        return some inner
    | _ => errorf (posText prog fn.pos ++ ": unsafe.Pointer expects exactly one argument")
  else .ok none

/-- `ringbufMethodCall`. -/
def ringbufMethodCall (prog : Program) (fn : Expr) (args : List (Result Text)) :
    Result (Option Text) :=
  match methodOf prog id fn with
  | none => .ok none
  | some m =>
      if m.type = "RingBuf" then
        match args with
        | [arg] => do
            let a ← arg
            if m.sel = "Submit" then return some ("bpf_ringbuf_submit(" ++ a ++ ", 0)")
            else if m.sel = "Discard" then return some ("bpf_ringbuf_discard(" ++ a ++ ", 0)")
            else if m.sel = "Output" then
              return some ("bpf_ringbuf_output(&" ++ m.recv.name ++ ", " ++ a ++ ", sizeof(*" ++
                a ++ "), 0)")
            else return none
        | _ =>
            errorf (posText prog fn.pos ++ ": " ++ m.sel ++ " expects exactly one argument")
      else .ok none

/-- `queueLikeMethodCall`. -/
def queueLikeMethodCall (prog : Program) (fn : Expr) (args : List (Result Text)) :
    Result (Option Text) :=
  match methodOf prog id fn with
  | none => .ok none
  | some m =>
      if m.type = "Queue" ∨ m.type = "Stack" then
        match args with
        | [arg] => do
            let a ← arg
            if m.sel = "Push" then
              return some ("bpf_map_push_elem(&" ++ m.recv.name ++ ", " ++ a ++ ", 0)")
            else if m.sel = "Pop" then
              return some ("bpf_map_pop_elem(&" ++ m.recv.name ++ ", " ++ a ++ ")")
            else if m.sel = "Peek" then
              return some ("bpf_map_peek_elem(&" ++ m.recv.name ++ ", " ++ a ++ ")")
            else return none
        | _ =>
            errorf (posText prog fn.pos ++ ": " ++ m.sel ++ " expects exactly one argument")
      else .ok none

/-- `progArrayMethodCall`. -/
def progArrayMethodCall (prog : Program) (fn : Expr) (args : List (Result Text)) :
    Result (Option Text) :=
  match methodOf prog id fn with
  | none => .ok none
  | some m =>
      if m.sel = "TailCall" ∧ m.type = "ProgArray" then
        match args with
        | [ctx, key] => do
            let c ← ctx
            let k ← key
            return some ("bpf_tail_call(" ++ c ++ ", &" ++ m.recv.name ++ ", " ++ k ++ ")")
        | _ => errorf (posText prog fn.pos ++ ": TailCall expects (ctx, key)")
      else .ok none

/-- `perfEventArrayMethodCall`. -/
def perfEventArrayMethodCall (prog : Program) (fn : Expr) (args : List (Result Text)) :
    Result (Option Text) :=
  match methodOf prog id fn with
  | none => .ok none
  | some m =>
      if m.sel = "Output" ∧ m.type = "PerfEventArray" then
        match args with
        | [ctx, val] => do
            let c ← ctx
            let v ← val
            return some ("bpf_perf_event_output(" ++ c ++ ", &" ++ m.recv.name ++
              ", BPF_F_CURRENT_CPU, " ++ v ++ ", sizeof(*" ++ v ++ "))")
        | _ => errorf (posText prog fn.pos ++ ": Output expects (ctx, *T)")
      else .ok none

/-- `storageMapInfo`: the method with the value type and the kernel helpers of its map. -/
def storageMapInfo (prog : Program) (fn : Expr) : Option (Method × GoType × Text × Text) :=
  match methodOf prog stripPointer fn with
  | none => none
  | some m =>
      match storageMapHelpers.lookup m.type, m.targs with
      | some (getFn, deleteFn), [valType] => some (m, valType, getFn, deleteFn)
      | _, _ => none

/-- `storageMethodCall`. -/
def storageMethodCall (prog : Program) (fn : Expr) (args : List (Result Text)) :
    Result (Option Text) :=
  match storageMapInfo prog fn with
  | none => .ok none
  | some (m, _, getFn, deleteFn) =>
      if m.sel = "GetOrCreate" then
        match args with
        | [obj, val] => do
            let o ← obj
            let v ← val
            return some (getFn ++ "(&" ++ m.recv.name ++ ", " ++ o ++ ", " ++ v ++
              ", BPF_LOCAL_STORAGE_GET_F_CREATE)")
        | _ =>
            errorf (posText prog fn.pos ++ ": " ++ m.type ++ ".GetOrCreate expects (obj, *V)")
      else if m.sel = "Delete" then
        match args with
        | [obj] => do
            let o ← obj
            return some (deleteFn ++ "(&" ++ m.recv.name ++ ", " ++ o ++ ")")
        | _ => errorf (posText prog fn.pos ++ ": " ++ m.type ++ ".Delete expects (obj)")
      else if m.sel = "Get" then
        match args with
        | [obj] => do
            let o ← obj
            return some (getFn ++ "(&" ++ m.recv.name ++ ", " ++ o ++ ", NULL, 0)")
        | _ => errorf (posText prog fn.pos ++ ": " ++ m.type ++ ".Get expects (obj)")
      else .ok none

/-- `redirectMapCall`. -/
def redirectMapCall (prog : Program) (fn : Expr) (args : List (Result Text)) :
    Result (Option Text) :=
  match methodOf prog stripPointer fn with
  | none => .ok none
  | some m =>
      if m.sel = "Redirect" ∧ m.type ∈ redirectMapTypes then
        match args with
        | [_, key, flags] => do
            let k ← key
            let f ← flags
            return some ("bpf_redirect_map(&" ++ m.recv.name ++ ", " ++ k ++ ", " ++ f ++ ")")
        | _ =>
            errorf (posText prog fn.pos ++ ": " ++ m.type ++
              ".Redirect expects (ctx, key, flags)")
      else .ok none

/-- `mapMethodCall`: the map, its value type and the C helper of a map method. -/
def mapMethodCall (prog : Program) (fn : Expr) : Option (Method × GoType × Text) :=
  match methodOf prog id fn with
  | none => none
  | some m =>
      match mapMethodToHelper.lookup m.sel, m.targs with
      | some helper, [_, valType] =>
          if m.type ∈ kernelMapGoTypes then some (m, valType, helper) else none
      | _, _ => none

/-- The map method branch of `formatCall`. -/
def mapCall (prog : Program) (fn : Expr) (args : List (Result Text)) : Result (Option Text) :=
  match mapMethodCall prog fn with
  | none => .ok none
  | some (m, _, helper) => do
      let as ← sequence args
      let flags : List Text := if helper = "bpf_map_update_elem" then ["BPF_ANY"] else []
      return some (helper ++ "(" ++ join ", " (("&" ++ m.recv.name) :: as ++ flags) ++ ")")

/-- `bpfHelperExpansions`: the sugar functions of the `bpf` package. -/
def bpfHelperExpansions (name : Text) (args : List Text) : Option (Result Text) :=
  if name = "GetCurrentPid" then
    some (.ok "(__u32)(bpf_get_current_pid_tgid() >> 32)")
  else if name = "GetCurrentTid" then
    some (.ok "(__u32)(bpf_get_current_pid_tgid())")
  else if name = "GetCurrentUid" then
    some (.ok "(__u32)(bpf_get_current_uid_gid())")
  else if name = "GetCurrentGid" then
    some (.ok "(__u32)(bpf_get_current_uid_gid() >> 32)")
  else if name = "GetTaskComm" then
    some <| match args with
      | [a] => .ok ("bpf_get_current_comm(" ++ a ++ ", 16)")
      | _ => errorf "GetTaskComm expects exactly one *[16]byte argument"
  else if name = "GetUserString" then
    some <| match args with
      | [a, b] =>
          .ok ("bpf_probe_read_user_str(" ++ a ++ ", sizeof(*" ++ a ++ "), (const char *)" ++ b ++
            ")")
      | _ => errorf "GetUserString expects (*[128]byte, uint64)"
  else if name = "GetUserArgv" then
    some <| match args with
      | [a, b] =>
          .ok ("gobee_read_user_argv((char *)" ++ a ++ ", sizeof(*" ++ a ++
            "), (const char *const *)" ++ b ++ ")")
      | _ => errorf "GetUserArgv expects (*[256]byte, uint64)"
  else none

/-- The function of the `bpf` package a callee names. -/
def bpfFunction (prog : Program) : Expr → Option Text
  | .selector x sel => if isBpfPackage prog x then some sel.name else none
  | _ => none

/-- The C name of a `bpf` function that is not expanded. -/
def helperName (name : Text) : Text :=
  (bpfHelperFuncs.lookup name).getD (goNameToBpfHelper name)

/-- The `bpf.HelperFunc` branch of `formatCall`. -/
def bpfCall (prog : Program) (fn : Expr) (args : List (Result Text)) : Result (Option Text) :=
  match bpfFunction prog fn with
  | none => .ok none
  | some name => do
      let as ← sequence args
      match bpfHelperExpansions name as with
      | some expanded =>
          let c ← expanded
          return some c
      | none => return some (helperName name ++ "(" ++ join ", " as ++ ")")

/-- The last branch of `formatCall`: a call of a user function. -/
def userCall (fn : Result Text) (args : List (Result Text)) : Result Text := do
  let f ← fn
  let as ← sequence args
  return f ++ "(" ++ join ", " as ++ ")"

/-- `formatCall`. -/
def formatCall (prog : Program) (fn : Expr) (fnText : Result Text) (args : List (Result Text)) :
    Result Text :=
  orTry (conversionCall prog fn args) <|
  orTry (unsafePointerCall prog fn args) <|
  orTry (ringbufMethodCall prog fn args) <|
  orTry (queueLikeMethodCall prog fn args) <|
  orTry (progArrayMethodCall prog fn args) <|
  orTry (perfEventArrayMethodCall prog fn args) <|
  orTry (storageMethodCall prog fn args) <|
  orTry (redirectMapCall prog fn args) <|
  orTry (mapCall prog fn args) <|
  orTry (bpfCall prog fn args) <|
  userCall fnText args

/-! ## Expressions -/

/-- A formatted expression, and the formatted expression below its selectors (which
`coreReadChain` formats). -/
structure Formatted (α : Type) where
  text : Result α
  base : Result α

/-- An expression that is no selector is its own base. -/
def Formatted.plain {α : Type} (r : Result α) : Formatted α := ⟨r, r⟩

mutual
/-- `formatExpr`, with the base. -/
def formatNode (prog : Program) (aliases : Aliases) : Expr → Formatted Text
  | .basicLit _ _ value => .plain (.ok value)
  | .ident id => .plain (.ok (formatIdent prog aliases id))
  | .selector x sel =>
      let f := formatNode prog aliases x
      ⟨formatSelector prog x sel f.text f.base, f.base⟩
  | .unary pos op x => .plain (formatUnary prog pos op (formatNode prog aliases x).text)
  | .binary x op y =>
      .plain (formatBinary (formatNode prog aliases x).text op (formatNode prog aliases y).text)
  | .call fn args =>
      .plain (formatCall prog fn (formatNode prog aliases fn).text (formatNodes prog aliases args))
  | .paren _ x =>
      .plain do
        let inner ← (formatNode prog aliases x).text
        return "(" ++ inner ++ ")"
  | .index x i =>
      .plain do
        let base ← (formatNode prog aliases x).text
        let idx ← (formatNode prog aliases i).text
        return base ++ "[" ++ idx ++ "]"
  | .star _ x =>
      .plain do
        let inner ← (formatNode prog aliases x).text
        return "*" ++ inner
  | .other kind pos _ =>
      .plain (errorf (posText prog pos ++ ": unsupported expression " ++ kind.goType))

/-- `formatExpr` on each of a list of expressions. -/
def formatNodes (prog : Program) (aliases : Aliases) : List Expr → List (Result Text)
  | [] => []
  | e :: rest => (formatNode prog aliases e).text :: formatNodes prog aliases rest
end

/-- `formatExpr`. -/
def formatExpr (prog : Program) (aliases : Aliases) (e : Expr) : Result Text :=
  (formatNode prog aliases e).text

end Gobee
