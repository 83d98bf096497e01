/-
# Emitting a whole program

The file-level half of `emit.go`: the header and its feature tests, the license, prelude
helpers, user types, maps, helpers and programs, and `Emit`.
-/
import Gobee.Emit

namespace Gobee

open EmitM

/-! ## Feature tests -/

/-- The nodes of the body of a function. -/
def FuncDecl.nodes (fd : FuncDecl) : List Node :=
  match fd.body with
  | none => []
  | some body => inspectStmts body.list

/-- The fields of a parameter or result list that may be absent. -/
def fieldsOf : Option FieldList → List Field
  | none => []
  | some fl => fl.list

/-- `requiresVmlinuxParam`. -/
def requiresVmlinuxParam (prog : Program) (type : Expr) : Bool :=
  match (prog.info.typeOf type).map stripPointer with
  | some (.named n _) =>
      match bpfPackageTypeInfo n with
      | some info => info.needsVmlinux
      | none => false
  | _ => false

/-- The node selects a field of a kernel-context struct. -/
def selectsKernelField (prog : Program) : Node → Bool
  | .expr (.selector x _) => (kernelStructType prog x).isSome
  | _ => false

/-- `usesKernelFieldAccess`. -/
def usesKernelFieldAccess (prog : Program) : Bool :=
  prog.programs.any fun p =>
    (fieldsOf p.decl.params).any (fun f => requiresVmlinuxParam prog f.type) ||
      p.decl.nodes.any (selectsKernelField prog)

/-- The function of the `bpf` package that a node calls. -/
def calledBpfFunction (prog : Program) : Node → Option Text
  | .expr (.call fn _) => bpfFunction prog fn
  | _ => none

/-- `usesEndianHelpers`. -/
def usesEndianHelpers (prog : Program) : Bool :=
  (prog.programs.map ProgramFunc.decl ++ prog.helpers.map HelperFunc.decl).any fun fd =>
    fd.nodes.any fun n =>
      match calledBpfFunction prog n with
      | some f => f ∈ endianHelperNames
      | none => false

/-- `usedPreludeHelpers`: the first use of each decides the order. -/
def usedPreludeHelpers (prog : Program) : List Text :=
  let used := (prog.programs.flatMap fun p => p.decl.nodes).filterMap (calledBpfFunction prog)
  (used.filter fun f => (bpfPreludeHelpers.lookup f).isSome).reverse.dedup.reverse

/-! ## Header and license -/

/-- `writeHeader`. -/
def writeHeader (source : Text) (withCoRE withEndian : Bool) : EmitM Unit := do
  writeln "// Code generated by gobee. DO NOT EDIT."
  writef ("// source: " ++ source ++ "\n\n")
  if withCoRE then
    writeln "#include \"vmlinux.h\""
    writeln "#include <bpf/bpf_helpers.h>"
    writeln "#include <bpf/bpf_core_read.h>"
  else
    writeln "#include <linux/bpf.h>"
    writeln "#include <bpf/bpf_helpers.h>"
  if withEndian then
    writeln "#include <bpf/bpf_endian.h>"
  writeln []

/-- `writeLicense`. -/
def writeLicense (prog : Program) : EmitM Unit :=
  writef ("char _license[] SEC(\"license\") = " ++ quoteWith prog.isPrint prog.license ++ ";\n\n")

/-- The prelude loop of `Emit`. -/
def writePrelude : List Text → EmitM Unit
  | [] => pure ()
  | f :: rest => do
      writeRaw ((bpfPreludeHelpers.lookup f).getD [])
      writeln []
      writePrelude rest

/-! ## User types -/

/-- One field of `writeUserType`, as a C member declaration. -/
def memberDecl (f : StructField) : Result Text :=
  match f.type with
  | .array elem len => do
      let elemC ← goTypeToC elem
      return elemC ++ " " ++ f.name ++ "[" ++ itoa len ++ "];\n"
  | t => do
      let ftype ← goTypeToC t
      return declString ftype f.name ++ ";\n"

/-- The field loop of `writeUserType`. -/
def writeFields (t : UserTypeDecl) : List StructField → EmitM Unit
  | [] => pure ()
  | f :: rest => do
      writeIndent
      let decl ← lift (wrapError (t.pos.string ++ ": field " ++ f.name ++ ": " ++ ·)
        (memberDecl f))
      writef decl
      writeFields t rest

/-- `writeUserType` after its position is recorded. -/
def writeStruct (prog : Program) (t : UserTypeDecl) : EmitM Unit :=
  match prog.info.underlying t.type [] with
  | .struct fields => do
      writef ("struct " ++ t.name ++ " \x7b\n")
      indented (writeFields t fields)
      writeln "\x7d;"
      writeln []
  | _ => fail (t.pos.string ++ ": user type " ++ t.name ++ " must be a struct")

/-- `writeUserType`. -/
def writeUserType (prog : Program) (t : UserTypeDecl) : EmitM Unit := do
  recordPos t.specPos
  writeStruct prog t

/-! ## Maps -/

/-- The value type line of a map, whose value type is required. -/
def mapValueC (m : MapDecl) : Result Text :=
  match m.valType with
  | none =>
      errorf (m.pos.string ++ ": map type " ++ quote m.type ++ " requires a value type argument")
  | some t => wrapError (m.pos.string ++ ": map value: " ++ ·) (goTypeToC t)

/-- The last lines of `writeMap`. -/
def writeMapEnd (m : MapDecl) : EmitM Unit := do
  if 0 < m.maxEntries then
    writef ("\t__uint(max_entries, " ++ itoa m.maxEntries ++ ");\n")
  writef ("\x7d " ++ m.name ++ " SEC(\".maps\");\n\n")

/-- The switch of `writeMap` on the kind of map. -/
def writeMapTypes (m : MapDecl) : EmitM Unit :=
  if m.type = "ringbuf" then writeMapEnd m
  else if m.type = "queue" ∨ m.type = "stack" ∨ m.type = "bloom_filter" then do
    let valC ← lift (mapValueC m)
    writef ("\t__type(value, " ++ valC ++ ");\n")
    writeMapEnd m
  else if m.type = "prog_array" ∨ m.type = "perf_event_array" ∨ m.type = "devmap" ∨
      m.type = "xskmap" then do
    writeln "\t__type(key, __u32);"
    writeln "\t__type(value, __u32);"
    writeMapEnd m
  else if m.type = "cpumap" then do
    writeln "\t__type(key, __u32);"
    writeln "\t__type(value, struct bpf_cpumap_val);"
    writeMapEnd m
  else if m.type = "task_storage" ∨ m.type = "sk_storage" ∨ m.type = "inode_storage" then do
    let valC ← lift (mapValueC m)
    writeln "\t__uint(map_flags, BPF_F_NO_PREALLOC);"
    writeln "\t__type(key, int);"
    writef ("\t__type(value, " ++ valC ++ ");\n")
    writef ("\x7d " ++ m.name ++ " SEC(\".maps\");\n\n")
  else
    match m.keyType with
    | none =>
        fail (m.pos.string ++ ": map type " ++ quote m.type ++
          " requires key and value type arguments")
    | some key => do
        let keyC ← lift (wrapError (m.pos.string ++ ": map key: " ++ ·) (goTypeToC key))
        let valC ← lift (wrapError (m.pos.string ++ ": map value: " ++ ·) (goTypeToC? m.valType))
        writef ("\t__type(key, " ++ keyC ++ ");\n")
        writef ("\t__type(value, " ++ valC ++ ");\n")
        writeMapEnd m

/-- The libbpf constant of a map's kind. -/
def mapKindC (m : MapDecl) : Result Text :=
  match mapTypeToC.lookup m.type with
  | some c => .ok c
  | none => errorf (m.pos.string ++ ": unsupported map type " ++ quote m.type)

/-- `writeMap` after its position is recorded. -/
def writeMapDef (m : MapDecl) : EmitM Unit := do
  let cType ← lift (mapKindC m)
  writeln "struct \x7b"
  writef ("\t__uint(type, " ++ cType ++ ");\n")
  writeMapTypes m

/-- `writeMap`. -/
def writeMap (m : MapDecl) : EmitM Unit :=
  match m.spec with
  | some pos => do
      recordPos pos
      writeMapDef m
  | none => writeMapDef m

/-! ## Functions -/

/-- `writeBlock` on the body of a function; a missing body is a nil dereference. -/
def writeBody (prog : Program) : Option Body → EmitM Unit
  | none => lift (.error .panic)
  | some body => writeBlock prog body.list

/-- The C return type of a helper. -/
def helperReturn (prog : Program) (h : HelperFunc) : Result Text :=
  match fieldsOf h.decl.results with
  | [] => .ok "void"
  | [r] =>
      if 1 < r.names.length then
        errorf (h.pos.string ++ ": " ++ h.name ++ ": multiple return values are not supported")
      else
        wrapError (h.pos.string ++ ": " ++ h.name ++ " return: " ++ ·)
          (goTypeToC? (prog.info.typeOf r.type))
  | _ => errorf (h.pos.string ++ ": " ++ h.name ++ ": multiple return values are not supported")

/-- The C parameters of a helper. -/
def helperParams (prog : Program) (h : HelperFunc) : List Field → Result (List Text)
  | [] => .ok []
  | field :: rest => do
      let pc ← wrapError (h.pos.string ++ ": " ++ h.name ++ " param: " ++ ·)
        (goTypeToC? (prog.info.typeOf field.type))
      let params ← helperParams prog h rest
      if field.names.isEmpty then return pc :: params
      else return field.names.map (fun n => declString pc n.name) ++ params

/-- `writeHelper`. -/
def writeHelper (prog : Program) (h : HelperFunc) : EmitM Unit := do
  recordPos h.decl.pos
  let retC ← lift (helperReturn prog h)
  let params ← lift (helperParams prog h (fieldsOf h.decl.params))
  let paramList : Text := if params.isEmpty then "void" else join ", " params
  writef ("static __always_inline " ++ retC ++ " " ++ h.name ++ "(" ++ paramList ++ ") \x7b\n")
  indented (writeBody prog h.decl.body)
  writeln "\x7d"
  writeln []

/-- The parameter of a program: its C type and its name. -/
def programParam (prog : Program) (p : ProgramFunc) : Result (Text × Text) :=
  match p.decl.params with
  | some ⟨_, [field]⟩ =>
      match field.names with
      | [n] => do
          let paramC ← wrapError (p.pos.string ++ ": " ++ p.name ++ " param: " ++ ·)
            (goTypeToC? (prog.info.typeOf field.type))
          return (paramC, n.name)
      | _ => errorf (p.pos.string ++ ": " ++ p.name ++ ": expected single named parameter")
  | _ => errorf (p.pos.string ++ ": " ++ p.name ++ ": expected exactly one parameter")

/-- `writeProgram`. -/
def writeProgram (prog : Program) (p : ProgramFunc) : EmitM Unit := do
  recordPos p.decl.pos
  writef ("SEC(" ++ quoteWith prog.isPrint p.section_ ++ ")\n")
  let param ← lift (programParam prog p)
  writef ("int " ++ p.name ++ "(" ++ declString param.1 param.2 ++ ") \x7b\n")
  indented (writeBody prog p.decl.body)
  writeln "\x7d"

/-! ## The file -/

/-- Run a computation for each element. -/
def forEach {α : Type} (f : α → EmitM Unit) : List α → EmitM Unit
  | [] => pure ()
  | a :: rest => do
      f a
      forEach f rest

/-- The actions of `Emit`. -/
def emitActs (prog : Program) (sourceLabel : Text) : EmitM Unit := do
  writeHeader sourceLabel (usesKernelFieldAccess prog) (usesEndianHelpers prog)
  writeLicense prog
  writePrelude (usedPreludeHelpers prog)
  forEach (writeUserType prog) prog.types
  forEach writeMap prog.maps
  forEach (writeHelper prog) prog.helpers
  forEach (writeProgram prog) prog.programs

/-- `Emit`: the C text and the source map. -/
def emit (prog : Program) (sourceLabel : Text) : Result (Text × List SourceMapping) := do
  let (_, _, acts) ← emitActs prog sourceLabel ⟨[], 0⟩
  let e := Emitter.new.acts prog acts
  return (e.buf, e.mappings)

end Gobee
