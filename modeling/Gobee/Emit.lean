/-
# The emitter

The statement half of `emit.go`: `writeBlock` and `writeStmt` with their cases, user
types, maps, helpers, programs, and `Emit` itself.

Every method of the emitter changes the output only through `writef`, `writeln`,
`writeIndent`, `writeRaw`, `recordPos` and the indentation counter.  A method is
therefore modelled as a computation that yields the list of these actions, and
`Emitter.act` says what one action does to the buffer, the line counter and the
mappings: the moments of an emission are the prefixes of its list of actions.  The alias
table and the counter of `resolveLHSName` are read while the actions are produced and
are threaded as a state.
-/
import Gobee.FormatExpr

namespace Gobee

/-! ## Actions -/

/-- `SourceMapping`. -/
structure SourceMapping where
  cLine : Nat
  position : Position
  deriving DecidableEq, Repr

/-- A primitive step of the emitter. -/
inductive Act where
  | writef (s : Text)
  | writeln (s : Text)
  | writeIndent
  | writeRaw (s : Text)
  | recordPos (pos : Pos)
  | indent
  | dedent
  deriving DecidableEq, Repr

/-- The part of `emitter` that the actions change. -/
structure Emitter where
  buf : Text
  indent : Nat
  cLine : Nat
  mappings : List SourceMapping

/-- The emitter `Emit` starts with. -/
def Emitter.new : Emitter := ⟨[], 0, 1, []⟩

/-- `strings.Count(s, "\n")`. -/
def newlines (s : Text) : Nat := s.count '\n'

/-- What an action does. -/
def Emitter.act (prog : Program) (e : Emitter) : Act → Emitter
  | .writef s => { e with buf := e.buf ++ s, cLine := e.cLine + newlines s }
  | .writeln s => { e with buf := e.buf ++ s ++ ['\n'], cLine := e.cLine + 1 }
  | .writeIndent => { e with buf := e.buf ++ List.replicate e.indent '\t' }
  | .writeRaw s => { e with buf := e.buf ++ s, cLine := e.cLine + newlines s }
  | .recordPos pos =>
      if pos = 0 then e
      else { e with mappings := e.mappings ++ [⟨e.cLine, prog.position pos⟩] }
  | .indent => { e with indent := e.indent + 1 }
  | .dedent => { e with indent := e.indent - 1 }

/-- A list of actions in order. -/
def Emitter.acts (prog : Program) (e : Emitter) (as : List Act) : Emitter :=
  as.foldl (Emitter.act prog) e

/-! ## Computations that emit -/

/-- `emitter.aliases` and `emitter.tmpSeq`. -/
structure Names where
  aliases : Aliases
  tmpSeq : Nat

/-- A method of the emitter: it reads and changes the names, may fail, and yields the
actions it performs. -/
def EmitM (α : Type) : Type := Names → Result (α × Names × List Act)

namespace EmitM

/-- No action. -/
protected def pure {α : Type} (a : α) : EmitM α := fun n => .ok (a, n, [])

/-- One computation after another. -/
protected def bind {α β : Type} (m : EmitM α) (f : α → EmitM β) : EmitM β := fun n =>
  match m n with
  | .error e => .error e
  | .ok (a, n', as) =>
      match f a n' with
      | .error e => .error e
      | .ok (b, n'', bs) => .ok (b, n'', as ++ bs)

instance : Monad EmitM where
  pure := EmitM.pure
  bind := EmitM.bind

/-- Perform one action. -/
def perform (a : Act) : EmitM Unit := fun n => .ok ((), n, [a])

/-- A computation that emits nothing. -/
def lift {α : Type} (r : Result α) : EmitM α := fun n =>
  match r with
  | .error e => .error e
  | .ok a => .ok (a, n, [])

/-- Fail. -/
def fail {α : Type} (msg : Text) : EmitM α := fun _ => errorf msg

end EmitM

open EmitM

/-- `writef`. -/
def writef (s : Text) : EmitM Unit := perform (.writef s)

/-- `writeln`. -/
def writeln (s : Text) : EmitM Unit := perform (.writeln s)

/-- `writeIndent`. -/
def writeIndent : EmitM Unit := perform .writeIndent

/-- `writeRaw`. -/
def writeRaw (s : Text) : EmitM Unit := perform (.writeRaw s)

/-- `recordPos`. -/
def recordPos (pos : Pos) : EmitM Unit := perform (.recordPos pos)

/-- Run a computation one level deeper. -/
def indented (m : EmitM Unit) : EmitM Unit := do
  perform .indent
  m
  perform .dedent

/-- `formatExpr` under the current aliases. -/
def format (prog : Program) (e : Expr) : EmitM Text := fun n =>
  match formatExpr prog n.aliases e with
  | .error f => .error f
  | .ok s => .ok (s, n, [])

/-- `resolveLHSName`. -/
def resolveLHSName (id : Ident) (kind : Text) : EmitM Text := fun n =>
  if id.name ≠ ['_'] then .ok (id.name, n, [])
  else .ok ("_" ++ kind ++ itoa (n.tmpSeq + 1), ⟨n.aliases, n.tmpSeq + 1⟩, [])

/-- `e.aliases[Defs[id]] = cName`, if the identifier defines an object. -/
def setAlias (prog : Program) (id : Ident) (cName : Text) : EmitM Unit := fun n =>
  match prog.info.defsAt id with
  | none => .ok ((), n, [])
  | some obj => .ok ((), ⟨(obj.decl, cName) :: n.aliases, n.tmpSeq⟩, [])

/-- `declString`. -/
def declString (cType name : Text) : Text :=
  if cType.getLast? = some '*' then cType ++ name else cType ++ " " ++ name

/-! ## Simple statements -/

/-- `Info.TypeOf` of an identifier. -/
def typeOfIdent (prog : Program) (id : Ident) : Option GoType := prog.info.typeOf (.ident id)

/-- The inner loop of `writeDeclStmt`: one line for each name, with the values that are
left. -/
def writeSpec (prog : Program) : List Ident → List Expr → EmitM Unit
  | [], _ => pure ()
  | name :: names, values => do
      let cType ← lift (wrapError (posText prog name.pos ++ ": " ++ ·)
        (goTypeToC? (typeOfIdent prog name)))
      writeIndent
      match values with
      | value :: _ =>
          let val ← format prog value
          writef (declString cType name.name ++ " = " ++ val ++ ";\n")
      | [] => writef (declString cType name.name ++ ";\n")
      writeSpec prog names values.tail

/-- The outer loop of `writeDeclStmt`. -/
def writeSpecs (prog : Program) : List ValueSpec → EmitM Unit
  | [] => pure ()
  | spec :: specs => do
      writeSpec prog spec.names spec.values
      writeSpecs prog specs

/-- `writeDeclStmt`. -/
def writeDeclStmt (prog : Program) (pos : Pos) (tok : DeclTok) (specs : List ValueSpec) :
    EmitM Unit :=
  if tok = .var then writeSpecs prog specs
  else fail (posText prog pos ++ ": only var decls are supported in function bodies")

/-- `mapLookupCall`: the map and its value type. -/
def mapLookupCall (prog : Program) (fn : Expr) : Option (Ident × GoType) :=
  match mapMethodCall prog fn with
  | some (m, valType, _) => if m.sel = "Lookup" then some (m.recv, valType) else none
  | none => none

/-- `ringbufReserveCall`: the ring buffer and its event type. -/
def ringbufReserveCall (prog : Program) (fn : Expr) : Option (Ident × GoType) :=
  match methodOf prog id fn with
  | some m =>
      match m.targs with
      | [valType] =>
          if m.sel = "Reserve" ∧ m.type = "RingBuf" then some (m.recv, valType) else none
      | _ => none
  | none => none

/-- `storageGetCall`: the storage map, its value type and the kernel helper. -/
def storageGetCall (prog : Program) (fn : Expr) : Option (Ident × GoType × Text) :=
  match storageMapInfo prog fn with
  | some (m, valType, getFn, _) =>
      if m.sel = "Get" then some (m.recv, valType, getFn) else none
  | none => none

/-- The identifier on the left of a comma-ok statement. -/
def lhsIdent (msg : Text) : Expr → Result Ident
  | .ident id => .ok id
  | _ => errorf msg

/-- The only argument of a comma-ok call, formatted. -/
def soleArg (prog : Program) (msg : Text) : List Expr → EmitM Text
  | [arg] => format prog arg
  | _ => fail msg

/-- `writeMapLookup`. -/
def writeMapLookup (prog : Program) (pos : Pos) (v ok fn : Expr) (args : List Expr)
    (mapName : Ident) (valType : GoType) : EmitM Unit := do
  let valC ← lift (goTypeToC valType)
  let countIdent ← lift
    (lhsIdent (posText prog pos ++ ": map lookup target must be an identifier") v)
  let okIdent ← lift
    (lhsIdent (posText prog pos ++ ": map lookup ok target must be an identifier") ok)
  let keyExpr ← soleArg prog (posText prog fn.pos ++ ": Lookup expects 1 argument") args
  let valName ← resolveLHSName countIdent "lookup"
  writeIndent
  writef (valC ++ " *" ++ valName ++ " = bpf_map_lookup_elem(&" ++ mapName.name ++ ", " ++
    keyExpr ++ ");\n")
  setAlias prog okIdent valName

/-- `writeStorageGet`. -/
def writeStorageGet (prog : Program) (pos : Pos) (v ok fn : Expr) (args : List Expr)
    (mapName : Ident) (valType : GoType) (helperFn : Text) : EmitM Unit := do
  let valC ← lift (goTypeToC valType)
  let valIdent ← lift
    (lhsIdent (posText prog pos ++ ": storage Get target must be an identifier") v)
  let okIdent ← lift
    (lhsIdent (posText prog pos ++ ": storage Get ok target must be an identifier") ok)
  let objExpr ← soleArg prog (posText prog fn.pos ++ ": Get expects 1 argument") args
  let valName ← resolveLHSName valIdent "get"
  writeIndent
  writef (valC ++ " *" ++ valName ++ " = " ++ helperFn ++ "(&" ++ mapName.name ++ ", " ++
    objExpr ++ ", NULL, 0);\n")
  setAlias prog okIdent valName

/-- `writeRingbufReserve`. -/
def writeRingbufReserve (prog : Program) (pos : Pos) (v ok : Expr) (mapName : Ident)
    (valType : GoType) : EmitM Unit := do
  let valC ← lift (goTypeToC valType)
  let eventIdent ← lift
    (lhsIdent (posText prog pos ++ ": Reserve target must be an identifier") v)
  let okIdent ← lift
    (lhsIdent (posText prog pos ++ ": Reserve ok target must be an identifier") ok)
  let valName ← resolveLHSName eventIdent "reserve"
  writeIndent
  writef (valC ++ " *" ++ valName ++ " = bpf_ringbuf_reserve(&" ++ mapName.name ++
    ", sizeof(" ++ valC ++ "), 0);\n")
  setAlias prog okIdent valName

/-- The comma-ok branch of `writeAssignStmt`. -/
def writeCommaOk (prog : Program) (pos : Pos) (v ok : Expr) (rhs : Expr) : EmitM Unit :=
  let unsupported : EmitM Unit :=
    fail (posText prog pos ++
      ": only map Lookup, RingBuf Reserve, or storage Get may be used with comma-ok")
  match rhs with
  | .call fn args =>
      match mapLookupCall prog fn with
      | some (mapName, valType) => writeMapLookup prog pos v ok fn args mapName valType
      | none =>
          match ringbufReserveCall prog fn with
          | some (mapName, valType) => writeRingbufReserve prog pos v ok mapName valType
          | none =>
              match storageGetCall prog fn with
              | some (mapName, valType, helperFn) =>
                  writeStorageGet prog pos v ok fn args mapName valType helperFn
              | none => unsupported
  | _ => unsupported

/-- The C operator of an assignment statement other than `:=`. -/
def assignText : AssignTok → Option Text
  | .define | .andNot => none
  | tok => some tok.string

/-- The single-value branch of `writeAssignStmt`. -/
def writeSingleAssign (prog : Program) (pos : Pos) (l : Expr) (tok : AssignTok) (r : Expr) :
    EmitM Unit := do
  let lhs ← format prog l
  let rhs ← format prog r
  writeIndent
  match tok with
  | .define =>
      let id ← lift (lhsIdent (posText prog pos ++ ": := requires an identifier on the left") l)
      let cType ← lift (goTypeToC? (typeOfIdent prog id))
      writef (declString cType id.name ++ " = " ++ rhs ++ ";\n")
  | _ =>
      match assignText tok with
      | some op => writef (lhs ++ " " ++ op ++ " " ++ rhs ++ ";\n")
      | none => fail (posText prog pos ++ ": unsupported assignment " ++ quote tok.string)

/-- `writeAssignStmt`. -/
def writeAssignStmt (prog : Program) (lhs : List Expr) (tok : AssignTok) (rhs : List Expr) :
    EmitM Unit :=
  let pos := (Stmt.assign lhs tok rhs).pos
  match lhs, rhs with
  | [v, ok], [r] =>
      if tok = .define then writeCommaOk prog pos v ok r
      else fail (posText prog pos ++ ": multi-value assignment not supported")
  | [l], [r] => writeSingleAssign prog pos l tok r
  | _, _ => fail (posText prog pos ++ ": multi-value assignment not supported")

/-- `writeReturnStmt`. -/
def writeReturnStmt (prog : Program) (pos : Pos) : List Expr → EmitM Unit
  | [] => do
      writeIndent
      writeln "return;"
  | [x] => do
      let val ← format prog x
      writeIndent
      writef ("return " ++ val ++ ";\n")
  | _ => fail (posText prog pos ++ ": multi-value return not supported")

/-- `writeExprStmt`. -/
def writeExprStmt (prog : Program) (x : Expr) : EmitM Unit := do
  let val ← format prog x
  writeIndent
  writef (val ++ ";\n")

/-- The operator of `x++` and `x--`. -/
def incDecText (inc : Bool) : Text := if inc then "++" else "--"

/-- The `ast.IncDecStmt` case of `writeStmt`. -/
def writeIncDecStmt (prog : Program) (x : Expr) (inc : Bool) : EmitM Unit := do
  writeIndent
  let expr ← format prog x
  writef (expr ++ incDecText inc ++ ";\n")

/-! ## Control flow -/

/-- The else clause of an if statement, with the emission of its block. -/
inductive ElseClause where
  | none
  | elseIf (cond : Expr) (body : EmitM Unit)
  | block (body : EmitM Unit)
  | other (goType : Text)

/-- The end of `writeIfStmt`: the switch on the else clause. -/
def writeElse (prog : Program) (pos : Pos) : ElseClause → EmitM Unit
  | .none => writeln "\x7d"
  | .elseIf cond body => do
      writef "\x7d else "
      -- the init and else clauses of the inner statement are not looked at
      let c ← format prog cond
      writef ("if (" ++ c ++ ") \x7b\n")
      indented body
      writeIndent
      writeln "\x7d"
  | .block body => do
      writef "\x7d else \x7b\n"
      indented body
      writeIndent
      writeln "\x7d"
  | .other goType => fail (posText prog pos ++ ": unsupported else clause " ++ goType)

/-- `writeIfStmt`; `hasInit` is whether the statement has an init clause. -/
def writeIfStmt (prog : Program) (pos : Pos) (hasInit : Bool) (cond : Expr) (body : EmitM Unit)
    (els : ElseClause) : EmitM Unit :=
  if hasInit then fail (posText prog pos ++ ": if-init clauses are not supported")
  else do
    let c ← format prog cond
    writeIndent
    writef ("if (" ++ c ++ ") \x7b\n")
    indented body
    writeIndent
    writeElse prog pos els

/-- `formatForClause`. -/
def formatForClause (prog : Program) (s : Stmt) : EmitM Text :=
  match s with
  | .assign [l] tok [r] => do
      let rhs ← format prog r
      if tok = .define then
        match l with
        | .ident id =>
            let cType ← lift (goTypeToC? (typeOfIdent prog id))
            return declString cType id.name ++ " = " ++ rhs
        | _ => lift (.error .panic)
      else
        let lhs ← format prog l
        return lhs ++ " " ++ tok.string ++ " " ++ rhs
  | .assign _ _ _ => fail (posText prog s.pos ++ ": for clauses must be single assignment")
  | .incDec x inc => do
      let base ← format prog x
      return base ++ incDecText inc
  | _ => fail (posText prog s.pos ++ ": unsupported for clause " ++ s.goType)

/-- `writeForStmt`. -/
def writeForStmt (prog : Program) (pos : Pos) (init : Option Stmt) (cond : Option Expr)
    (post : Option Stmt) (body : EmitM Unit) : EmitM Unit :=
  match init, cond, post with
  | some i, some c, some p => do
      let initStr ← formatForClause prog i
      let condStr ← format prog c
      let postStr ← formatForClause prog p
      writeIndent
      writef ("for (" ++ initStr ++ "; " ++ condStr ++ "; " ++ postStr ++ ") \x7b\n")
      indented body
      writeIndent
      writeln "\x7d"
  | _, _, _ => fail (posText prog pos ++ ": for loops must have init, condition, and post clauses")

/-- The `ast.BlockStmt` case of `writeStmt`. -/
def writeBlockStmt (body : EmitM Unit) : EmitM Unit := do
  writeIndent
  writeln "\x7b"
  indented body
  writeIndent
  writeln "\x7d"

mutual
/-- `writeStmt`. -/
def writeStmt (prog : Program) : Stmt → EmitM Unit
  | .decl pos tok specs => do
      recordPos pos
      writeDeclStmt prog pos tok specs
  | .assign lhs tok rhs => do
      recordPos (Stmt.assign lhs tok rhs).pos
      writeAssignStmt prog lhs tok rhs
  | .ifs pos init cond body els => do
      recordPos pos
      writeIfStmt prog pos init.isSome cond (writeBlock prog body) (elseClause prog els)
  | .ret pos results => do
      recordPos pos
      writeReturnStmt prog pos results
  | .expr x => do
      recordPos x.pos
      writeExprStmt prog x
  | .fors pos init cond post body => do
      recordPos pos
      writeForStmt prog pos init cond post (writeBlock prog body)
  | .block pos list => do
      recordPos pos
      writeBlockStmt (writeBlock prog list)
  | .incDec x inc => do
      recordPos x.pos
      writeIncDecStmt prog x inc
  | .other kind pos _ => do
      recordPos pos
      fail (posText prog pos ++ ": unsupported statement type " ++ kind.goType)

/-- `writeBlock`. -/
def writeBlock (prog : Program) : List Stmt → EmitM Unit
  | [] => pure ()
  | s :: rest => do
      writeStmt prog s
      writeBlock prog rest

/-- The else clause of an if statement. -/
def elseClause (prog : Program) : Option Stmt → ElseClause
  | none => .none
  | some (.ifs _ _ cond body _) => .elseIf cond (writeBlock prog body)
  | some (.block _ list) => .block (writeBlock prog list)
  | some s => .other s.goType
end

end Gobee
