/-
# The types in the output

`goTypeToC` is called for the fields of structs, for the key and value types of maps, for
the parameters and results of functions and for local variables.  It prints a named type
that is not in the table of the `bpf` package as a struct of the same name, whatever the
type is, and the parser collects only the structs of the file.

* `declTypes_block` : the C types of the local variables of a body are those of its Go
  types;
* `mem_fileTypes` : the C types in the definitions of a file are those of the Go types that
  are printed;
* `tags_closed_iff` : **every printed struct tag is defined, exactly when every named type
  that is printed is in the table or has the name of a collected struct (or of a kernel
  struct of the table).**
-/
import Gobee.EmittedFile
import Gobee.Validate

namespace Gobee

variable {prog : Program}

/-! ## Types of declarations -/

/-- The type printed for a field: of an array, the element type. -/
def fieldType (f : StructField) : GoType :=
  match f.type with
  | .array elem _ => elem
  | t => t

/-- The key and value types printed for a map. -/
def mapTypes (m : MapDecl) : List GoType :=
  if m.type = "ringbuf" then []
  else if m.type = "queue" ∨ m.type = "stack" ∨ m.type = "bloom_filter" then m.valType.toList
  else if m.type = "prog_array" ∨ m.type = "perf_event_array" ∨ m.type = "devmap" ∨
      m.type = "xskmap" ∨ m.type = "cpumap" then []
  else if m.type = "task_storage" ∨ m.type = "sk_storage" ∨ m.type = "inode_storage" then
    m.valType.toList
  else m.keyType.toList ++ m.valType.toList

/-- The types of a list of parameters or results. -/
def fieldListTypes (prog : Program) (fields : List Field) : List GoType :=
  fields.filterMap fun f => prog.info.typeOf f.type

/-- The types that a type declaration, a map or a signature prints. -/
def printedTypes (prog : Program) : Construct → List GoType
  | .type t =>
      match prog.info.underlying t.type [] with
      | .struct fields => fields.map fieldType
      | _ => []
  | .map m => mapTypes m
  | .helper h =>
      fieldListTypes prog (fieldsOf h.decl.results) ++ fieldListTypes prog (fieldsOf h.decl.params)
  -- the result of a program is printed as `int`
  | .program p => fieldListTypes prog (fieldsOf p.decl.params)
  | .stmt _ => []

/-! ## Types of local variables -/

/-- The type of the variable that a definition defines. -/
def definedType (prog : Program) (l : Expr) : List GoType :=
  ((identOf l).bind (typeOfIdent prog)).toList

/-- The type of the pointer that a comma-ok statement declares. -/
def commaOkTypes (prog : Program) : Expr → List GoType
  | .call fn _ =>
      match mapLookupCall prog fn with
      | some (_, valType) => [.pointer valType]
      | none =>
          match ringbufReserveCall prog fn with
          | some (_, valType) => [.pointer valType]
          | none => (storageGetCall prog fn).toList.map fun c => .pointer c.2.1
  | _ => []

/-- The types of the variables that an assignment defines. -/
def assignTypes (prog : Program) (lhs : List Expr) (tok : AssignTok) (rhs : List Expr) :
    List GoType :=
  match lhs, rhs with
  | [_, _], [r] => commaOkTypes prog r
  | [l], [_] => if tok = .define then definedType prog l else []
  | _, _ => []

/-- The types of the variables that a clause of a `for` defines. -/
def clauseTypes (prog : Program) : Option Stmt → List GoType
  | some (.assign [l] tok [_]) => if tok = .define then definedType prog l else []
  | _ => []

mutual
/-- The types of the variables that a statement declares. -/
def stmtTypes (prog : Program) : Stmt → List GoType
  | .decl _ _ specs => specs.flatMap fun spec => spec.names.filterMap (typeOfIdent prog)
  | .assign lhs tok rhs => assignTypes prog lhs tok rhs
  | .ifs _ _ _ body els => blockTypes prog body ++ elseTypes prog els
  | .fors _ init _ post body =>
      clauseTypes prog init ++ (clauseTypes prog post ++ blockTypes prog body)
  | .block _ list => blockTypes prog list
  | _ => []

/-- The types of the variables that a list of statements declares. -/
def blockTypes (prog : Program) : List Stmt → List GoType
  | [] => []
  | s :: rest => stmtTypes prog s ++ blockTypes prog rest

/-- The types of the variables that an else clause declares. -/
def elseTypes (prog : Program) : Option Stmt → List GoType
  | some (.ifs _ _ _ body _) => blockTypes prog body
  | some (.block _ list) => blockTypes prog list
  | _ => []
end

/-- The types of the local variables of a function. -/
def localTypes (prog : Program) (fd : FuncDecl) : List GoType :=
  match fd.body with
  | none => []
  | some body => blockTypes prog body.list

/-! ## C types of local variables -/

/-- The C type of the variable that a line declares. -/
def CLine.declTypes : CLine → List Text
  | .decl cType _ _ _ => [cType]
  | _ => []

mutual
/-- The C types of the variables that an emitted statement declares. -/
def CStmt.declTypes : CStmt → List Text
  | .simple _ lines => lines.flatMap CLine.declTypes
  | .block _ body => blockDeclTypes body
  | .ite _ _ _ body els => blockDeclTypes body ++ els.declTypes
  | .loop _ _ init _ _ _ post body => init.declTypes ++ (post.declTypes ++ blockDeclTypes body)

/-- The C types of the variables that an else part declares. -/
def CElse.declTypes : CElse → List Text
  | .none => []
  | .elseIf _ _ _ body => blockDeclTypes body
  | .block _ body => blockDeclTypes body

/-- The C types of the variables that a list of statements declares. -/
def blockDeclTypes : List CStmt → List Text
  | [] => []
  | c :: rest => c.declTypes ++ blockDeclTypes rest
end

/-- The C types are those of the Go types. -/
def Translates (ts : List GoType) (cs : List Text) : Prop :=
  ts.map goTypeToC = cs.map .ok

theorem Translates.append {ts us : List GoType} {cs ds : List Text} (h : Translates ts cs)
    (h' : Translates us ds) : Translates (ts ++ us) (cs ++ ds) := by
  unfold Translates at *
  rw [List.map_append, List.map_append, h, h']

theorem Translates.nil : Translates [] [] := rfl

theorem translates_pointer {t : GoType} {c : Text} (h : (goTypeToC t).toOption = some c) :
    Translates [.pointer t] [c ++ " *"] := by
  cases ht : goTypeToC t with
  | error e => rw [ht] at h; cases h
  | ok c' =>
      rw [ht] at h
      cases h
      simp only [Translates, List.map_cons, List.map_nil, goTypeToC, ht]
      rfl

theorem translates_ident {id : Ident} {c : Text} (h : cTypeOf prog id = some c) :
    Translates (typeOfIdent prog id).toList [c] := by
  unfold cTypeOf at h
  cases ht : typeOfIdent prog id with
  | none => rw [ht] at h; cases h
  | some t =>
      rw [ht, goTypeToC?] at h
      cases hc : goTypeToC t with
      | error e => rw [hc] at h; cases h
      | ok c' =>
          rw [hc] at h
          cases h
          simp [Translates, hc]

theorem translates_spec {n : Names} : ∀ {ids : List Ident} {values : List Expr} {ls : List CLine},
    specLines prog n ids values = some ls →
      Translates (ids.filterMap (typeOfIdent prog)) (ls.flatMap CLine.declTypes)
  | [], values, ls, h => by
      cases h
      exact Translates.nil
  | id :: ids, values, ls, h => by
      obtain ⟨cType, hc, h⟩ := Option.bind_eq_some_iff.mp h
      obtain ⟨init, -, h⟩ := Option.bind_eq_some_iff.mp h
      obtain ⟨rest, hrest, h⟩ := Option.bind_eq_some_iff.mp h
      cases h
      have htail := translates_spec hrest
      have hcons := (translates_ident hc).append htail
      rw [List.filterMap_cons]
      cases ht : typeOfIdent prog id with
      | none =>
          rw [ht] at hcons
          exact hcons
      | some t =>
          rw [ht] at hcons
          exact hcons

theorem translates_specs {n : Names} : ∀ {specs : List ValueSpec} {ls : List CLine},
    specsLines prog n specs = some ls →
      Translates (specs.flatMap fun spec => spec.names.filterMap (typeOfIdent prog))
        (ls.flatMap CLine.declTypes)
  | [], ls, h => by
      cases h
      exact Translates.nil
  | spec :: specs, ls, h => by
      obtain ⟨ls₁, h₁, h⟩ := Option.bind_eq_some_iff.mp h
      obtain ⟨ls₂, h₂, h⟩ := Option.bind_eq_some_iff.mp h
      cases h
      rw [List.flatMap_append, List.flatMap_cons]
      exact (translates_spec h₁).append (translates_specs h₂)

theorem translates_commaOk {n n' : Names} {v ok r : Expr} {l : CLine}
    (h : commaOkLine prog n v ok r = some (l, n')) :
    Translates (commaOkTypes prog r) l.declTypes := by
  unfold commaOkLine at h
  split at h
  · rename_i fn args
    obtain ⟨c, hc, h⟩ := Option.bind_eq_some_iff.mp h
    obtain ⟨vId, -, h⟩ := Option.bind_eq_some_iff.mp h
    obtain ⟨okId, -, h⟩ := Option.bind_eq_some_iff.mp h
    cases h
    unfold commaOkTypes
    unfold commaOkCall at hc
    split at hc
    · rename_i buf valType hlookup
      obtain ⟨valC, hvalC, hc⟩ := Option.bind_eq_some_iff.mp hc
      obtain ⟨key, -, hc⟩ := Option.bind_eq_some_iff.mp hc
      cases hc
      simp only [hlookup]
      exact translates_pointer hvalC
    · rename_i hlookup
      split at hc
      · rename_i buf valType hreserve
        obtain ⟨valC, hvalC, hc⟩ := Option.bind_eq_some_iff.mp hc
        cases hc
        simp only [hlookup, hreserve]
        exact translates_pointer hvalC
      · rename_i hreserve
        split at hc
        · rename_i buf valType getFn hget
          obtain ⟨valC, hvalC, hc⟩ := Option.bind_eq_some_iff.mp hc
          obtain ⟨obj, -, hc⟩ := Option.bind_eq_some_iff.mp hc
          cases hc
          simp only [hlookup, hreserve, hget]
          exact translates_pointer hvalC
        · cases hc
  · cases h

theorem translates_defined {l : Expr} {id : Ident} {c : Text} (hid : identOf l = some id)
    (hc : cTypeOf prog id = some c) : Translates (definedType prog l) [c] := by
  rw [definedType, hid]
  exact translates_ident hc

theorem translates_single {n : Names} {l r : Expr} {tok : AssignTok} {line : CLine}
    (h : singleAssignLine prog n l tok r = some line) :
    Translates (if tok = .define then definedType prog l else []) line.declTypes := by
  obtain ⟨lhs, -, h⟩ := Option.bind_eq_some_iff.mp h
  obtain ⟨rhs, -, h⟩ := Option.bind_eq_some_iff.mp h
  by_cases htok : tok = .define
  · subst htok
    obtain ⟨id, hid, h⟩ := Option.bind_eq_some_iff.mp h
    obtain ⟨cType, hc, h⟩ := Option.bind_eq_some_iff.mp h
    cases h
    rw [if_pos rfl]
    exact translates_defined hid hc
  · rw [if_neg htok]
    split at h
    · exact absurd rfl htok
    · obtain ⟨op, -, h⟩ := Option.bind_eq_some_iff.mp h
      cases h
      exact Translates.nil

theorem translates_assign {n n' : Names} {lhs rhs : List Expr} {tok : AssignTok} {line : CLine}
    (h : assignLine prog n lhs tok rhs = some (line, n')) :
    Translates (assignTypes prog lhs tok rhs) line.declTypes := by
  unfold assignLine at h
  unfold assignTypes
  split at h
  · split_ifs at h
    exact translates_commaOk h
  · obtain ⟨l, hl, heq⟩ := Option.map_eq_some_iff.mp h
    cases heq
    exact translates_single hl
  · cases h

theorem translates_clause {n : Names} {s : Stmt} {line : CLine}
    (h : forClause prog n s = some line) :
    Translates (clauseTypes prog (some s)) line.declTypes := by
  unfold forClause at h
  split at h
  · rename_i l tok r
    obtain ⟨rhs, -, h⟩ := Option.bind_eq_some_iff.mp h
    rw [clauseTypes]
    split_ifs at h with htok
    · obtain ⟨id, hid, h⟩ := Option.bind_eq_some_iff.mp h
      obtain ⟨cType, hc, h⟩ := Option.bind_eq_some_iff.mp h
      cases h
      rw [if_pos htok]
      exact translates_defined hid hc
    · obtain ⟨lhs, -, h⟩ := Option.bind_eq_some_iff.mp h
      cases h
      rw [if_neg htok]
      exact Translates.nil
  · obtain ⟨c, -, h⟩ := Option.map_eq_some_iff.mp h
    cases h
    exact Translates.nil
  · cases h

mutual
theorem declTypes_stmt : ∀ {s : Stmt} {n n' : Names} {c : CStmt},
    stmtTree prog s n = some (c, n') → Translates (stmtTypes prog s) c.declTypes
  | .decl pos tok specs, n, n', c, h => by
      rw [stmtTree] at h
      split_ifs at h
      obtain ⟨ls, hls, heq⟩ := Option.map_eq_some_iff.mp h
      cases heq
      exact translates_specs hls
  | .assign lhs tok rhs, n, n', c, h => by
      rw [stmtTree] at h
      obtain ⟨⟨line, n₁⟩, hline, heq⟩ := Option.map_eq_some_iff.mp h
      cases heq
      rw [CStmt.declTypes, stmtTypes, List.flatMap_singleton]
      exact translates_assign hline
  | .ifs pos init cond body els, n, n', c, h => by
      obtain ⟨-, t, b, n₁, e, -, hb, he, heq⟩ := stmtTree_ifs h
      cases heq
      exact (declTypes_block hb).append (declTypes_else he)
  | .ret pos results, n, n', c, h => by
      rw [stmtTree] at h
      obtain ⟨line, hline, heq⟩ := Option.map_eq_some_iff.mp h
      cases heq
      unfold returnLine at hline
      split at hline
      · cases hline
        exact Translates.nil
      · obtain ⟨t, -, rfl⟩ := Option.map_eq_some_iff.mp hline
        exact Translates.nil
      · cases hline
  | .expr x, n, n', c, h => by
      rw [stmtTree] at h
      obtain ⟨t, -, heq⟩ := Option.map_eq_some_iff.mp h
      cases heq
      exact Translates.nil
  | .fors pos init cond post body, n, n', c, h => by
      obtain ⟨i, co, p, initL, condT, postL, b, rfl, rfl, rfl, hi, -, hp, hb, heq⟩ :=
        stmtTree_fors h
      cases heq
      exact (translates_clause hi).append ((translates_clause hp).append (declTypes_block hb))
  | .block pos list, n, n', c, h => by
      obtain ⟨b, hb, heq⟩ := stmtTree_block h
      cases heq
      exact declTypes_block hb
  | .incDec x inc, n, n', c, h => by
      rw [stmtTree] at h
      obtain ⟨t, -, heq⟩ := Option.map_eq_some_iff.mp h
      cases heq
      exact Translates.nil
  | .other kind pos children, n, n', c, h => by cases h

/-- **The C types of the local variables of a block are those of its Go types.** -/
theorem declTypes_block : ∀ {list : List Stmt} {n n' : Names} {cs : List CStmt},
    blockTree prog list n = some (cs, n') → Translates (blockTypes prog list) (blockDeclTypes cs)
  | [], n, n', cs, h => by
      rw [blockTree] at h
      cases h
      exact Translates.nil
  | s :: rest, n, n', cs, h => by
      obtain ⟨c, n₁, cs', hc, hrest, heq⟩ := blockTree_cons h
      cases heq
      exact (declTypes_stmt hc).append (declTypes_block hrest)

theorem declTypes_else : ∀ {els : Option Stmt} {n n' : Names} {e : CElse},
    elseTree prog els n = some (e, n') → Translates (elseTypes prog els) e.declTypes
  | none, n, n', e, h => by
      rw [elseTree] at h
      cases h
      exact Translates.nil
  | some (.ifs pos init cond body els), n, n', e, h => by
      obtain ⟨t, b, -, hb, heq⟩ := elseTree_ifs h
      cases heq
      exact declTypes_block hb
  | some (.block pos list), n, n', e, h => by
      obtain ⟨b, hb, heq⟩ := elseTree_block h
      cases heq
      exact declTypes_block hb
  | some (.decl _ _ _), n, n', e, h | some (.assign _ _ _), n, n', e, h
  | some (.ret _ _), n, n', e, h | some (.expr _), n, n', e, h
  | some (.fors _ _ _ _ _), n, n', e, h | some (.incDec _ _), n, n', e, h
  | some (.other _ _ _), n, n', e, h => by cases h
end

theorem declTypes_functions : ∀ {fds : List FuncDecl} {n n' : Names} {trees : List (List CStmt)},
    functionTrees prog fds n = some (trees, n') →
      Translates (fds.flatMap (localTypes prog)) (trees.flatMap blockDeclTypes)
  | [], n, n', trees, h => by
      cases h
      exact Translates.nil
  | fd :: rest, n, n', trees, h => by
      obtain ⟨body, cs, n₁, css, hbody, hcs, hcss, rfl⟩ := functionTrees_cons.mp h
      rw [List.flatMap_cons, List.flatMap_cons, localTypes, hbody]
      exact (declTypes_block hcs).append (declTypes_functions hcss)

/-! ## C types of definitions -/

/-- The C types computed for a line of a map. -/
def MapLine.cTypes (l : MapLine) : List Text :=
  if l.computed ∧ l.form = "type" then [l.value] else []

/-- The C types in a definition: of members, map lines, results and parameters, and of the
variables that the body declares.  The types that are written out in the emitter are
left aside. -/
def CDef.cTypes : CDef → List Text
  | .struct _ ms => ms.map Member.cType
  | .map _ ls => ls.flatMap MapLine.cTypes
  | .helper _ ret params body => ret :: params.map EmittedParam.cType ++ blockDeclTypes body
  | .program _ _ param body => param.cType :: blockDeclTypes body

/-- The C types in the output. -/
def fileTypes (defs : List CDef) : List Text := defs.flatMap CDef.cTypes

theorem Translates.mem {ts : List GoType} {cs : List Text} (h : Translates ts cs) {c : Text} :
    c ∈ cs ↔ ∃ t ∈ ts, goTypeToC t = .ok c := by
  rw [← List.mem_map, h, List.mem_map]
  constructor
  · exact fun hc => ⟨c, hc, rfl⟩
  · rintro ⟨c', hc', heq⟩
    cases heq
    exact hc'

theorem translates_toOption {t : GoType} {c : Text} (h : (goTypeToC t).toOption = some c) :
    Translates [t] [c] := by
  cases ht : goTypeToC t with
  | error e => rw [ht] at h; cases h
  | ok c' =>
      rw [ht] at h
      cases h
      exact congrArg (fun r => [r]) ht

theorem translates_toOption? {t : Option GoType} {c : Text} (h : (goTypeToC? t).toOption = some c) :
    Translates t.toList [c] := by
  cases t with
  | none => cases h
  | some t => exact translates_toOption h

theorem translates_members : ∀ {fields : List StructField} {ms : List Member},
    membersOf fields = some ms → Translates (fields.map fieldType) (ms.map Member.cType)
  | [], ms, h => by
      cases h
      exact Translates.nil
  | f :: fields, ms, h => by
      obtain ⟨m, hm, h⟩ := Option.bind_eq_some_iff.mp h
      obtain ⟨ms', hms, h⟩ := Option.bind_eq_some_iff.mp h
      cases h
      have hfirst : Translates [fieldType f] [m.cType] := by
        unfold memberOf at hm
        split at hm
        · rename_i elem len htype
          have hfield : fieldType f = elem := by rw [fieldType, htype]
          obtain ⟨c, hc, rfl⟩ := Option.map_eq_some_iff.mp hm
          rw [hfield]
          exact translates_toOption hc
        · rename_i hother
          have hfield : fieldType f = f.type := by
            unfold fieldType
            split
            · rename_i elem len htype
              exact absurd htype (hother elem len)
            · rfl
          obtain ⟨c, hc, rfl⟩ := Option.map_eq_some_iff.mp hm
          rw [hfield]
          exact translates_toOption hc
      exact hfirst.append (translates_members hms)

theorem cTypes_size (m : MapDecl) : (mapSizeLines m).flatMap MapLine.cTypes = [] := by
  unfold mapSizeLines
  split <;> rfl

theorem translates_value {m : MapDecl} {l : MapLine} (h : mapValueLine m = some l) :
    Translates m.valType.toList l.cTypes := by
  obtain ⟨c, hc, rfl⟩ := Option.map_eq_some_iff.mp h
  unfold mapValueC at hc
  cases hval : m.valType with
  | none =>
      rw [hval] at hc
      cases hc
  | some t =>
      rw [hval] at hc
      rw [toOption_wrapError] at hc
      exact translates_toOption hc

theorem translates_mapLines {m : MapDecl} {ls : List MapLine} (h : mapLines m = some ls) :
    Translates (mapTypes m) (ls.flatMap MapLine.cTypes) := by
  obtain ⟨kind, -, h⟩ := Option.bind_eq_some_iff.mp h
  obtain ⟨ls', hls, h⟩ := Option.bind_eq_some_iff.mp h
  cases h
  show Translates (mapTypes m) (ls'.flatMap MapLine.cTypes)
  have hsize := cTypes_size m
  unfold mapTypeLines at hls
  unfold mapTypes
  -- the branches of writeMap in the order of the source
  by_cases hring : m.type = "ringbuf"
  · rw [if_pos hring] at hls ⊢
    cases hls
    rw [hsize]
    exact Translates.nil
  rw [if_neg hring] at hls ⊢
  by_cases hqueue : m.type = "queue" ∨ m.type = "stack" ∨ m.type = "bloom_filter"
  · rw [if_pos hqueue] at hls ⊢
    obtain ⟨l, hl, rfl⟩ := Option.map_eq_some_iff.mp hls
    rw [List.flatMap_cons, hsize, List.append_nil]
    exact translates_value hl
  rw [if_neg hqueue] at hls ⊢
  have hfixed : (m.type = "prog_array" ∨ m.type = "perf_event_array" ∨ m.type = "devmap" ∨
      m.type = "xskmap" ∨ m.type = "cpumap") ↔
      (m.type = "prog_array" ∨ m.type = "perf_event_array" ∨ m.type = "devmap" ∨
        m.type = "xskmap") ∨ m.type = "cpumap" := by
    simp only [or_assoc]
  by_cases hprog : m.type = "prog_array" ∨ m.type = "perf_event_array" ∨ m.type = "devmap" ∨
      m.type = "xskmap"
  · rw [if_pos hprog] at hls
    rw [if_pos (hfixed.mpr (.inl hprog))]
    cases hls
    exact hsize ▸ Translates.nil
  rw [if_neg hprog] at hls
  by_cases hcpu : m.type = "cpumap"
  · rw [if_pos hcpu] at hls
    rw [if_pos (hfixed.mpr (.inr hcpu))]
    cases hls
    exact hsize ▸ Translates.nil
  rw [if_neg hcpu] at hls
  rw [if_neg fun h => (hfixed.mp h).elim hprog hcpu]
  by_cases hstorage : m.type = "task_storage" ∨ m.type = "sk_storage" ∨ m.type = "inode_storage"
  · rw [if_pos hstorage] at hls ⊢
    obtain ⟨l, hl, rfl⟩ := Option.map_eq_some_iff.mp hls
    show Translates m.valType.toList (l.cTypes ++ [])
    rw [List.append_nil]
    exact translates_value hl
  rw [if_neg hstorage] at hls ⊢
  cases hkey : m.keyType with
  | none =>
      rw [hkey] at hls
      cases hls
  | some key =>
      rw [hkey] at hls
      obtain ⟨keyC, hkeyC, hls⟩ := Option.bind_eq_some_iff.mp hls
      obtain ⟨valC, hvalC, hls⟩ := Option.bind_eq_some_iff.mp hls
      cases hls
      have hboth := (translates_toOption hkeyC).append (translates_toOption? hvalC)
      show Translates ([key] ++ m.valType.toList)
        ([keyC] ++ ([valC] ++ (mapSizeLines m).flatMap MapLine.cTypes))
      rw [hsize]
      exact hboth

theorem mem_paramTypes : ∀ {fields : List Field} {params : List EmittedParam} {c : Text},
    paramTrees prog fields = some params →
      (c ∈ params.map EmittedParam.cType ↔ ∃ t ∈ fieldListTypes prog fields, goTypeToC t = .ok c)
  | [], params, c, h => by
      cases h
      simp [fieldListTypes]
  | field :: rest, params, c, h => by
      obtain ⟨cType, hcType, h⟩ := Option.bind_eq_some_iff.mp h
      obtain ⟨params', hparams, h⟩ := Option.bind_eq_some_iff.mp h
      cases h
      have hfield : c ∈ (fieldParams cType field.names).map EmittedParam.cType ↔ c ∈ [cType] := by
        unfold fieldParams
        split
        · rfl
        · rename_i hnames
          rcases hids : field.names with _ | ⟨id, ids⟩
          · rw [hids] at hnames
            exact absurd rfl hnames
          · simp only [List.map_cons, List.map_map, List.mem_cons, List.mem_map, Function.comp_apply,
              List.not_mem_nil, or_false, or_iff_left_iff_imp, forall_exists_index, and_imp]
            intro _ _ hc
            exact hc.symm
      have htypes : fieldListTypes prog (field :: rest) =
          (prog.info.typeOf field.type).toList ++ fieldListTypes prog rest := by
        unfold fieldListTypes
        rw [List.filterMap_cons]
        cases prog.info.typeOf field.type <;> rfl
      rw [List.map_append, List.mem_append, hfield, (translates_toOption? hcType).mem,
        mem_paramTypes hparams, htypes]
      simp only [List.mem_append, or_and_right, exists_or]

/-- The type of the result of a helper, if it has one. -/
theorem mem_resultTypes {h : HelperFunc} {ret c : Text}
    (hret : (helperReturn prog h).toOption = some ret) (hc : c ≠ ("void" : Text)) :
    c = ret ↔ ∃ t ∈ fieldListTypes prog (fieldsOf h.decl.results), goTypeToC t = .ok c := by
  unfold helperReturn at hret
  split at hret
  · rename_i hresults
    cases hret
    rw [hresults]
    exact iff_of_false hc (by simp [fieldListTypes])
  · rename_i field hresults
    rw [hresults]
    split_ifs at hret
    · cases hret
    · rw [toOption_wrapError] at hret
      have hmem := (translates_toOption? hret).mem (c := c)
      rw [List.mem_singleton] at hmem
      rw [hmem, fieldListTypes, List.filterMap_cons]
      cases prog.info.typeOf field.type <;> rfl
  · cases hret

/-- The types of a definition. -/
def TypesOf (types : List GoType) (d : CDef) : Prop :=
  ∀ c, c ≠ ("void" : Text) → (c ∈ d.cTypes ↔ ∃ t ∈ types, goTypeToC t = .ok c)

theorem mem_eachDef {γ : Type} {g : γ → Names → Option (CDef × Names)} {types : γ → List GoType}
    (hg : ∀ x n d n', g x n = some (d, n') → TypesOf (types x) d) :
    ∀ {xs : List γ} {n n' : Names} {ds : List CDef}, eachDef g xs n = some (ds, n') →
      ∀ c, c ≠ ("void" : Text) → (c ∈ fileTypes ds ↔ ∃ t ∈ xs.flatMap types, goTypeToC t = .ok c)
  | [], n, n', ds, h, c, hc => by
      cases h
      simp [fileTypes]
  | x :: rest, n, n', ds, h, c, hc => by
      obtain ⟨⟨d, n₁⟩, hd, h⟩ := Option.bind_eq_some_iff.mp h
      obtain ⟨⟨ds', n₂⟩, hds, h⟩ := Option.bind_eq_some_iff.mp h
      cases h
      have hrest := mem_eachDef hg hds c hc
      rw [fileTypes] at hrest
      rw [fileTypes, List.flatMap_cons, List.mem_append, hg x n d n₁ hd c hc, hrest,
        List.flatMap_cons]
      simp only [List.mem_append, or_and_right, exists_or]

theorem shows_struct (t : UserTypeDecl) (n : Names) (d : CDef) (n' : Names)
    (h : structDef prog t n = some (d, n')) : TypesOf (printedTypes prog (.type t)) d := by
  obtain ⟨ms, hms, heq⟩ := Option.map_eq_some_iff.mp h
  cases heq
  intro c _
  unfold members at hms
  split at hms
  · rename_i fields hfields
    rw [printedTypes, hfields]
    exact (translates_members hms).mem
  · cases hms

theorem shows_map (m : MapDecl) (n : Names) (d : CDef) (n' : Names)
    (h : mapDef m n = some (d, n')) : TypesOf (printedTypes prog (.map m)) d := by
  obtain ⟨ls, hls, heq⟩ := Option.map_eq_some_iff.mp h
  cases heq
  exact fun c _ => (translates_mapLines hls).mem

theorem translates_body {fd : FuncDecl} {body : List CStmt} {n n' : Names}
    (h : bodyTrees prog fd n = some (body, n')) :
    Translates (localTypes prog fd) (blockDeclTypes body) := by
  obtain ⟨b, hb, h⟩ := Option.bind_eq_some_iff.mp h
  rw [localTypes, hb]
  exact declTypes_block h

theorem shows_helper (f : HelperFunc) (n : Names) (d : CDef) (n' : Names)
    (h : helperDef prog f n = some (d, n')) :
    TypesOf (printedTypes prog (.helper f) ++ localTypes prog f.decl) d := by
  obtain ⟨ret, hret, h⟩ := Option.bind_eq_some_iff.mp h
  obtain ⟨params, hparams, h⟩ := Option.bind_eq_some_iff.mp h
  obtain ⟨⟨body, n₁⟩, hbody, h⟩ := Option.bind_eq_some_iff.mp h
  cases h
  intro c hc
  rw [CDef.cTypes, List.cons_append, List.mem_cons, List.mem_append, mem_resultTypes hret hc,
    mem_paramTypes hparams, (translates_body hbody).mem, printedTypes]
  simp only [List.mem_append, or_and_right, exists_or, or_assoc]

theorem shows_program (p : ProgramFunc) (n : Names) (d : CDef) (n' : Names)
    (h : programDef prog p n = some (d, n')) :
    TypesOf (printedTypes prog (.program p) ++ localTypes prog p.decl) d := by
  obtain ⟨param, hparam, h⟩ := Option.bind_eq_some_iff.mp h
  obtain ⟨⟨body, n₁⟩, hbody, h⟩ := Option.bind_eq_some_iff.mp h
  cases h
  have htype : Translates (fieldListTypes prog (fieldsOf p.decl.params)) [param.cType] := by
    unfold programParamTree at hparam
    split at hparam
    · rename_i pos field hparams
      split at hparam
      · obtain ⟨c, hc, rfl⟩ := Option.map_eq_some_iff.mp hparam
        have hlist : fieldListTypes prog (fieldsOf p.decl.params) =
            (prog.info.typeOf field.type).toList := by
          rw [hparams, fieldsOf, fieldListTypes, List.filterMap_cons]
          cases prog.info.typeOf field.type <;> rfl
        rw [hlist]
        exact translates_toOption? hc
      · cases hparam
    · cases hparam
  intro c _
  exact (htype.append (translates_body hbody)).mem

/-! ## Struct tags -/

/-- The struct tag in a C type. -/
def structTag (c : Text) : Option Text :=
  if List.isPrefixOf "struct ".toList c then some ((c.drop 7).takeWhile (· != ' ')) else none

/-- The named type that a type is, or points to. -/
def baseName : GoType → Option TypeName
  | .named n _ => some n
  | .pointer elem => baseName elem
  | _ => none

/-- `k` pointers. -/
def stars : Nat → Text
  | 0 => []
  | k + 1 => stars k ++ " *"

theorem stars_cases (k : Nat) : stars k = [] ∨ ∃ rest, stars k = ' ' :: rest := by
  induction k with
  | zero => exact .inl rfl
  | succ k ih =>
      rcases ih with h | ⟨rest, h⟩
      · exact .inr ⟨['*'], by rw [stars, h]; rfl⟩
      · exact .inr ⟨rest ++ " *", by rw [stars, h]; rfl⟩

theorem takeWhile_stars {x : Text} (hx : ' ' ∉ x) (k : Nat) :
    (x ++ stars k).takeWhile (· != ' ') = x := by
  rw [List.takeWhile_append_of_pos (by
    intro c hc
    simp only [bne_iff_ne, ne_eq]
    rintro rfl
    exact hx hc)]
  rcases stars_cases k with h | ⟨rest, h⟩
  · rw [h]
    simp
  · rw [h]
    simp

theorem structTag_struct {x : Text} (hx : ' ' ∉ x) (k : Nat) :
    structTag ("struct " ++ x ++ stars k) = some x := by
  have hprefix : List.isPrefixOf "struct ".toList ("struct " ++ x ++ stars k : Text) = true := by
    rw [List.isPrefixOf_iff_prefix, List.append_assoc]
    exact List.prefix_append _ _
  rw [structTag, if_pos hprefix]
  have hdrop : ("struct " ++ x ++ stars k : Text).drop 7 = x ++ stars k := by
    rw [List.append_assoc]
    rfl
  rw [hdrop, takeWhile_stars hx]

/-- A type that starts with another letter is no struct. -/
theorem structTag_head {a : Char} (rest : Text) (ha : a ≠ 's') : structTag (a :: rest) = none := by
  have hne : ('s' == a) = false := by
    rw [beq_eq_false_iff_ne]
    exact fun h => ha h.symm
  have hprefix : List.isPrefixOf ('s' :: "truct ".toList) (a :: rest) = false := by
    rw [List.isPrefixOf, hne, Bool.false_and]
  exact if_neg (by rw [show "struct ".toList = 's' :: "truct ".toList from rfl, hprefix]; decide)

/-- A named type is printed with its pointers. -/
theorem goTypeToC_named : ∀ {t : GoType} {n : TypeName}, baseName t = some n →
    ∃ k, goTypeToC t = .ok (namedToC n ++ stars k)
  | .named n targs, _, h => by
      cases h
      exact ⟨0, by rw [goTypeToC, stars, List.append_nil]⟩
  | .pointer elem, n, h => by
      obtain ⟨k, hk⟩ := @goTypeToC_named elem n h
      refine ⟨k + 1, ?_⟩
      rw [goTypeToC, hk, stars, ← List.append_assoc]
      rfl
  | .basic _, _, h | .array _ _, _, h | .typeAlias _ _ _, _, h | .other _, _, h => by cases h

/-- Other types are scalars and pointers to them. -/
theorem goTypeToC_scalar : ∀ {t : GoType} {c : Text}, baseName t = none → goTypeToC t = .ok c →
    ∃ a rest, c = a :: rest ∧ a ≠ 's'
  | .basic b, c, _, h => by
      cases b <;> cases h <;> exact ⟨_, _, rfl, by decide⟩
  | .pointer elem, c, hbase, h => by
      obtain ⟨c', hc', h⟩ := bind_ok h
      cases h
      obtain ⟨a, rest, rfl, ha⟩ := @goTypeToC_scalar elem c' hbase hc'
      exact ⟨a, rest ++ " *", rfl, ha⟩
  | .named _ _, c, hbase, _ => by cases hbase
  | .array _ _, c, _, h | .typeAlias _ _ _, c, _, h | .other _, c, _, h => by cases h

theorem structTag_scalar {t : GoType} {c : Text} (hbase : baseName t = none)
    (h : goTypeToC t = .ok c) : structTag c = none := by
  obtain ⟨a, rest, rfl, ha⟩ := goTypeToC_scalar hbase h
  exact structTag_head rest ha

/-- The struct is one of the kernel's that the table knows. -/
def KernelTag (tag : Text) : Prop := ∃ row ∈ bpfPackageTypes, row.2.cType = "struct " ++ tag

/-- The types of the table are kernel structs or no structs. -/
theorem structTag_bpf {n : TypeName} {info : BpfTypeInfo} {tag : Text} (k : Nat)
    (h : bpfPackageTypeInfo n = some info) (htag : structTag (info.cType ++ stars k) = some tag) :
    KernelTag tag := by
  have htable : ∀ row ∈ bpfPackageTypes,
      (row.2.cType.take 7 = "struct " ∧ ' ' ∉ row.2.cType.drop 7) ∨
        row.2.cType.head?.any (· != 's') = true := by
    decide
  unfold bpfPackageTypeInfo at h
  split_ifs at h
  obtain ⟨l₁, l₂, hrows, -⟩ := List.lookup_eq_some_iff.mp h
  have hmem : (n.name, info) ∈ bpfPackageTypes := by
    rw [hrows]
    exact List.mem_append_right _ List.mem_cons_self
  rcases htable _ hmem with ⟨htake, hblank⟩ | hhead
  · have hsplit : info.cType = "struct " ++ info.cType.drop 7 := by
      conv_lhs => rw [← List.take_append_drop 7 info.cType]
      rw [htake]
    rw [hsplit, structTag_struct hblank] at htag
    cases htag
    exact ⟨_, hmem, hsplit⟩
  · cases hc : info.cType with
    | nil => rw [hc] at hhead; cases hhead
    | cons a rest =>
        rw [hc] at hhead htag
        have ha : a ≠ 's' := by simpa using hhead
        rw [List.cons_append, structTag_head _ ha] at htag
        cases htag

/-! ## The whole program -/

/-- All types that are printed for a program. -/
def allTypes (prog : Program) : List GoType :=
  (constructs prog).flatMap (printedTypes prog) ++ (emittedFuncs prog).flatMap (localTypes prog)

/-- The struct is one of the kernel or is defined in the output. -/
def KnownTag (defs : List CDef) (tag : Text) : Prop :=
  KernelTag tag ∨ ∃ t ms, .struct t ms ∈ defs ∧ t.name = tag

/-- The named type is in the table, or has the name of a collected struct or of a kernel
struct of the table. -/
def KnownType (prog : Program) (n : TypeName) : Prop :=
  (bpfPackageTypeInfo n).isSome ∨ (∃ t ∈ prog.types, t.name = n.name) ∨ KernelTag n.name

/-- **The C types in the definitions are those of the Go types that are printed.** -/
theorem mem_fileTypes {defs : List CDef} {n n' : Names} (h : fileDefs prog n = some (defs, n'))
    {c : Text} (hc : c ≠ ("void" : Text)) :
    c ∈ fileTypes defs ↔ ∃ t ∈ allTypes prog, goTypeToC t = .ok c := by
  obtain ⟨structs, maps, helpers, programs, n₃, hstructs, hmaps, hhelpers, hprograms, -, -, rfl⟩ :=
    fileDefs_parts h
  have hbody : ∀ fd, (bodyConstructs fd).flatMap (printedTypes prog) = [] := by
    intro fd
    refine List.flatMap_eq_nil_iff.mpr fun c hmem => ?_
    obtain ⟨s, rfl⟩ := bodyConstructs_stmt fd c hmem
    rfl
  have hall : ∀ t, t ∈ allTypes prog ↔
      t ∈ prog.types.flatMap (fun u => printedTypes prog (.type u)) ∨
        t ∈ prog.maps.flatMap (fun m => printedTypes prog (.map m)) ∨
        t ∈ prog.helpers.flatMap (fun f => printedTypes prog (.helper f) ++ localTypes prog f.decl) ∨
        t ∈ prog.programs.flatMap
          (fun p => printedTypes prog (.program p) ++ localTypes prog p.decl) := by
    intro t
    rw [allTypes, constructs, emittedFuncs]
    simp only [List.flatMap_append, List.flatMap_map, List.flatMap_assoc, List.flatMap_cons, hbody,
      List.append_nil, List.mem_append, List.mem_flatMap, and_or_left, exists_or]
    exact iff_of_eq (by ac_rfl)
  have hsplit : c ∈ fileTypes (structs ++ (maps ++ (helpers ++ programs))) ↔
      c ∈ fileTypes structs ∨ c ∈ fileTypes maps ∨ c ∈ fileTypes helpers ∨
        c ∈ fileTypes programs := by
    simp only [fileTypes, List.flatMap_append, List.mem_append]
  rw [hsplit, mem_eachDef shows_struct hstructs c hc, mem_eachDef (@shows_map prog) hmaps c hc,
    mem_eachDef shows_helper hhelpers c hc, mem_eachDef shows_program hprograms c hc]
  simp only [hall, or_and_right, exists_or]

/-- **Every struct tag in the output is defined, exactly when every named type that is
printed, itself or behind pointers, is in the table or has the name of a collected struct
(or of a kernel struct of the table).** -/
theorem tags_closed_iff {label text : Text} {ms : List SourceMapping}
    (hnames : ∀ t ∈ allTypes prog, ∀ n, baseName t = some n → ' ' ∉ n.name)
    (hemit : emit prog label = .ok (text, ms)) :
    ∃ n defs, fileDefs prog ⟨[], 0⟩ = some (defs, n) ∧
      emitActs prog label ⟨[], 0⟩ = .ok ((), n, supportActs prog label ++ defs.flatMap CDef.acts) ∧
      text = (Emitter.after prog (supportActs prog label ++ defs.flatMap CDef.acts)).buf ∧
      ((∀ c ∈ fileTypes defs, ∀ tag, structTag c = some tag → KnownTag defs tag) ↔
        ∀ t ∈ allTypes prog, ∀ n, baseName t = some n → KnownType prog n) := by
  obtain ⟨n, defs, hdefs, hacts, htext⟩ := emit_file hemit
  refine ⟨n, defs, hdefs, hacts, htext, ?_⟩
  have hvoid : ∀ {c tag : Text}, structTag c = some tag → c ≠ ("void" : Text) := by
    rintro c tag htag rfl
    cases htag
  have hdefined : ∀ tag, (∃ t ms, .struct t ms ∈ defs ∧ t.name = tag) ↔
      ∃ t ∈ prog.types, t.name = tag := by
    intro tag
    constructor
    · rintro ⟨t, ms, hmem, hname⟩
      exact ⟨t, (struct_mem_fileDefs hdefs).mp ⟨ms, hmem⟩, hname⟩
    · rintro ⟨t, ht, hname⟩
      obtain ⟨ms, hmem⟩ := (struct_mem_fileDefs hdefs).mpr ht
      exact ⟨t, ms, hmem, hname⟩
  constructor
  · intro hclosed t ht n hn
    -- a named type prints its tag, with a star for each pointer
    obtain ⟨k, hc⟩ := goTypeToC_named hn
    cases hinfo : bpfPackageTypeInfo n with
    | some info => exact .inl (by rw [hinfo]; rfl)
    | none =>
        have htag : structTag (namedToC n ++ stars k) = some n.name := by
          rw [namedToC, hinfo]
          exact structTag_struct (hnames t ht n hn) k
        rcases hclosed _ ((mem_fileTypes hdefs (hvoid htag)).mpr ⟨t, ht, hc⟩) _ htag with
          hkernel | hdef
        · exact .inr (.inr hkernel)
        · exact .inr (.inl ((hdefined _).mp hdef))
  · intro hknown c hc tag htag
    obtain ⟨t, ht, hc⟩ := (mem_fileTypes hdefs (hvoid htag)).mp hc
    cases hbase : baseName t with
    -- a type without a name at its base prints no tag
    | none =>
        rw [structTag_scalar hbase hc] at htag
        cases htag
    | some n =>
        obtain ⟨k, hc'⟩ := goTypeToC_named hbase
        rw [hc] at hc'
        cases hc'
        cases hinfo : bpfPackageTypeInfo n with
        | some info =>
            rw [namedToC, hinfo] at htag
            exact .inl (structTag_bpf k hinfo htag)
        | none =>
            rw [namedToC, hinfo] at htag
            have hstruct := structTag_struct (hnames t ht n hbase) k
            rw [hstruct] at htag
            cases htag
            rcases hknown t ht n hbase with hsome | hdef | hkernel
            · rw [hinfo] at hsome
              cases hsome
            · exact .inr ((hdefined _).mpr hdef)
            · exact .inl hkernel

/-! ## A type that is no struct -/

/-- `func pick(k Kind) Kind { return k }`. -/
def pickKindDecl : FuncDecl where
  pos := 80
  name := ⟨"pick", 85⟩
  recv := none
  typeParams := none
  params := some ⟨89, [⟨[⟨['k'], 90⟩], .ident ⟨"Kind", 92⟩⟩]⟩
  results := some ⟨98, [⟨[], .ident ⟨"Kind", 98⟩⟩]⟩
  body := some ⟨103, [.ret 105 [.ident ⟨['k'], 112⟩]], 114⟩

/-- A file with the helper `pick`, for a type `Kind` with the given underlying type. -/
def kindProgram (kind : Underlying) (types : List UserTypeDecl) : Program where
  position := fun p => ⟨"x.go", p, 1⟩
  imports := []
  info :=
    { uses := fun id =>
        if id.name = ['k'] then some ⟨⟨['k'], 90⟩, .var, .named ⟨some "main", "Kind"⟩ []⟩ else none
      defs := []
      typeOf := fun _ => some (.named ⟨some "main", "Kind"⟩ [])
      underlying := fun _ _ => kind }
  license := "GPL"
  maps := []
  programs := []
  helpers := [⟨"pick", ⟨"x.go", 80, 1⟩, pickKindDecl⟩]
  types := types
  consts := []

/-- `type Kind uint32`, which is not collected. -/
def plainKind : Program := kindProgram (.basic .uint32) []

/-- `type Kind struct { Code uint32 }`. -/
def structKind : Program :=
  kindProgram (.struct [⟨"Code", .basic .uint32, []⟩])
    [⟨"Kind", ⟨"x.go", 60, 1⟩, ⟨some "main", "Kind"⟩, 60⟩]

/-- The signature of `pick` has `struct Kind`, which is not defined. -/
theorem plainKind_undefined :
    ∃ text ms n defs, validate plainKind = [] ∧ emit plainKind "x.go" = .ok (text, ms) ∧
      fileDefs plainKind ⟨[], 0⟩ = some (defs, n) ∧
      emitActs plainKind "x.go" ⟨[], 0⟩ =
        .ok ((), n, supportActs plainKind "x.go" ++ defs.flatMap CDef.acts) ∧
      ∃ c ∈ fileTypes defs, ∃ tag, structTag c = some tag ∧ ¬ KnownTag defs tag := by
  obtain ⟨n, defs, hdefs, hacts, -⟩ := @emit_file plainKind "x.go" _ _ rfl
  refine ⟨_, _, n, defs, validate_eq_nil.mpr rfl, rfl, hdefs, hacts, "struct Kind", ?_, "Kind", rfl, ?_⟩
  · refine (mem_fileTypes hdefs (by decide)).mpr ⟨.named ⟨some "main", "Kind"⟩ [], ?_, rfl⟩
    exact List.mem_append_left _ List.mem_cons_self
  · rintro (hkernel | ⟨t, ms, hmem, -⟩)
    · have htable : ∀ row ∈ bpfPackageTypes, row.2.cType ≠ "struct Kind" := by decide
      obtain ⟨row, hrow, heq⟩ := hkernel
      exact htable row hrow heq
    · cases (struct_mem_fileDefs hdefs).mp ⟨ms, hmem⟩

/-- With a struct `Kind` every tag is defined. -/
theorem structKind_closed :
    ∃ n defs, fileDefs structKind ⟨[], 0⟩ = some (defs, n) ∧
      ∀ c ∈ fileTypes defs, ∀ tag, structTag c = some tag → KnownTag defs tag := by
  have hbase : ∀ t ∈ allTypes structKind, ∀ n, baseName t = some n → n.name = "Kind" := by
    intro t ht n hn
    have htypes : allTypes structKind = [.basic .uint32, .named ⟨some "main", "Kind"⟩ [],
        .named ⟨some "main", "Kind"⟩ []] := rfl
    rw [htypes, List.mem_cons, List.mem_cons, List.mem_singleton] at ht
    rcases ht with rfl | rfl | rfl
    · cases hn
    · cases hn
      rfl
    · cases hn
      rfl
  obtain ⟨n, defs, hdefs, -, -, hiff⟩ :=
    @tags_closed_iff structKind "x.go" _ _
      (fun t ht n hn => by rw [hbase t ht n hn]; decide) rfl
  refine ⟨n, defs, hdefs, hiff.mpr fun t ht n hn => ?_⟩
  exact .inr (.inl ⟨_, List.mem_cons_self, (hbase t ht n hn).symm⟩)

end Gobee
