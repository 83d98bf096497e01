/-
# The emitted file

After the includes, the license and the prelude a file is a list of definitions: structs,
maps, helpers and programs.  Each is given here as a tree, with the members, the map lines,
the parameters and the statements it has, and the actions that write it.

* `out_emitDefs` : **what the emitter writes are the definitions of the file, one after the
  other, and nothing else.**
* `emit_file` : the actions of `Emit` are the support code and the definitions.
-/
import Gobee.Functions
import Gobee.EventLayout

namespace Gobee

open EmitM

variable {prog : Program}

/-! ## Support code -/

/-- The actions of `writeHeader`. -/
def headerActs (source : Text) (withCoRE withEndian : Bool) : List Act :=
  [.writeln "// Code generated by gobee. DO NOT EDIT.",
    .writef ("// source: " ++ source ++ "\n\n")] ++
  (if withCoRE then
    [.writeln "#include \"vmlinux.h\"", .writeln "#include <bpf/bpf_helpers.h>",
      .writeln "#include <bpf/bpf_core_read.h>"]
  else [.writeln "#include <linux/bpf.h>", .writeln "#include <bpf/bpf_helpers.h>"]) ++
  (if withEndian then [.writeln "#include <bpf/bpf_endian.h>"] else []) ++ [.writeln []]

/-- The actions of the prelude loop. -/
def preludeActs (fs : List Text) : List Act :=
  fs.flatMap fun f => [.writeRaw ((bpfPreludeHelpers.lookup f).getD []), .writeln []]

/-- The support code of a program. -/
def supportActs (prog : Program) (label : Text) : List Act :=
  headerActs label (usesKernelFieldAccess prog) (usesEndianHelpers prog) ++
    .writef ("char _license[] SEC(\"license\") = " ++ quoteWith prog.isPrint prog.license ++ ";\n\n") ::
      preludeActs (usedPreludeHelpers prog)

theorem out_writeHeader (source : Text) (withCoRE withEndian : Bool) (n : Names) :
    out (writeHeader source withCoRE withEndian) n =
      some ((), n, headerActs source withCoRE withEndian) := by
  cases withCoRE <;> cases withEndian <;> rfl

theorem out_writePrelude (fs : List Text) (n : Names) :
    out (writePrelude fs) n = some ((), n, preludeActs fs) := by
  induction fs with
  | nil => rfl
  | cons f fs ih =>
      rw [writePrelude, out_bind, writeRaw, out_perform, Option.bind_some, out_bind, writeln,
        out_perform, Option.bind_some, ih]
      rfl

/-- **The actions of `Emit`**: the support code, then the definitions. -/
theorem emit_defs {label text : Text} {ms : List SourceMapping}
    (h : emit prog label = .ok (text, ms)) :
    ∃ n defs, emitActs prog label ⟨[], 0⟩ = .ok ((), n, supportActs prog label ++ defs) ∧
      text = (Emitter.after prog (supportActs prog label ++ defs)).buf ∧
      out (emitDefs prog) ⟨[], 0⟩ = some ((), n, defs) := by
  obtain ⟨⟨_, n, acts⟩, hacts, heq⟩ := bind_ok h
  cases heq
  have hout := out_eq_some.mpr hacts
  rw [emitActs_eq, out_bind, out_writeHeader, Option.bind_some] at hout
  obtain ⟨r, hr, heq⟩ := Option.map_eq_some_iff.mp hout
  rw [out_bind, writeLicense, writef, out_perform, Option.bind_some] at hr
  obtain ⟨r₁, hr₁, rfl⟩ := Option.map_eq_some_iff.mp hr
  rw [out_bind, out_writePrelude, Option.bind_some] at hr₁
  obtain ⟨r₂, hr₂, rfl⟩ := Option.map_eq_some_iff.mp hr₁
  cases heq
  have hacts' : headerActs label (usesKernelFieldAccess prog) (usesEndianHelpers prog) ++
      ([.writef ("char _license[] SEC(\"license\") = " ++ quoteWith prog.isPrint prog.license ++ ";\n\n")] ++
        (preludeActs (usedPreludeHelpers prog) ++ r₂.2.2)) =
      supportActs prog label ++ r₂.2.2 := by
    simp [supportActs]
  rw [hacts'] at hacts ⊢
  exact ⟨_, _, hacts, rfl, hr₂⟩

/-! ## Maps -/

/-- A line `__uint(key, value)` or `__type(key, value)` of a map; a value that is not
computed is written out in the source. -/
structure MapLine where
  form : Text
  key : Text
  value : Text
  computed : Bool

/-- The action that writes a line. -/
def MapLine.act (l : MapLine) : Act :=
  let line : Text := "\t__" ++ l.form ++ "(" ++ l.key ++ ", " ++ l.value
  if l.computed then .writef (line ++ ");\n") else .writeln (line ++ ");")

/-- The size of a map, if one is given. -/
def mapSizeLines (m : MapDecl) : List MapLine :=
  if 0 < m.maxEntries then [⟨"uint", "max_entries", itoa m.maxEntries, true⟩] else []

/-- The line of a value type. -/
def mapValueLine (m : MapDecl) : Option MapLine :=
  (mapValueC m).toOption.map fun valC => ⟨"type", "value", valC, true⟩

/-- The lines after the kind of a map. -/
def mapTypeLines (m : MapDecl) : Option (List MapLine) :=
  if m.type = "ringbuf" then some (mapSizeLines m)
  else if m.type = "queue" ∨ m.type = "stack" ∨ m.type = "bloom_filter" then
    (mapValueLine m).map (· :: mapSizeLines m)
  else if m.type = "prog_array" ∨ m.type = "perf_event_array" ∨ m.type = "devmap" ∨
      m.type = "xskmap" then
    some (⟨"type", "key", "__u32", false⟩ :: ⟨"type", "value", "__u32", false⟩ :: mapSizeLines m)
  else if m.type = "cpumap" then
    some (⟨"type", "key", "__u32", false⟩ ::
      ⟨"type", "value", "struct bpf_cpumap_val", false⟩ :: mapSizeLines m)
  else if m.type = "task_storage" ∨ m.type = "sk_storage" ∨ m.type = "inode_storage" then
    (mapValueLine m).map fun l =>
      [⟨"uint", "map_flags", "BPF_F_NO_PREALLOC", false⟩, ⟨"type", "key", "int", false⟩, l]
  else
    match m.keyType with
    | none => none
    | some key => do
        let keyC ← (goTypeToC key).toOption
        let valC ← (goTypeToC? m.valType).toOption
        return ⟨"type", "key", keyC, true⟩ :: ⟨"type", "value", valC, true⟩ :: mapSizeLines m

/-- The lines of a map. -/
def mapLines (m : MapDecl) : Option (List MapLine) := do
  let kind ← (mapKindC m).toOption
  let ls ← mapTypeLines m
  return ⟨"uint", "type", kind, true⟩ :: ls

/-- The last line of a map. -/
def mapEndAct (m : MapDecl) : Act := .writef ("\x7d " ++ m.name ++ " SEC(\".maps\");\n\n")

/-- The actions of `writeMap`. -/
def mapActs (m : MapDecl) (ls : List MapLine) : List Act :=
  (m.spec.map Act.recordPos).toList ++ .writeln "struct \x7b" :: (ls.map MapLine.act ++ [mapEndAct m])

theorem out_writeMapEnd (m : MapDecl) (n : Names) :
    out (writeMapEnd m) n = some ((), n, (mapSizeLines m).map MapLine.act ++ [mapEndAct m]) := by
  unfold writeMapEnd mapSizeLines
  by_cases hmax : 0 < m.maxEntries
  · rw [if_pos hmax, if_pos hmax]
    rfl
  · rw [if_neg hmax, if_neg hmax]
    rfl

theorem out_writeMapTypes (m : MapDecl) (n : Names) :
    out (writeMapTypes m) n =
      (mapTypeLines m).map fun ls => ((), n, ls.map MapLine.act ++ [mapEndAct m]) := by
  unfold writeMapTypes mapTypeLines mapValueLine
  split_ifs
  · exact out_writeMapEnd m n
  · rw [out_bind, out_lift]
    cases (mapValueC m).toOption with
    | none => rfl
    | some valC => simp [out_bind, writef, out_writeMapEnd, MapLine.act]
  · simp [out_bind, writeln, out_writeMapEnd, MapLine.act]
  · simp [out_bind, writeln, out_writeMapEnd, MapLine.act]
  · rw [out_bind, out_lift]
    cases (mapValueC m).toOption with
    | none => rfl
    | some valC => simp [out_bind, writeln, writef, mapEndAct, MapLine.act]
  · cases m.keyType with
    | none => rfl
    | some key =>
        dsimp only
        rw [out_bind, out_lift, toOption_wrapError]
        cases (goTypeToC key).toOption with
        | none => rfl
        | some keyC =>
            simp only [Option.map_some, Option.bind_some, Option.bind_eq_bind]
            rw [out_bind, out_lift, toOption_wrapError]
            cases (goTypeToC? m.valType).toOption with
            | none => rfl
            | some valC => simp [out_bind, writef, out_writeMapEnd, MapLine.act]

/-- **`writeMap` writes the lines of the map.** -/
theorem out_writeMap (m : MapDecl) (n : Names) :
    out (writeMap m) n = (mapLines m).map fun ls => ((), n, mapActs m ls) := by
  have hdef : out (writeMapDef m) n = (mapLines m).map fun ls =>
      ((), n, .writeln "struct \x7b" :: (ls.map MapLine.act ++ [mapEndAct m])) := by
    rw [writeMapDef, mapLines, out_bind, out_lift]
    cases (mapKindC m).toOption with
    | none => rfl
    | some kind =>
        simp only [Option.map_some, Option.bind_some, Option.bind_eq_bind]
        rw [out_bind, writeln, out_perform, Option.bind_some, out_bind, writef, out_perform,
          Option.bind_some, out_writeMapTypes]
        cases mapTypeLines m with
        | none => rfl
        | some ls => simp [MapLine.act]
  unfold writeMap mapActs
  cases m.spec with
  | none => exact hdef
  | some pos =>
      dsimp only
      rw [out_bind, recordPos, out_perform, Option.bind_some, hdef]
      cases mapLines m <;> rfl

/-! ## Functions -/

/-- A parameter: its C type, and the identifier it is declared for if it has a name. -/
structure EmittedParam where
  cType : Text
  id : Option Ident

/-- The text of a parameter. -/
def EmittedParam.text (p : EmittedParam) : Text :=
  match p.id with
  | none => p.cType
  | some id => declString p.cType id.name

/-- The parameters of a field. -/
def fieldParams (cType : Text) (ids : List Ident) : List EmittedParam :=
  if ids.isEmpty then [⟨cType, none⟩] else ids.map fun id => ⟨cType, some id⟩

/-- The parameters of a helper. -/
def paramTrees (prog : Program) : List Field → Option (List EmittedParam)
  | [] => some []
  | field :: rest => do
      let cType ← (goTypeToC? (prog.info.typeOf field.type)).toOption
      let params ← paramTrees prog rest
      return fieldParams cType field.names ++ params

/-- The parameter list of a helper. -/
def paramListText (params : List EmittedParam) : Text :=
  if params.isEmpty then "void" else join ", " (params.map EmittedParam.text)

/-- The parameter of a program. -/
def programParamTree (prog : Program) (p : ProgramFunc) : Option EmittedParam :=
  match p.decl.params with
  | some ⟨_, [field]⟩ =>
      match field.names with
      | [id] => (goTypeToC? (prog.info.typeOf field.type)).toOption.map fun c => ⟨c, some id⟩
      | _ => none
  | _ => none

/-- The statements of a function. -/
def bodyTrees (prog : Program) (fd : FuncDecl) (n : Names) : Option (List CStmt × Names) := do
  let body ← fd.body
  blockTree prog body.list n

theorem texts_fieldParams (cType : Text) (ids : List Ident) :
    (fieldParams cType ids).map EmittedParam.text =
      if ids.isEmpty then [cType] else ids.map fun id => declString cType id.name := by
  unfold fieldParams
  split
  · rfl
  · rw [List.map_map]
    rfl

theorem texts_helperParams (h : HelperFunc) (fields : List Field) :
    (helperParams prog h fields).toOption =
      (paramTrees prog fields).map fun params => params.map EmittedParam.text := by
  induction fields with
  | nil => rfl
  | cons field rest ih =>
      have hfield := toOption_wrapError (h.pos.string ++ ": " ++ h.name ++ " param: " ++ ·)
        (goTypeToC? (prog.info.typeOf field.type))
      rw [paramTrees, helperParams, toOption_bind, hfield]
      cases (goTypeToC? (prog.info.typeOf field.type)).toOption with
      | none => rfl
      | some c =>
          simp only [Option.bind_some, Option.bind_eq_bind]
          rw [toOption_bind, ih]
          cases paramTrees prog rest with
          | none => rfl
          | some params =>
              show _ = some ((fieldParams c field.names ++ params).map EmittedParam.text)
              rw [List.map_append, texts_fieldParams]
              split <;> rfl

theorem text_programParam (p : ProgramFunc) :
    (programParam prog p).toOption.map (fun q => declString q.1 q.2) =
      (programParamTree prog p).map EmittedParam.text := by
  unfold programParam programParamTree
  rcases p.decl.params with _ | ⟨pos, _ | ⟨field, _ | ⟨field', rest⟩⟩⟩
  · rfl
  · rfl
  · dsimp only
    rcases field.names with _ | ⟨id, _ | ⟨id', rest⟩⟩
    · rfl
    · dsimp only
      rw [toOption_bind, toOption_wrapError]
      cases (goTypeToC? (prog.info.typeOf field.type)).toOption <;> rfl
    · rfl
  · rfl

theorem out_writeBody (fd : FuncDecl) (n : Names) :
    out (writeBody prog fd.body) n =
      (bodyTrees prog fd n).map fun r => ((), r.2, blockActs r.1) := by
  unfold writeBody bodyTrees
  cases fd.body with
  | none => rfl
  | some body => exact out_writeBlock prog body.list n

/-! ## Definitions -/

/-- A definition of the output. -/
inductive CDef where
  | struct (t : UserTypeDecl) (ms : List Member)
  | map (m : MapDecl) (ls : List MapLine)
  | helper (h : HelperFunc) (ret : Text) (params : List EmittedParam) (body : List CStmt)
  | program (p : ProgramFunc) (sec : Text) (param : EmittedParam) (body : List CStmt)

/-- The line in front of the body of a helper. -/
def helperHead (h : HelperFunc) (ret : Text) (params : List EmittedParam) : Text :=
  "static __always_inline " ++ ret ++ " " ++ h.name ++ "(" ++ paramListText params ++ ") \x7b\n"

/-- The line in front of the body of a program. -/
def programHead (p : ProgramFunc) (param : EmittedParam) : Text :=
  "int " ++ p.name ++ "(" ++ param.text ++ ") \x7b\n"

/-- The actions that write a definition. -/
def CDef.acts : CDef → List Act
  | .struct t ms => userTypeActs t ms
  | .map m ls => mapActs m ls
  | .helper h ret params body =>
      .recordPos h.decl.pos :: .writef (helperHead h ret params) :: .indent ::
        (blockActs body ++ [.dedent, .writeln "\x7d", .writeln []])
  | .program p sec param body =>
      .recordPos p.decl.pos :: .writef ("SEC(" ++ sec ++ ")\n") :: .writef (programHead p param) ::
        .indent :: (blockActs body ++ [.dedent, .writeln "\x7d"])

/-- The definition of a struct. -/
def structDef (prog : Program) (t : UserTypeDecl) (n : Names) : Option (CDef × Names) :=
  (members prog t).map fun ms => (.struct t ms, n)

/-- The definition of a map. -/
def mapDef (m : MapDecl) (n : Names) : Option (CDef × Names) :=
  (mapLines m).map fun ls => (.map m ls, n)

/-- The definition of a helper. -/
def helperDef (prog : Program) (h : HelperFunc) (n : Names) : Option (CDef × Names) := do
  let ret ← (helperReturn prog h).toOption
  let params ← paramTrees prog (fieldsOf h.decl.params)
  let (body, n') ← bodyTrees prog h.decl n
  return (.helper h ret params body, n')

/-- The definition of a program. -/
def programDef (prog : Program) (p : ProgramFunc) (n : Names) : Option (CDef × Names) := do
  let param ← programParamTree prog p
  let (body, n') ← bodyTrees prog p.decl n
  return (.program p (quoteWith prog.isPrint p.section_) param body, n')

/-- The definitions of a list, with the names handed on. -/
def eachDef {γ : Type} (f : γ → Names → Option (CDef × Names)) :
    List γ → Names → Option (List CDef × Names)
  | [], n => some ([], n)
  | x :: rest, n => do
      let (d, n₁) ← f x n
      let (ds, n₂) ← eachDef f rest n₁
      return (d :: ds, n₂)

/-- **The definitions of a file**, and the names after them. -/
def fileDefs (prog : Program) (n : Names) : Option (List CDef × Names) := do
  let (structs, n₁) ← eachDef (structDef prog) prog.types n
  let (maps, n₂) ← eachDef mapDef prog.maps n₁
  let (helpers, n₃) ← eachDef (helperDef prog) prog.helpers n₂
  let (programs, n₄) ← eachDef (programDef prog) prog.programs n₃
  return (structs ++ (maps ++ (helpers ++ programs)), n₄)

/-- The computation writes the definition. -/
def WritesDef {γ : Type} (f : γ → EmitM Unit) (g : γ → Names → Option (CDef × Names)) : Prop :=
  ∀ x n, out (f x) n = (g x n).map fun r => ((), r.2, r.1.acts)

theorem writesDef_struct : WritesDef (writeUserType prog) (structDef prog) := by
  intro t n
  rw [out_writeUserType, structDef, Option.map_map]
  rfl

theorem writesDef_map : WritesDef writeMap mapDef := by
  intro m n
  rw [out_writeMap, mapDef, Option.map_map]
  rfl

/-- The head of a function and its body. -/
theorem out_function (head : Text) (fd : FuncDecl) (m : EmitM Unit) (post : List Act)
    (hm : ∀ n, out m n = some ((), n, post)) (n : Names) :
    out (writef head >>= fun _ => indented (writeBody prog fd.body) >>= fun _ => m) n =
      (bodyTrees prog fd n).map fun r =>
        ((), r.2, .writef head :: .indent :: (blockActs r.1 ++ .dedent :: post)) := by
  rw [out_bind, writef, out_perform, Option.bind_some, out_bind, out_indented, out_writeBody]
  cases bodyTrees prog fd n with
  | none => rfl
  | some r => simp [hm]

theorem writesDef_helper : WritesDef (writeHelper prog) (helperDef prog) := by
  intro h n
  rw [writeHelper, helperDef, out_bind, recordPos, out_perform, Option.bind_some, out_bind, out_lift]
  cases (helperReturn prog h).toOption with
  | none => rfl
  | some ret =>
      simp only [Option.map_some, Option.bind_some, Option.bind_eq_bind]
      rw [out_bind, out_lift, texts_helperParams]
      cases paramTrees prog (fieldsOf h.decl.params) with
      | none => rfl
      | some params =>
          have hhead : (if (params.map EmittedParam.text).isEmpty then ("void" : Text)
              else join ", " (params.map EmittedParam.text)) = paramListText params := by
            rw [List.isEmpty_map]
            rfl
          simp only [Option.map_some, Option.bind_some, hhead]
          rw [out_function _ h.decl _ [.writeln "\x7d", .writeln []] fun n => rfl]
          cases bodyTrees prog h.decl n with
          | none => rfl
          | some r => rfl

theorem writesDef_program : WritesDef (writeProgram prog) (programDef prog) := by
  intro p n
  have hparam := @text_programParam prog p
  rw [writeProgram, programDef, out_bind, recordPos, out_perform, Option.bind_some, out_bind,
    writef, out_perform, Option.bind_some, out_bind, out_lift]
  cases hq : (programParam prog p).toOption with
  | none =>
      rw [hq] at hparam
      rw [Option.map_eq_none_iff.mp hparam.symm]
      rfl
  | some q =>
      rw [hq] at hparam
      obtain ⟨param, hparam, htext⟩ := Option.map_eq_some_iff.mp hparam.symm
      rw [hparam]
      simp only [Option.map_some, Option.bind_some, Option.bind_eq_bind, ← htext]
      rw [out_function _ p.decl _ [.writeln "\x7d"] fun n => rfl]
      cases bodyTrees prog p.decl n with
      | none => rfl
      | some r => rfl

theorem out_forEach {γ : Type} {f : γ → EmitM Unit} {g : γ → Names → Option (CDef × Names)}
    (h : WritesDef f g) (xs : List γ) :
    ∀ n, out (forEach f xs) n = (eachDef g xs n).map fun r => ((), r.2, r.1.flatMap CDef.acts) := by
  induction xs with
  | nil => exact fun n => rfl
  | cons x rest ih =>
      intro n
      rw [forEach, eachDef, out_bind, h]
      cases g x n with
      | none => rfl
      | some r =>
          simp only [Option.map_some, Option.bind_some, Option.bind_eq_bind]
          rw [ih]
          cases eachDef g rest r.2 with
          | none => rfl
          | some q => rfl

/-- **The emitter writes the definitions of the file and nothing else.** -/
theorem out_emitDefs (n : Names) :
    out (emitDefs prog) n =
      (fileDefs prog n).map fun r => ((), r.2, r.1.flatMap CDef.acts) := by
  rw [emitDefs, fileDefs, out_bind, out_forEach writesDef_struct]
  cases eachDef (structDef prog) prog.types n with
  | none => rfl
  | some r₁ =>
      simp only [Option.map_some, Option.bind_some, Option.bind_eq_bind]
      rw [out_bind, out_forEach writesDef_map]
      cases eachDef mapDef prog.maps r₁.2 with
      | none => rfl
      | some r₂ =>
          simp only [Option.map_some, Option.bind_some]
          rw [out_bind, out_forEach writesDef_helper]
          cases eachDef (helperDef prog) prog.helpers r₂.2 with
          | none => rfl
          | some r₃ =>
              simp only [Option.map_some, Option.bind_some]
              rw [out_forEach writesDef_program]
              cases eachDef (programDef prog) prog.programs r₃.2 with
              | none => rfl
              | some r₄ => simp [List.flatMap_append]

/-- **The actions of `Emit`** are the support code and the definitions of the file. -/
theorem emit_file {label text : Text} {ms : List SourceMapping}
    (h : emit prog label = .ok (text, ms)) :
    ∃ n defs, fileDefs prog ⟨[], 0⟩ = some (defs, n) ∧
      emitActs prog label ⟨[], 0⟩ = .ok ((), n, supportActs prog label ++ defs.flatMap CDef.acts) ∧
      text = (Emitter.after prog (supportActs prog label ++ defs.flatMap CDef.acts)).buf := by
  obtain ⟨n, acts, hacts, htext, hout⟩ := emit_defs h
  rw [out_emitDefs] at hout
  obtain ⟨⟨defs, n'⟩, hdefs, heq⟩ := Option.map_eq_some_iff.mp hout
  cases heq
  exact ⟨_, defs, hdefs, hacts, htext⟩

/-! ## Definitions and what they are written for -/

/-- A definition is written for an element of the list. -/
theorem exists_eachDef {γ : Type} {g : γ → Names → Option (CDef × Names)} {d : CDef} :
    ∀ {xs : List γ} {n n' : Names} {ds : List CDef}, eachDef g xs n = some (ds, n') → d ∈ ds →
      ∃ x ∈ xs, ∃ n₁ n₂, g x n₁ = some (d, n₂)
  | [], n, n', ds, h, hd => by
      cases h
      cases hd
  | x :: rest, n, n', ds, h, hd => by
      obtain ⟨⟨d', n₁⟩, hd', h⟩ := Option.bind_eq_some_iff.mp h
      obtain ⟨⟨ds', n₂⟩, hds, h⟩ := Option.bind_eq_some_iff.mp h
      cases h
      rcases List.mem_cons.mp hd with rfl | hd
      · exact ⟨x, List.mem_cons_self, n, n₁, hd'⟩
      · obtain ⟨y, hy, hdef⟩ := exists_eachDef hds hd
        exact ⟨y, List.mem_cons_of_mem _ hy, hdef⟩

/-- Every element of the list has its definition. -/
theorem eachDef_exists {γ : Type} {g : γ → Names → Option (CDef × Names)} {x : γ} :
    ∀ {xs : List γ} {n n' : Names} {ds : List CDef}, eachDef g xs n = some (ds, n') → x ∈ xs →
      ∃ d ∈ ds, ∃ n₁ n₂, g x n₁ = some (d, n₂)
  | [], n, n', ds, h, hx => by cases hx
  | y :: rest, n, n', ds, h, hx => by
      obtain ⟨⟨d, n₁⟩, hd, h⟩ := Option.bind_eq_some_iff.mp h
      obtain ⟨⟨ds', n₂⟩, hds, h⟩ := Option.bind_eq_some_iff.mp h
      cases h
      rcases List.mem_cons.mp hx with rfl | hx
      · exact ⟨d, List.mem_cons_self, n, n₁, hd⟩
      · obtain ⟨d', hd', hdef⟩ := eachDef_exists hds hx
        exact ⟨d', List.mem_cons_of_mem _ hd', hdef⟩

/-! ## Bodies -/

/-- The body of a function. -/
def CDef.body? : CDef → Option (List CStmt)
  | .helper _ _ _ body | .program _ _ _ body => some body
  | _ => none

/-- A list without functions has no bodies. -/
theorem bodies_eachDef_none {γ : Type} {g : γ → Names → Option (CDef × Names)}
    (hg : ∀ x n d n', g x n = some (d, n') → d.body? = none ∧ n' = n) :
    ∀ {xs : List γ} {n n' : Names} {ds : List CDef}, eachDef g xs n = some (ds, n') →
      ds.filterMap CDef.body? = [] ∧ n' = n
  | [], n, n', ds, h => by
      cases h
      exact ⟨rfl, rfl⟩
  | x :: rest, n, n', ds, h => by
      obtain ⟨⟨d, n₁⟩, hd, h⟩ := Option.bind_eq_some_iff.mp h
      obtain ⟨⟨ds', n₂⟩, hds, h⟩ := Option.bind_eq_some_iff.mp h
      cases h
      obtain ⟨hbody, rfl⟩ := hg x n d n₁ hd
      obtain ⟨hrest, rfl⟩ := bodies_eachDef_none hg hds
      exact ⟨by rw [List.filterMap_cons, hbody, hrest], rfl⟩

/-- The bodies of a list of functions. -/
theorem bodies_eachDef {γ : Type} {g : γ → Names → Option (CDef × Names)} {decl : γ → FuncDecl}
    (hg : ∀ x n d n', g x n = some (d, n') →
      ∃ body, d.body? = some body ∧ bodyTrees prog (decl x) n = some (body, n')) :
    ∀ {xs : List γ} {n n' : Names} {ds : List CDef}, eachDef g xs n = some (ds, n') →
      functionTrees prog (xs.map decl) n = some (ds.filterMap CDef.body?, n')
  | [], n, n', ds, h => by
      cases h
      rfl
  | x :: rest, n, n', ds, h => by
      obtain ⟨⟨d, n₁⟩, hd, h⟩ := Option.bind_eq_some_iff.mp h
      obtain ⟨⟨ds', n₂⟩, hds, h⟩ := Option.bind_eq_some_iff.mp h
      cases h
      obtain ⟨body, hbody, htrees⟩ := hg x n d n₁ hd
      obtain ⟨b, hb, htrees⟩ := Option.bind_eq_some_iff.mp htrees
      rw [List.filterMap_cons, hbody]
      exact functionTrees_cons.mpr ⟨b, body, n₁, _, hb, htrees, bodies_eachDef hg hds, rfl⟩

theorem body_helperDef (h : HelperFunc) (n : Names) (d : CDef) (n' : Names)
    (hd : helperDef prog h n = some (d, n')) :
    ∃ body, d.body? = some body ∧ bodyTrees prog h.decl n = some (body, n') := by
  obtain ⟨ret, -, hd⟩ := Option.bind_eq_some_iff.mp hd
  obtain ⟨params, -, hd⟩ := Option.bind_eq_some_iff.mp hd
  obtain ⟨⟨body, n₁⟩, hbody, hd⟩ := Option.bind_eq_some_iff.mp hd
  cases hd
  exact ⟨body, rfl, hbody⟩

theorem body_programDef (p : ProgramFunc) (n : Names) (d : CDef) (n' : Names)
    (hd : programDef prog p n = some (d, n')) :
    ∃ body, d.body? = some body ∧ bodyTrees prog p.decl n = some (body, n') := by
  obtain ⟨param, -, hd⟩ := Option.bind_eq_some_iff.mp hd
  obtain ⟨⟨body, n₁⟩, hbody, hd⟩ := Option.bind_eq_some_iff.mp hd
  cases hd
  exact ⟨body, rfl, hbody⟩

/-- The parts of a file. -/
theorem fileDefs_parts {n n' : Names} {defs : List CDef} (h : fileDefs prog n = some (defs, n')) :
    ∃ structs maps helpers programs n₃,
      eachDef (structDef prog) prog.types n = some (structs, n) ∧
      eachDef mapDef prog.maps n = some (maps, n) ∧
      eachDef (helperDef prog) prog.helpers n = some (helpers, n₃) ∧
      eachDef (programDef prog) prog.programs n₃ = some (programs, n') ∧
      structs.filterMap CDef.body? = [] ∧ maps.filterMap CDef.body? = [] ∧
      defs = structs ++ (maps ++ (helpers ++ programs)) := by
  obtain ⟨⟨structs, n₁⟩, hstructs, h⟩ := Option.bind_eq_some_iff.mp h
  obtain ⟨⟨maps, n₂⟩, hmaps, h⟩ := Option.bind_eq_some_iff.mp h
  obtain ⟨⟨helpers, n₃⟩, hhelpers, h⟩ := Option.bind_eq_some_iff.mp h
  obtain ⟨⟨programs, n₄⟩, hprograms, h⟩ := Option.bind_eq_some_iff.mp h
  cases h
  obtain ⟨hs, rfl⟩ := bodies_eachDef_none (fun t n d n' hd => by
    obtain ⟨ms, -, heq⟩ := Option.map_eq_some_iff.mp hd
    cases heq
    exact ⟨rfl, rfl⟩) hstructs
  obtain ⟨hm, rfl⟩ := bodies_eachDef_none (fun m n d n' hd => by
    obtain ⟨ls, -, heq⟩ := Option.map_eq_some_iff.mp hd
    cases heq
    exact ⟨rfl, rfl⟩) hmaps
  exact ⟨structs, maps, helpers, programs, n₃, hstructs, hmaps, hhelpers, hprograms, hs, hm, rfl⟩

/-- The bodies of the definitions are those of the emitted functions. -/
theorem functionTrees_fileDefs {n n' : Names} {defs : List CDef}
    (h : fileDefs prog n = some (defs, n')) :
    functionTrees prog (emittedFuncs prog) n = some (defs.filterMap CDef.body?, n') := by
  obtain ⟨structs, maps, helpers, programs, n₃, -, -, hhelpers, hprograms, hs, hm, rfl⟩ :=
    fileDefs_parts h
  have htrees := functionTrees_append (bodies_eachDef body_helperDef hhelpers)
    (bodies_eachDef body_programDef hprograms)
  rw [List.filterMap_append, List.filterMap_append, List.filterMap_append, hs, hm]
  exact htrees

/-! ## Structs and maps of a file -/

/-- A struct or a map of the file stands among the first definitions. -/
theorem mem_fileDefs {defs : List CDef} {n n' : Names} (h : fileDefs prog n = some (defs, n'))
    {d : CDef} (hd : d.body? = none) :
    d ∈ defs ↔ ∃ structs maps, eachDef (structDef prog) prog.types n = some (structs, n) ∧
      eachDef mapDef prog.maps n = some (maps, n) ∧ (d ∈ structs ∨ d ∈ maps) := by
  obtain ⟨structs, maps, helpers, programs, n₃, hstructs, hmaps, hhelpers, hprograms, -, -, rfl⟩ :=
    fileDefs_parts h
  have hhelper : d ∉ helpers := fun hmem => by
    obtain ⟨f, -, n₁, n₂, hf⟩ := exists_eachDef hhelpers hmem
    obtain ⟨body, hbody, -⟩ := body_helperDef f n₁ d n₂ hf
    rw [hd] at hbody
    cases hbody
  have hprogram : d ∉ programs := fun hmem => by
    obtain ⟨p, -, n₁, n₂, hp⟩ := exists_eachDef hprograms hmem
    obtain ⟨body, hbody, -⟩ := body_programDef p n₁ d n₂ hp
    rw [hd] at hbody
    cases hbody
  simp only [List.mem_append, hhelper, hprogram, or_false]
  constructor
  · exact fun hmem => ⟨structs, maps, hstructs, hmaps, hmem⟩
  · rintro ⟨structs', maps', hs, hm, hmem⟩
    rw [hstructs] at hs
    rw [hmaps] at hm
    cases hs
    cases hm
    exact hmem

/-- An emitted struct has the members of its type. -/
theorem members_of_struct {defs : List CDef} {n n' : Names} (h : fileDefs prog n = some (defs, n'))
    {t : UserTypeDecl} {ms : List Member} (hmem : .struct t ms ∈ defs) :
    t ∈ prog.types ∧ members prog t = some ms := by
  obtain ⟨structs, maps, hstructs, hmaps, hd | hd⟩ := (mem_fileDefs h rfl).mp hmem
  · obtain ⟨u, hu, n₁, n₂, hdef⟩ := exists_eachDef hstructs hd
    obtain ⟨ms', hms, heq⟩ := Option.map_eq_some_iff.mp hdef
    cases heq
    exact ⟨hu, hms⟩
  · obtain ⟨m, -, n₁, n₂, hdef⟩ := exists_eachDef hmaps hd
    obtain ⟨ls, -, heq⟩ := Option.map_eq_some_iff.mp hdef
    cases heq

/-- The structs of a file are its user types. -/
theorem struct_mem_fileDefs {defs : List CDef} {n n' : Names}
    (h : fileDefs prog n = some (defs, n')) {t : UserTypeDecl} :
    (∃ ms, .struct t ms ∈ defs) ↔ t ∈ prog.types := by
  constructor
  · rintro ⟨ms, hmem⟩
    exact (members_of_struct h hmem).1
  · intro ht
    obtain ⟨structs, maps, -, -, n₃, hstructs, hmaps, -, -, -, -, -⟩ := fileDefs_parts h
    obtain ⟨d, hd, n₁, n₂, hdef⟩ := eachDef_exists hstructs ht
    obtain ⟨ms, -, heq⟩ := Option.map_eq_some_iff.mp hdef
    cases heq
    exact ⟨ms, (mem_fileDefs h rfl).mpr ⟨structs, maps, hstructs, hmaps, .inl hd⟩⟩

/-- An emitted map has the lines of its declaration. -/
theorem lines_of_map {defs : List CDef} {n n' : Names} (h : fileDefs prog n = some (defs, n'))
    {m : MapDecl} {ls : List MapLine} (hmem : .map m ls ∈ defs) :
    m ∈ prog.maps ∧ mapLines m = some ls := by
  obtain ⟨structs, maps, hstructs, hmaps, hd | hd⟩ := (mem_fileDefs h rfl).mp hmem
  · obtain ⟨t, -, n₁, n₂, hdef⟩ := exists_eachDef hstructs hd
    obtain ⟨ms, -, heq⟩ := Option.map_eq_some_iff.mp hdef
    cases heq
  · obtain ⟨m', hm', n₁, n₂, hdef⟩ := exists_eachDef hmaps hd
    obtain ⟨ls', hls, heq⟩ := Option.map_eq_some_iff.mp hdef
    cases heq
    exact ⟨hm', hls⟩

end Gobee
