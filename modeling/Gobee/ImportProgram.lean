/-
# A program whose imports are renamed

The file level: user types and maps print no expression, and the functions print their
bodies one after another.

* `grown_emitDefs` : what `Emit` writes after the support code;
* `importNames_iff` : **the names of the imports do not matter, exactly when the program is
  not emitted or no printed expression shows one.**
-/
import Gobee.ImportEmit

namespace Gobee

open CSyntax EmitM

/-! ## The text that actions write -/

/-- What a list of actions writes, from an indentation on. -/
def written : Nat → List Act → Text
  | _, [] => []
  | k, .writef s :: as => s ++ written k as
  | k, .writeln s :: as => s ++ '\n' :: written k as
  | k, .writeIndent :: as => List.replicate k '\t' ++ written k as
  | k, .writeRaw s :: as => s ++ written k as
  | k, .recordPos _ :: as => written k as
  | k, .indent :: as => written (k + 1) as
  | k, .dedent :: as => written (k - 1) as

theorem buf_acts (prog : Program) (e : Emitter) (as : List Act) :
    (e.acts prog as).buf = e.buf ++ written e.indent as := by
  induction as generalizing e with
  | nil => exact (List.append_nil _).symm
  | cons a as ih =>
      rw [Emitter.acts, List.foldl_cons]
      refine (ih _).trans ?_
      cases a with
      | recordPos p =>
          rw [Emitter.act]
          split_ifs <;> rfl
      | _ => simp [Emitter.act, written]

theorem written_writeln_writef (k : Nat) (s t : Text) (as : List Act) :
    written k (.writeln s :: .writef t :: as) = (s ++ '\n' :: t) ++ written k as :=
  (List.append_assoc s ('\n' :: t) (written k as)).symm

/-- Positions leave no trace in the text. -/
theorem written_filter (k : Nat) (as : List Act) :
    written k (as.filter Act.isText) = written k as := by
  induction as generalizing k with
  | nil => rfl
  | cons a as ih => cases a <;> simp [List.filter_cons, written, Act.isText, ih]

theorem size_le_written (k : Nat) (as : List Act) :
    (as.map Act.size).sum ≤ (written k as).length := by
  induction as generalizing k with
  | nil => exact Nat.zero_le _
  | cons a as ih =>
      rw [List.map_cons, List.sum_cons]
      cases a with
      | indent =>
          have hle := ih (k + 1)
          simpa [written, Act.size] using hle
      | dedent =>
          have hle := ih (k - 1)
          simpa [written, Act.size] using hle
      | _ =>
          have hle := ih k
          simp [written, Act.size]
          omega

theorem ActsGrown.written {L : Nat} {c : Prop} {as as' : List Act} (h : ActsGrown L c as as')
    (k : Nat) : Grown L c (written k as) (Gobee.written k as') := by
  refine ⟨fun hc => ?_, fun hc => le_trans (h.long hc) (size_le_written k as')⟩
  rw [← written_filter k as, ← written_filter k as', h.same hc]

/-! ## Methods of the emitter -/

/-- Two methods that both go through end with the same names, and write texts that stay the
same or become long. -/
def StepGrown (move : Pos → Pos) (L : Nat) (prog : Program) (c : Prop) (m m' : EmitM Unit) : Prop :=
  ∀ n r r', AliasesApart prog n.aliases → out m n = some r → out m' (n.moved move) = some r' →
    RunGrown move L prog c r.2.1 r'.2.1 r.2.2 r'.2.2

section

variable {tables : UnicodeTables} {ren : Ident → Text} {move : Pos → Pos} {L : Nat}
  {prog prog' : Program} {c d : Prop}

theorem StepGrown.of_iff {m m' : EmitM Unit} (h : StepGrown move L prog c m m') (hcd : d ↔ c) :
    StepGrown move L prog d m m' := fun n r r' haliases hr hr' =>
  (h n r r' haliases hr hr').of_iff hcd

theorem StepGrown.bind {m m' k k' : EmitM Unit} (hm : StepGrown move L prog c m m')
    (hk : StepGrown move L prog d k k') :
    StepGrown move L prog (c ∧ d) (m >>= fun _ => k) (m' >>= fun _ => k') := by
  intro n r r' haliases hr hr'
  rw [out_bind] at hr hr'
  obtain ⟨q, hq, hr⟩ := Option.bind_eq_some_iff.mp hr
  obtain ⟨t, ht, rfl⟩ := Option.map_eq_some_iff.mp hr
  obtain ⟨q', hq', hr'⟩ := Option.bind_eq_some_iff.mp hr'
  obtain ⟨t', ht', rfl⟩ := Option.map_eq_some_iff.mp hr'
  obtain ⟨hnames, hapart, hacts⟩ := hm n q q' haliases hq hq'
  rw [hnames] at ht'
  obtain ⟨hnames', hapart', hacts'⟩ := hk q.2.1 t t' hapart ht ht'
  exact ⟨hnames', hapart', hacts.append hacts'⟩

theorem StepGrown.perform (a : Act) :
    StepGrown move L prog True (EmitM.perform a) (EmitM.perform a) := by
  intro n r r' haliases hr hr'
  cases hr
  cases hr'
  exact ⟨rfl, haliases, ActsGrown.refl _⟩

theorem StepGrown.pure : StepGrown move L prog True (Pure.pure ()) (Pure.pure ()) := by
  intro n r r' haliases hr hr'
  cases hr
  cases hr'
  exact ⟨rfl, haliases, ActsGrown.refl _⟩

theorem StepGrown.fail {m : EmitM Unit} (msg : Text) :
    StepGrown move L prog c (EmitM.fail msg) m := by
  intro n r r' haliases hr hr'
  cases hr

/-- The same action before both. -/
theorem StepGrown.after (a : Act) {k k' : EmitM Unit} (hk : StepGrown move L prog c k k') :
    StepGrown move L prog c (EmitM.perform a >>= fun _ => k)
      (EmitM.perform a >>= fun _ => k') :=
  ((StepGrown.perform a).bind hk).of_iff (iff_of_eq (true_and c)).symm

/-- The same action behind both. -/
theorem StepGrown.before (a : Act) {m m' : EmitM Unit} (hm : StepGrown move L prog c m m') :
    StepGrown move L prog c (m >>= fun _ => EmitM.perform a)
      (m' >>= fun _ => EmitM.perform a) :=
  (hm.bind (StepGrown.perform a)).of_iff (iff_of_eq (and_true c)).symm

/-- A position may be recorded before the first. -/
theorem StepGrown.record_left {p : Pos} {k k' : EmitM Unit} (hk : StepGrown move L prog c k k') :
    StepGrown move L prog c (recordPos p >>= fun _ => k) k' := by
  intro n r r' haliases hr hr'
  rw [out_bind] at hr
  obtain ⟨q, hq, rfl⟩ := Option.map_eq_some_iff.mp hr
  obtain ⟨hnames, hapart, hacts⟩ := hk n q r' haliases hq hr'
  exact ⟨hnames, hapart, hacts.record_left p⟩

/-- A position may be recorded before the second. -/
theorem StepGrown.record_right {p : Pos} {k k' : EmitM Unit} (hk : StepGrown move L prog c k k') :
    StepGrown move L prog c k (recordPos p >>= fun _ => k') := by
  intro n r r' haliases hr hr'
  rw [out_bind] at hr'
  obtain ⟨q', hq', rfl⟩ := Option.map_eq_some_iff.mp hr'
  obtain ⟨hnames, hapart, hacts⟩ := hk n r q' haliases hr hq'
  exact ⟨hnames, hapart, hacts.record_right p⟩

/-- Positions may be recorded before both. -/
theorem StepGrown.record {p q : Pos} {k k' : EmitM Unit} (hk : StepGrown move L prog c k k') :
    StepGrown move L prog c (recordPos p >>= fun _ => k) (recordPos q >>= fun _ => k') :=
  hk.record_left.record_right

/-- The same value before both. -/
theorem StepGrown.lift {α : Type} {x x' : Result α} {f f' : α → EmitM Unit}
    (hx : x'.toOption = x.toOption) (hf : ∀ a, StepGrown move L prog c (f a) (f' a)) :
    StepGrown move L prog c (EmitM.lift x >>= f) (EmitM.lift x' >>= f') := by
  intro n r r' haliases hr hr'
  rw [out_bind, out_lift] at hr hr'
  rw [hx] at hr'
  cases hopt : x.toOption with
  | none => rw [hopt] at hr; cases hr
  | some a =>
      rw [hopt] at hr hr'
      obtain ⟨q, hq, rfl⟩ := Option.map_eq_some_iff.mp hr
      obtain ⟨q', hq', rfl⟩ := Option.map_eq_some_iff.mp hr'
      exact hf a n q q' haliases hq hq'

theorem StepGrown.indented {m m' : EmitM Unit} (hm : StepGrown move L prog c m m') :
    StepGrown move L prog c (Gobee.indented m) (Gobee.indented m') :=
  StepGrown.after _ (hm.before _)

theorem StepGrown.forEach {α : Type} {R : α → α → Prop} {C : α → Prop} {f f' : α → EmitM Unit}
    {xs ys : List α} (h : List.Forall₂ R xs ys)
    (hf : ∀ x ∈ xs, ∀ y, R x y → StepGrown move L prog (C x) (f x) (f' y)) :
    StepGrown move L prog (∀ x ∈ xs, C x) (Gobee.forEach f xs) (Gobee.forEach f' ys) := by
  induction h with
  | nil => exact StepGrown.pure.of_iff (by simp)
  | cons hxy _ ih =>
      have hhead := hf _ List.mem_cons_self _ hxy
      have htail := ih fun x hx => hf x (List.mem_cons_of_mem _ hx)
      exact (hhead.bind htail).of_iff List.forall_mem_cons

/-! ## User types and maps -/

theorem grown_writeFields (t t' : UserTypeDecl) (fields : List StructField) :
    StepGrown move L prog True (writeFields t fields) (writeFields t' fields) := by
  induction fields with
  | nil => exact StepGrown.pure
  | cons f rest ih =>
      refine StepGrown.after _ (StepGrown.lift ?_ fun decl => StepGrown.after _ ih)
      rw [toOption_wrapError, toOption_wrapError]

theorem grown_writeUserType (hunder : prog'.info.underlying = prog.info.underlying)
    {t t' : UserTypeDecl} (hname : t'.name = t.name) (htype : t'.type = t.type) :
    StepGrown move L prog True (writeUserType prog t) (writeUserType prog' t') := by
  refine StepGrown.record ?_
  unfold writeStruct
  rw [hunder, htype, hname]
  split
  · rename_i fields heq
    have hfields := (@grown_writeFields move L prog t t' fields).indented
    exact StepGrown.after _ ((hfields.bind (StepGrown.after _ (StepGrown.perform _))).of_iff
      (iff_of_eq (and_true True)).symm)
  · exact StepGrown.fail _

theorem grown_writeMapEnd {m m' : MapDecl} (hname : m'.name = m.name)
    (hmax : m'.maxEntries = m.maxEntries) :
    StepGrown move L prog True (writeMapEnd m) (writeMapEnd m') := by
  unfold writeMapEnd
  rw [hname, hmax]
  split_ifs
  · exact StepGrown.after _ (StepGrown.perform _)
  · exact StepGrown.perform _

theorem toOption_mapValueC {m m' : MapDecl} (hval : m'.valType = m.valType) :
    (mapValueC m').toOption = (mapValueC m).toOption := by
  unfold mapValueC
  rw [hval]
  cases m.valType with
  | none => rfl
  | some t => simp only [toOption_wrapError]

theorem grown_writeMapTypes {m m' : MapDecl} (hname : m'.name = m.name) (htype : m'.type = m.type)
    (hkey : m'.keyType = m.keyType) (hval : m'.valType = m.valType)
    (hmax : m'.maxEntries = m.maxEntries) :
    StepGrown move L prog True (writeMapTypes m) (writeMapTypes m') := by
  have hend := @grown_writeMapEnd move L prog _ _ hname hmax
  unfold writeMapTypes
  rw [htype, hkey, hname]
  split_ifs
  · exact hend
  · exact StepGrown.lift (toOption_mapValueC hval) fun _ => StepGrown.after _ hend
  · exact StepGrown.after _ (StepGrown.after _ hend)
  · exact StepGrown.after _ (StepGrown.after _ hend)
  · exact StepGrown.lift (toOption_mapValueC hval) fun _ =>
      StepGrown.after _ (StepGrown.after _ (StepGrown.after _ (StepGrown.perform _)))
  · cases m.keyType with
    | none => exact StepGrown.fail _
    | some key =>
        refine StepGrown.lift ?_ fun _ => StepGrown.lift ?_ fun _ =>
          StepGrown.after _ (StepGrown.after _ hend)
        · rw [toOption_wrapError, toOption_wrapError]
        · rw [toOption_wrapError, toOption_wrapError, hval]

theorem grown_writeMap {m m' : MapDecl} (hname : m'.name = m.name) (htype : m'.type = m.type)
    (hkey : m'.keyType = m.keyType) (hval : m'.valType = m.valType)
    (hmax : m'.maxEntries = m.maxEntries) :
    StepGrown move L prog True (writeMap m) (writeMap m') := by
  have hkind : (mapKindC m').toOption = (mapKindC m).toOption := by
    unfold mapKindC
    rw [htype]
    cases mapTypeToC.lookup m.type <;> rfl
  have hdef : StepGrown move L prog True (writeMapDef m) (writeMapDef m') :=
    StepGrown.lift hkind fun _ => StepGrown.after _ (StepGrown.after _
      (grown_writeMapTypes hname htype hkey hval hmax))
  unfold writeMap
  -- a position is recorded only for a map with a specification
  cases m.spec <;> cases m'.spec
  · exact hdef
  · exact StepGrown.record_right hdef
  · exact StepGrown.record_left hdef
  · exact StepGrown.record hdef

/-! ## Functions -/

theorem grown_writeBody (hl : Lockstep tables ren move L prog prog') {fd : FuncDecl}
    (hfd : fd ∈ emittedFuncs prog) :
    StepGrown move L prog (NodesFree prog (funcNodes prog fd)) (writeBody prog fd.body)
      (writeBody prog' (fd.rename (importRenaming prog ren move)).body) := by
  intro n r r' haliases hr hr'
  cases hbody : fd.body with
  | none => rw [hbody] at hr; cases hr
  | some body =>
      rw [hbody, out_eq_some] at hr
      rw [FuncDecl.rename, hbody, out_eq_some] at hr'
      obtain ⟨cs, hcs, hacts⟩ := writeBlock_ok_iff.mp hr
      obtain ⟨cs', hcs', hacts'⟩ := writeBlock_ok_iff.mp hr'
      have hblock := grown_blockTree hl body.list haliases (body_mem hfd hbody) hcs hcs'
      rw [funcNodes, hbody, hacts, hacts']
      exact hblock

theorem declNames_renamed {pc : Text} {ids : List Ident}
    (hids : ∀ id ∈ ids, importOf prog id = none) :
    (ids.map (importRenaming prog ren move).ident).map (fun n => declString pc n.name) =
      ids.map fun n => declString pc n.name := by
  rw [List.map_map]
  refine List.map_congr_left fun id hid => ?_
  rw [Function.comp_apply, name_renamed (hids id hid)]

theorem toOption_helperParams (h : ImportsRenamed tables ren move prog prog') (f f' : HelperFunc)
    {fields : List Field} (htype : ∀ field ∈ fields, .expr field.type ∈ sourceNodes prog)
    (hnames : ∀ field ∈ fields, ∀ id ∈ field.names, importOf prog id = none) :
    (helperParams prog' f' (fields.map (Field.rename (importRenaming prog ren move)))).toOption =
      (helperParams prog f fields).toOption := by
  induction fields with
  | nil => rfl
  | cons field rest ih =>
      obtain ⟨htype, htypes⟩ := List.forall_mem_cons.mp htype
      obtain ⟨hids, hnames⟩ := List.forall_mem_cons.mp hnames
      have hrest := ih htypes hnames
      rw [List.map_cons, helperParams, helperParams]
      simp only [toOption_bind, toOption_wrapError, Field.rename, h.typeOf _ htype, hrest,
        List.isEmpty_map, declNames_renamed hids]

theorem toOption_helperReturn (h : ImportsRenamed tables ren move prog prog') {f f' : HelperFunc}
    (hf : f.decl ∈ emittedFuncs prog)
    (hdecl : f'.decl = f.decl.rename (importRenaming prog ren move)) :
    (helperReturn prog' f').toOption = (helperReturn prog f).toOption := by
  have htype : ∀ field ∈ fieldsOf f.decl.results,
      prog'.info.typeOf (field.type.rename (importRenaming prog ren move)) =
        prog.info.typeOf field.type :=
    fun field hfield => h.typeOf _ (fieldType_mem hf (List.mem_append_right _ hfield))
  unfold helperReturn
  rw [hdecl, FuncDecl.rename, fieldsOf_rename]
  rcases hfields : fieldsOf f.decl.results with _ | ⟨r, _ | ⟨r', rest⟩⟩
  · rfl
  · rw [hfields] at htype
    simp only [List.map_cons, List.map_nil, Field.rename, List.length_map,
      htype r List.mem_cons_self]
    split_ifs
    · rfl
    · rw [toOption_wrapError, toOption_wrapError]
  · rfl

theorem toOption_programParam (h : ImportsRenamed tables ren move prog prog')
    (hfacts : ImportFacts prog) {p p' : ProgramFunc} (hp : p.decl ∈ emittedFuncs prog)
    (hdecl : p'.decl = p.decl.rename (importRenaming prog ren move)) :
    (programParam prog' p').toOption = (programParam prog p).toOption := by
  have htype : ∀ field ∈ fieldsOf p.decl.params,
      prog'.info.typeOf (field.type.rename (importRenaming prog ren move)) =
        prog.info.typeOf field.type :=
    fun field hfield => h.typeOf _ (fieldType_mem hp (List.mem_append_left _ hfield))
  have hnames := hfacts.params _ hp
  unfold programParam
  rw [hdecl, FuncDecl.rename]
  rcases hparams : p.decl.params with _ | ⟨pos, _ | ⟨field, _ | ⟨field', rest⟩⟩⟩
  · rfl
  · rfl
  · rw [hparams] at htype hnames
    have hone := htype field List.mem_cons_self
    have hids := hnames field List.mem_cons_self
    obtain ⟨names, type⟩ := field
    rcases names with _ | ⟨id, _ | ⟨id', ids⟩⟩
    · rfl
    · simp only [Option.map_some, FieldList.rename, List.map_cons, List.map_nil, Field.rename,
        toOption_bind, toOption_wrapError, hone, name_renamed (hids id List.mem_cons_self)]
    · rfl
  · rfl

theorem grown_writeHelper (hl : Lockstep tables ren move L prog prog') {f f' : HelperFunc}
    (hf : f.decl ∈ emittedFuncs prog) (hname : f'.name = f.name)
    (hdecl : f'.decl = f.decl.rename (importRenaming prog ren move)) :
    StepGrown move L prog (NodesFree prog (funcNodes prog f.decl)) (writeHelper prog f)
      (writeHelper prog' f') := by
  have hparams := toOption_helperParams hl.renamed f f' (fun field hfield =>
    fieldType_mem hf (List.mem_append_left _ hfield)) (hl.facts.params _ hf)
  rw [← fieldsOf_rename, show f.decl.params.map (FieldList.rename (importRenaming prog ren move)) =
    f'.decl.params by rw [hdecl]; rfl] at hparams
  have hbody := (grown_writeBody hl hf).indented
  rw [← hdecl] at hbody
  have hend := (hbody.bind (StepGrown.after (.writeln "\x7d")
    (StepGrown.perform (.writeln [])))).of_iff (iff_of_eq (and_true _)).symm
  unfold writeHelper
  rw [hname]
  exact StepGrown.record (StepGrown.lift (toOption_helperReturn hl.renamed hf hdecl) fun retC =>
    StepGrown.lift hparams fun params => StepGrown.after _ hend)

theorem grown_writeProgram (hl : Lockstep tables ren move L prog prog') {p p' : ProgramFunc}
    (hp : p.decl ∈ emittedFuncs prog) (hname : p'.name = p.name) (hsec : p'.section_ = p.section_)
    (hdecl : p'.decl = p.decl.rename (importRenaming prog ren move)) :
    StepGrown move L prog (NodesFree prog (funcNodes prog p.decl)) (writeProgram prog p)
      (writeProgram prog' p') := by
  have hbody := (grown_writeBody hl hp).indented.before (.writeln "\x7d")
  rw [← hdecl] at hbody
  unfold writeProgram
  rw [hname, hsec, hl.renamed.isPrint]
  exact StepGrown.record (StepGrown.after _ (StepGrown.lift
    (toOption_programParam hl.renamed hl.facts hp hdecl) fun param => StepGrown.after _ hbody))

/-! ## Feature tests -/

/-- A function of the renamed program, by its declaration. -/
theorem map_decl {α : Type} {decl : α → FuncDecl} {f : Renaming} {xs ys : List α}
    (h : List.Forall₂ (fun x y => decl y = (decl x).rename f) xs ys) :
    ys.map decl = (xs.map decl).map (FuncDecl.rename f) := by
  induction h with
  | nil => rfl
  | cons hxy _ ih => rw [List.map_cons, List.map_cons, List.map_cons, hxy, ih]

theorem programDecls_renamed (h : ImportsRenamed tables ren move prog prog') :
    prog'.programs.map ProgramFunc.decl =
      (prog.programs.map ProgramFunc.decl).map (FuncDecl.rename (importRenaming prog ren move)) :=
  map_decl (h.programs.imp fun _ _ hp => hp.2.2)

theorem emittedFuncs_renamed (h : ImportsRenamed tables ren move prog prog') :
    emittedFuncs prog' =
      (emittedFuncs prog).map (FuncDecl.rename (importRenaming prog ren move)) := by
  rw [emittedFuncs, emittedFuncs, List.map_append, programDecls_renamed h,
    map_decl (h.helpers.imp fun _ _ hf => hf.2)]

theorem nodes_rename (f : Renaming) (fd : FuncDecl) :
    (fd.rename f).nodes = fd.nodes.map (Node.rename f) := by
  unfold FuncDecl.nodes
  rw [FuncDecl.rename]
  cases fd.body with
  | none => rfl
  | some body => exact inspectStmts_rename body.list

theorem calledBpfFunction_renamed (h : ImportsRenamed tables ren move prog prog')
    (hfacts : ImportFacts prog) {nd : Node} (hnd : nd ∈ sourceNodes prog) :
    calledBpfFunction prog' (nd.rename (importRenaming prog ren move)) =
      calledBpfFunction prog nd := by
  cases nd with
  | stmt s => rfl
  | expr e =>
      cases e with
      | call fn args => exact bpfFunction_renamed h hfacts (callee_mem hnd)
      | _ => rfl

theorem contains_renamed (h : ImportsRenamed tables ren move prog prog')
    (hfacts : ImportFacts prog) {fd : FuncDecl} (hfd : fd ∈ emittedFuncs prog) (w : Text) :
    Contains prog' (fd.rename (importRenaming prog ren move)) w ↔ Contains prog fd w := by
  unfold Contains
  rw [nodes_rename]
  simp only [List.mem_map, exists_exists_and_eq_and]
  refine exists_congr fun nd => and_congr_right fun hnd => ?_
  rw [calledBpfFunction_renamed h hfacts (func_mem hfd (List.mem_append_left _ hnd))]

theorem usesEndianHelpers_renamed (h : ImportsRenamed tables ren move prog prog')
    (hfacts : ImportFacts prog) : usesEndianHelpers prog' = usesEndianHelpers prog := by
  rw [Bool.eq_iff_iff, usesEndianHelpers_iff, usesEndianHelpers_iff, emittedFuncs_renamed h]
  simp only [List.mem_map, exists_exists_and_eq_and]
  refine exists_congr fun fd => and_congr_right fun hfd => exists_congr fun w => ?_
  rw [contains_renamed h hfacts hfd]

theorem usedPreludeHelpers_renamed (h : ImportsRenamed tables ren move prog prog')
    (hfacts : ImportFacts prog) : usedPreludeHelpers prog' = usedPreludeHelpers prog := by
  have hiff : (∃ p ∈ prog'.programs, Contains prog' p.decl "GetUserArgv") ↔
      ∃ p ∈ prog.programs, Contains prog p.decl "GetUserArgv" := by
    have hdecls : ∀ prog : Program, (∃ p ∈ prog.programs, Contains prog p.decl "GetUserArgv") ↔
        ∃ fd ∈ prog.programs.map ProgramFunc.decl, Contains prog fd "GetUserArgv" := by
      simp
    rw [hdecls, hdecls, programDecls_renamed h]
    simp only [List.mem_map (l := prog.programs.map ProgramFunc.decl), exists_exists_and_eq_and]
    refine exists_congr fun fd => and_congr_right fun hfd => ?_
    exact contains_renamed h hfacts (List.mem_append_right _ hfd) _
  rcases @usedPreludeHelpers_cases prog with ⟨hused, hcalls⟩ | ⟨hused, hcalls⟩ <;>
    rcases @usedPreludeHelpers_cases prog' with ⟨hused', hcalls'⟩ | ⟨hused', hcalls'⟩
  · rw [hused, hused']
  · exact absurd (hiff.mpr hcalls) hcalls'
  · exact absurd (hiff.mp hcalls') hcalls
  · rw [hused, hused']

theorem usesKernelFieldAccess_renamed (h : ImportsRenamed tables ren move prog prog') :
    usesKernelFieldAccess prog' = usesKernelFieldAccess prog := by
  have hdecls : ∀ prog : Program, usesKernelFieldAccess prog = true ↔
      ∃ fd ∈ prog.programs.map ProgramFunc.decl, ∃ field ∈ fieldsOf fd.params,
        requiresVmlinuxParam prog field.type = true := by
    intro prog
    rw [usesKernelFieldAccess_iff]
    simp
  rw [Bool.eq_iff_iff, hdecls, hdecls, programDecls_renamed h]
  simp only [List.mem_map (l := prog.programs.map ProgramFunc.decl), exists_exists_and_eq_and]
  refine exists_congr fun fd => and_congr_right fun hfd => ?_
  rw [FuncDecl.rename, fieldsOf_rename]
  simp only [List.mem_map, exists_exists_and_eq_and]
  refine exists_congr fun field => and_congr_right fun hfield => ?_
  rw [requiresVmlinuxParam, Field.rename, h.typeOf _ (fieldType_mem
    (List.mem_append_right _ hfd) (List.mem_append_left _ hfield)), requiresVmlinuxParam]

/-! ## The file -/

/-- No printed expression of a function shows the name of an import. -/
def ShowsNoImport (prog : Program) : Prop :=
  ∀ fd ∈ emittedFuncs prog, NodesFree prog (funcNodes prog fd)

/-- The printed node shows the name of an import. -/
def PNode.showsImport (prog : Program) : PNode → Bool
  | .expr e => Gobee.showsImport prog e
  | _ => false

theorem nodesFree_iff {nds : List PNode} :
    NodesFree prog nds ↔ ∀ nd ∈ nds, nd.showsImport prog = false := by
  constructor
  · intro h nd hnd
    cases nd with
    | expr e => exact h e hnd
    | _ => rfl
  · exact fun h e he => h _ he

instance (nds : List PNode) : Decidable (NodesFree prog nds) :=
  decidable_of_iff _ nodesFree_iff.symm

instance : Decidable (ShowsNoImport prog) :=
  inferInstanceAs (Decidable (∀ fd ∈ emittedFuncs prog, NodesFree prog (funcNodes prog fd)))

/-- What `Emit` writes after the support code. -/
theorem grown_emitDefs (hl : Lockstep tables ren move L prog prog') :
    StepGrown move L prog (ShowsNoImport prog) (emitDefs prog) (emitDefs prog') := by
  have h := hl.renamed
  have htypes := StepGrown.forEach h.types fun t _ t' ht =>
    @grown_writeUserType move L prog _ h.underlying _ _ ht.1 ht.2
  have hmaps := StepGrown.forEach h.maps fun m _ m' hm =>
    @grown_writeMap move L prog _ _ hm.1 hm.2.1 hm.2.2.1 hm.2.2.2.1 hm.2.2.2.2
  have hhelpers := StepGrown.forEach h.helpers fun f hf f' hdecl =>
    grown_writeHelper hl (mem_emittedFuncs.mpr (.inl ⟨f, hf, rfl⟩)) hdecl.1 hdecl.2
  have hprograms := StepGrown.forEach h.programs fun p hp p' hdecl =>
    grown_writeProgram hl (mem_emittedFuncs.mpr (.inr ⟨p, hp, rfl⟩)) hdecl.1 hdecl.2.1 hdecl.2.2
  refine (htypes.bind (hmaps.bind (hhelpers.bind hprograms))).of_iff ?_
  unfold ShowsNoImport
  simp [mem_emittedFuncs, or_imp, forall_and]

end

/-- The text that `Emit` returns. -/
def emitText (prog : Program) (label : Text) : Option Text :=
  (emit prog label).toOption.map Prod.fst

/-- The lines of the header up to the source label. -/
def labelLines (label : Text) : Text :=
  ("// Code generated by gobee. DO NOT EDIT." : Text) ++
    '\n' :: (("// source: " : Text) ++ label ++ ("\n\n" : Text))

/-- The support code after the source label. -/
def supportRest (prog : Program) : List Act := (supportActs prog []).drop 2

/-- The text after the source label. -/
def textRest (prog : Program) : Option Text :=
  (out (emitDefs prog) ⟨[], 0⟩).map fun r => written 0 (supportRest prog ++ r.2.2)

theorem emitText_out (prog : Program) (label : Text) :
    emitText prog label = (out (emitActs prog label) ⟨[], 0⟩).map fun r => written 0 r.2.2 := by
  unfold emitText emit out
  generalize emitActs prog label ⟨[], 0⟩ = result
  cases result with
  | error e => rfl
  | ok r =>
      have hbuf := buf_acts prog Emitter.new r.2.2
      exact congrArg some hbuf

theorem out_emitActs (prog : Program) (label : Text) :
    out (emitActs prog label) ⟨[], 0⟩ =
      (out (emitDefs prog) ⟨[], 0⟩).map fun r => (r.1, r.2.1, supportActs prog label ++ r.2.2) := by
  rw [emitActs_eq, out_bind, out_writeHeader, Option.bind_some, out_bind, writeLicense, writef,
    out_perform, Option.bind_some, out_bind, out_writePrelude, Option.bind_some]
  generalize out (emitDefs prog) ⟨[], 0⟩ = result
  cases result with
  | none => rfl
  | some r => simp only [Option.map_some, supportActs, List.append_assoc, List.cons_append,
      List.nil_append]

/-- The label has no part in the rest of the support code. -/
theorem supportActs_label (prog : Program) (label : Text) : supportActs prog label =
    .writeln "// Code generated by gobee. DO NOT EDIT." ::
      .writef ("// source: " ++ label ++ "\n\n") :: supportRest prog := by
  simp only [supportRest, supportActs, headerActs, List.cons_append, List.nil_append,
    List.append_assoc, List.drop_succ_cons, List.drop_zero]

theorem emitText_eq (prog : Program) (label : Text) :
    emitText prog label = (textRest prog).map (labelLines label ++ ·) := by
  rw [emitText_out, out_emitActs, textRest, Option.map_map, Option.map_map]
  refine Option.map_congr fun r _ => ?_
  rw [Function.comp_apply, Function.comp_apply, supportActs_label]
  exact written_writeln_writef 0 _ _ _

theorem textRest_isSome (prog : Program) : (textRest prog).isSome = supported prog := by
  have hok := isSome_toOption (emit prog [])
  have hmap := congrArg Option.isSome (emitText_eq prog [])
  rw [emitText, Option.isSome_map, Option.isSome_map, hok, emit_isOk] at hmap
  exact hmap.symm

/-- **Both programs are emitted or none is, and the texts are the same apart from the source
label.** -/
def SameText (prog prog' : Program) : Prop :=
  ∃ rest : Option Text, ∀ label,
    emitText prog label = rest.map (labelLines label ++ ·) ∧
      emitText prog' label = rest.map (labelLines label ++ ·)

theorem sameText_iff {prog prog' : Program} :
    SameText prog prog' ↔ textRest prog' = textRest prog := by
  have hinj : Function.Injective (Option.map (labelLines [] ++ ·)) :=
    Option.map_injective fun s t h => List.append_cancel_left h
  constructor
  · rintro ⟨rest, h⟩
    obtain ⟨hp, hp'⟩ := h []
    rw [emitText_eq] at hp hp'
    rw [hinj hp, hinj hp']
  · intro h
    refine ⟨textRest prog, fun label => ⟨emitText_eq prog label, ?_⟩⟩
    rw [emitText_eq, h]

section

variable {tables : UnicodeTables} {ren : Ident → Text} {move : Pos → Pos} {L : Nat}
  {prog prog' : Program}

theorem supportRest_renamed (h : ImportsRenamed tables ren move prog prog')
    (hfacts : ImportFacts prog) : supportRest prog' = supportRest prog := by
  rw [supportRest, supportActs, usesKernelFieldAccess_renamed h,
    usesEndianHelpers_renamed h hfacts, usedPreludeHelpers_renamed h hfacts, h.isPrint, h.license,
    supportRest, supportActs]

/-- The text of a program. -/
theorem grown_textRest (hl : Lockstep tables ren move L prog prog') {t t' : Text}
    (ht : textRest prog = some t) (ht' : textRest prog' = some t') :
    Grown L (ShowsNoImport prog) t t' := by
  obtain ⟨r, hr, rfl⟩ := Option.map_eq_some_iff.mp ht
  obtain ⟨r', hr', rfl⟩ := Option.map_eq_some_iff.mp ht'
  have hnone : AliasesApart prog [] := fun a ha => nomatch ha
  -- both runs start without aliases, and the support code is the same
  have hdefs := (grown_emitDefs hl ⟨[], 0⟩ r r' hnone hr hr').acts
  rw [supportRest_renamed hl.renamed hl.facts]
  exact (hdefs.after (supportRest prog)).written 0

/-- Where no printed expression shows an import, the text stays the same. -/
theorem sameText_of_renamed (h : ImportsRenamed tables ren move prog prog')
    (hfacts : ImportFacts prog) (hfree : supported prog = false ∨ ShowsNoImport prog) :
    SameText prog prog' := by
  have hl : Lockstep tables ren move 0 prog prog' :=
    ⟨h, hfacts, fun _ _ _ _ => Nat.zero_le _, .inl rfl⟩
  have hsome : (textRest prog').isSome = (textRest prog).isSome := by
    rw [textRest_isSome, textRest_isSome, supported_renamed h hfacts]
  rw [sameText_iff]
  cases ht : textRest prog with
  | none =>
      rw [ht] at hsome
      rwa [Option.isSome_none, Option.isSome_eq_false_iff, Option.isNone_iff_eq_none] at hsome
  | some t =>
      rw [ht, Option.isSome_some] at hsome
      obtain ⟨t', ht'⟩ := Option.isSome_iff_exists.mp hsome
      have hsup : supported prog = true := by rw [← textRest_isSome, ht, Option.isSome_some]
      have hshows := hfree.resolve_left (by rw [hsup]; exact nofun)
      rw [ht', (grown_textRest hl ht ht').same hshows]

end

/-! ## The program with other names for its imports -/

/-- The identifier of the program at this position. -/
def identAt (prog : Program) (i : Ident) : Ident :=
  ((sourceIdents prog).find? fun id => id.pos == i.pos).getD i

/-- The program with other names for its imports, its text at the same positions. -/
def withImports (prog : Program) (ren : Ident → Text) : Program :=
  { prog with
    info :=
      { prog.info with
        uses := fun i => (prog.info.uses (identAt prog i)).map (Obj.renamed ren id)
        defs := (sourceIdents prog).map fun i =>
          ((importRenaming prog ren id).ident i, (prog.info.defsAt i).map (Obj.renamed ren id))
        typeOf := fun e => prog.info.typeOf (e.rename ⟨identAt prog, id⟩) }
    helpers := prog.helpers.map fun h =>
      { h with decl := h.decl.rename (importRenaming prog ren id) }
    programs := prog.programs.map fun p =>
      { p with decl := p.decl.rename (importRenaming prog ren id) } }

/-- Names made of `z`, longer than `L` and than all names that are taken. -/
def longName (prog : Program) (L : Nat) (d : Ident) : Text :=
  List.replicate (L + ((takenNames prog).map List.length).sum + (importDecls prog).idxOf d + 1) 'z'

section

variable {tables : UnicodeTables} {ren : Ident → Text} {prog : Program} {L : Nat}

theorem mem_sourceIdents {id : Ident} :
    id ∈ sourceIdents prog ↔ .expr (.ident id) ∈ sourceNodes prog := by
  unfold sourceIdents
  rw [List.mem_filterMap]
  constructor
  · rintro ⟨nd, hnd, hid⟩
    unfold Node.ident? at hid
    split at hid
    · cases hid
      exact hnd
    · cases hid
  · exact fun h => ⟨_, h, rfl⟩

theorem identAt_eq (hfacts : ImportFacts prog) {id i : Ident} (hid : id ∈ sourceIdents prog)
    (hpos : i.pos = id.pos) : identAt prog i = id := by
  unfold identAt
  cases hfind : (sourceIdents prog).find? fun id => id.pos == i.pos with
  | none =>
      have hnone := List.find?_eq_none.mp hfind id hid
      rw [hpos, beq_self_eq_true] at hnone
      exact absurd rfl hnone
  | some id' =>
      have hpos' : id'.pos = i.pos := by simpa using List.find?_some hfind
      exact hfacts.positions _ _ (mem_sourceIdents.mp (List.mem_of_find?_eq_some hfind))
        (mem_sourceIdents.mp hid) (hpos'.trans hpos)

/-- The renaming is undone by looking up the identifier at the position. -/
theorem undone_identAt (hfacts : ImportFacts prog) :
    UndoneOn (importRenaming prog ren id) ⟨identAt prog, id⟩ (sourceNodes prog) :=
  ⟨fun _ => rfl, fun _ hid => identAt_eq hfacts (mem_sourceIdents.mpr hid) rfl⟩

theorem lookup_map_ident {f : Ident → Ident} {v : Ident → Option Obj} {ids : List Ident}
    {id : Ident} (hid : id ∈ ids) (hinj : ∀ i ∈ ids, f i = f id → i = id) :
    (ids.map fun i => (f i, v i)).lookup (f id) = some (v id) := by
  induction ids with
  | nil => cases hid
  | cons i rest ih =>
      obtain ⟨hi, hrest⟩ := List.forall_mem_cons.mp hinj
      rw [List.map_cons, List.lookup_cons]
      by_cases heq : f i = f id
      · rw [hi heq, beq_self_eq_true]
      · have hne : (f id == f i) = false := beq_eq_false_iff_ne.mpr fun h => heq h.symm
        rw [hne]
        refine ih ((List.mem_cons.mp hid).resolve_left ?_) hrest
        rintro rfl
        exact heq rfl

theorem forall₂_map {α : Type} {R : α → α → Prop} {f : α → α} {xs : List α}
    (h : ∀ x, R x (f x)) : List.Forall₂ R xs (xs.map f) := by
  induction xs with
  | nil => exact .nil
  | cons x rest ih => exact .cons (h x) ih

/-- **The program with other names is the program with its imports renamed**, if the names
are fresh. -/
theorem withImports_renamed (hfacts : ImportFacts prog)
    (hfresh : ∀ d ∈ importDecls prog,
      IsGoIdent tables (ren d) ∧ ren d ≠ ['_'] ∧ ren d ∉ takenNames prog)
    (hdistinct : ∀ d ∈ importDecls prog, ∀ d' ∈ importDecls prog, ren d = ren d' → d = d') :
    ImportsRenamed tables ren id prog (withImports prog ren) where
  apart := Function.injective_id
  fresh := hfresh
  distinct := hdistinct
  imports := rfl
  license := rfl
  isPrint := rfl
  maps := List.forall₂_same.mpr fun _ _ => ⟨rfl, rfl, rfl, rfl, rfl⟩
  types := List.forall₂_same.mpr fun _ _ => ⟨rfl, rfl⟩
  helpers := forall₂_map fun _ => ⟨rfl, rfl⟩
  programs := forall₂_map fun _ => ⟨rfl, rfl, rfl⟩
  uses i hi := by
    have hat := (@undone_identAt ren prog hfacts).ident i hi
    exact congrArg (fun j => (prog.info.uses j).map (Obj.renamed ren id)) hat
  defs i hi := by
    have hlookup := lookup_map_ident (f := (importRenaming prog ren id).ident)
      (v := fun i => (prog.info.defsAt i).map (Obj.renamed ren id))
      (mem_sourceIdents.mpr hi) fun j hj heq => by
        have hpos := congrArg Ident.pos heq
        exact hfacts.positions _ _ (mem_sourceIdents.mp hj) hi hpos
    exact congrArg Option.join hlookup
  typeOf e he := by
    have hundone := (@undone_identAt ren prog hfacts).mono (closed_source prog _ he)
    exact congrArg prog.info.typeOf (rename_inverse e hundone)
  underlying := rfl

/-! ## Long names -/

theorem longName_isGoIdent (tables : UnicodeTables) (d : Ident) :
    IsGoIdent tables (longName prog L d) := by
  have hletter : isGoLetter tables 'z' = true := by
    rw [isGoLetter, tables.letter_ascii 'z' (by decide)]
    rfl
  refine ⟨⟨'z', rfl, hletter⟩, fun c hc => ?_, fun hmem => ?_⟩
  · rw [List.eq_of_mem_replicate hc, isGoNameChar, hletter]
    rfl
  · have hkeywords : ∀ w ∈ goKeywords, w.head? ≠ some 'z' := by decide
    exact hkeywords _ hmem rfl

theorem longName_fresh (d : Ident) : longName prog L d ∉ takenNames prog := by
  intro hmem
  have hle := List.le_sum_of_mem (List.mem_map_of_mem (f := List.length) hmem)
  rw [longName, List.length_replicate] at hle
  omega

theorem longName_distinct {d d' : Ident} (hd : d ∈ importDecls prog)
    (heq : longName prog L d = longName prog L d') : d = d' := by
  have hlen := congrArg List.length heq
  rw [longName, longName, List.length_replicate, List.length_replicate] at hlen
  exact (List.idxOf_inj hd).mp (by omega)

theorem longNames_renamed (tables : UnicodeTables) (hfacts : ImportFacts prog) (L : Nat) :
    ImportsRenamed tables (longName prog L) id prog (withImports prog (longName prog L)) := by
  refine withImports_renamed hfacts (fun d _ => ⟨longName_isGoIdent tables d, fun h => ?_,
    longName_fresh d⟩) fun d hd d' _ heq => longName_distinct hd heq
  cases congrArg List.head? h

theorem longNames_lockstep (tables : UnicodeTables) (hfacts : ImportFacts prog) (hL : 6 < L) :
    Lockstep tables (longName prog L) id L prog (withImports prog (longName prog L)) := by
  refine ⟨longNames_renamed tables hfacts L, hfacts, fun i p _ _ => ?_, .inr hL⟩
  rw [longName, List.length_replicate]
  omega

end

/-- **The names of the imports do not matter, exactly when the program is not emitted or no
printed expression shows one.** -/
theorem importNames_iff (tables : UnicodeTables) {prog : Program} (hfacts : ImportFacts prog) :
    (∀ ren move prog', ImportsRenamed tables ren move prog prog' → SameText prog prog') ↔
      supported prog = false ∨ ShowsNoImport prog := by
  constructor
  · intro hsame
    by_contra hnot
    obtain ⟨hsup, hshows⟩ := not_or.mp hnot
    rw [Bool.not_eq_false, ← textRest_isSome] at hsup
    obtain ⟨t, ht⟩ := Option.isSome_iff_exists.mp hsup
    -- a name that is longer than the text cannot be printed in it
    have hl := @longNames_lockstep prog (t.length + 7) tables hfacts (by omega)
    have ht' := sameText_iff.mp (hsame _ _ _ hl.renamed)
    rw [ht] at ht'
    have hlong := (grown_textRest hl ht ht').long hshows
    omega
  · exact fun hfree ren move prog' h => sameText_of_renamed h hfacts hfree

/-! ## Programs that import `unsafe` and that do not -/

/-- What `ImportFacts` asks of one node. -/
def importCheck (prog : Program) : Node → Bool
  | .expr (.call (.ident id) _) => (importOf prog id).isNone
  | .expr (.call (.selector (.ident id) sel) args) =>
      sel.name != "Pointer".toList ||
        (importOf prog id).all fun p => p.2 != bpfPkgPath && args.length == 1
  | .expr (.selector _ sel) => (importOf prog sel).isNone
  | .stmt (.assign lhs _ _) => lhs.all fun e => (identOf e).all fun id => (importOf prog id).isNone
  | .stmt (.decl _ _ specs) =>
      specs.all fun spec => spec.names.all fun id => (importOf prog id).isNone
  | _ => true

/-- The facts about a program without declarations in its functions. -/
theorem importFacts_of_check {prog : Program} (hcheck : (sourceNodes prog).all (importCheck prog))
    (hparams : (emittedFuncs prog).all fun fd =>
      (fieldsOf fd.params).all fun field => field.names.all fun id => (importOf prog id).isNone)
    (hpos : ((sourceIdents prog).map Ident.pos).Nodup) (hdefs : prog.info.defs = [])
    (htype : ∀ id p, importOf prog id = some p → prog.info.typeOf (.ident id) = none) :
    ImportFacts prog := by
  rw [List.all_eq_true] at hcheck hparams
  have hnone : ∀ {id}, (importOf prog id).isNone = true → importOf prog id = none :=
    fun h => Option.isNone_iff_eq_none.mp h
  refine
    { untyped := fun id p hid => .inl (htype id p hid)
      callee := fun id args hmem => hnone (hcheck _ hmem)
      selected := fun x sel hmem => hnone (hcheck _ hmem)
      assigned := fun lhs tok rhs id hmem hid => ?_
      declared := fun pos tok specs spec id hmem hspec hid => ?_
      params := fun fd hfd field hfield id hid => ?_
      outside := fun id obj _ hobj => ?_
      pointer := fun id sel args p hmem hsel hid => ?_
      positions := fun id id' hmem hmem' heq => ?_ }
  · have hall := List.all_eq_true.mp (hcheck _ hmem) _ hid
    exact hnone hall
  · have hall := List.all_eq_true.mp (hcheck _ hmem) _ hspec
    exact hnone (List.all_eq_true.mp hall _ hid)
  · have hall := List.all_eq_true.mp (hparams _ hfd) _ hfield
    exact hnone (List.all_eq_true.mp hall _ hid)
  · rw [Info.defsAt, hdefs] at hobj
    cases hobj
  · have hall := hcheck _ hmem
    rw [importCheck, hsel, hid] at hall
    simpa using hall
  · exact List.inj_on_of_nodup_map hpos (mem_sourceIdents.mpr hmem) (mem_sourceIdents.mpr hmem') heq

theorem argvProgram_importFacts : ImportFacts argvProgram := by
  refine importFacts_of_check (by decide) (by decide) (by decide) rfl fun id p hid => ?_
  have hname : id.name = "bpf" := by
    obtain ⟨t, huses⟩ := importOf_eq_some.mp hid
    simp only [argvProgram] at huses
    split_ifs at huses with hbpf
    · exact hbpf
    · cases (Obj.mk.inj (Option.some.inj huses)).2.1
  show argvTypes.lookup id.name = none
  rw [hname]
  decide

/-- `func InstallWriteHdrCb(ctx *bpf.SockOpsMd) bpf.SockOpsReturn
\x7b bpf.SockOpsCbFlagsSet(unsafe.Pointer(ctx), 64); return bpf.SockOpsOk \x7d`. -/
def installDecl : FuncDecl where
  pos := 60
  name := ⟨"InstallWriteHdrCb", 65⟩
  recv := none
  typeParams := none
  params := some ⟨82, [⟨[⟨"ctx", 83⟩],
    .star 87 (.selector (.ident ⟨"bpf", 88⟩) ⟨"SockOpsMd", 92⟩)⟩]⟩
  results := some ⟨103, [⟨[], .selector (.ident ⟨"bpf", 103⟩) ⟨"SockOpsReturn", 107⟩⟩]⟩
  body := some ⟨121,
    [.expr (.call (.selector (.ident ⟨"bpf", 124⟩) ⟨"SockOpsCbFlagsSet", 128⟩)
        [.call (.selector (.ident ⟨"unsafe", 146⟩) ⟨"Pointer", 153⟩) [.ident ⟨"ctx", 161⟩],
          .basicLit 167 .int "64"]),
      .ret 172 [.selector (.ident ⟨"bpf", 179⟩) ⟨"SockOpsOk", 183⟩]], 193⟩

/-- A file with `InstallWriteHdrCb`, which imports `bpf` and `unsafe`. -/
def installProgram : Program where
  position := fun p => ⟨"x.go", p, 1⟩
  imports := [⟨20, "\"unsafe\"", some "unsafe"⟩,
    ⟨30, "\"github.com/boratanrikulu/gobee/bpf\"", some bpfPkgPath⟩]
  info :=
    { uses := fun id =>
        if id.name = "bpf" then some ⟨⟨"bpf", 30⟩, .pkgName bpfPkgPath, .basic .invalid⟩
        else if id.name = "unsafe" then some ⟨⟨"unsafe", 20⟩, .pkgName "unsafe", .basic .invalid⟩
        else if id.name = "ctx" then
          some ⟨⟨"ctx", 83⟩, .var, .pointer (.named ⟨some bpfPkgPath, "SockOpsMd"⟩ [])⟩
        else none
      defs := []
      typeOf := fun e =>
        match e with
        | .ident id =>
            if id.name = "ctx" then some (.pointer (.named ⟨some bpfPkgPath, "SockOpsMd"⟩ []))
            else none
        | .star _ _ => some (.pointer (.named ⟨some bpfPkgPath, "SockOpsMd"⟩ []))
        | .selector _ _ => some (.named ⟨some bpfPkgPath, "SockOpsReturn"⟩ [])
        | .call _ _ => some (.basic .unsafePointer)
        | _ => none
      underlying := fun _ _ => .other }
  license := "GPL"
  maps := []
  programs := [⟨"InstallWriteHdrCb", "sockops", ⟨"x.go", 60, 1⟩, installDecl⟩]
  helpers := []
  types := []
  consts := []

/-- Other names for `bpf` and `unsafe`. -/
def libNames (d : Ident) : Text := if d.name = "bpf" then "lib" else "memory"

theorem installProgram_importFacts : ImportFacts installProgram := by
  refine importFacts_of_check (by decide) (by decide) (by decide) rfl fun id p hid => ?_
  show (if id.name = "ctx" then _ else none) = none
  refine if_neg fun hctx => ?_
  obtain ⟨t, huses⟩ := importOf_eq_some.mp hid
  simp only [installProgram, hctx] at huses
  cases (Obj.mk.inj (Option.some.inj huses)).2.1

theorem libNames_fresh : ∀ d ∈ importDecls installProgram,
    IsGoIdent asciiTables (libNames d) ∧ libNames d ≠ ['_'] ∧
      libNames d ∉ takenNames installProgram := by
  have hnames : ∀ d ∈ importDecls installProgram, libNames d = "lib" ∨ libNames d = "memory" := by
    decide
  intro d hd
  rcases hnames d hd with hname | hname
  · rw [hname]
    exact ⟨⟨⟨'l', rfl, rfl⟩, List.all_eq_true.mp rfl, by decide⟩, by decide, by decide⟩
  · rw [hname]
    exact ⟨⟨⟨'m', rfl, rfl⟩, List.all_eq_true.mp rfl, by decide⟩, by decide, by decide⟩

/-- `unsafe.Pointer(ctx)` is printed as `ctx`, but `memory.Pointer(ctx)` as it stands. -/
theorem pointer_renamed :
    validate installProgram = [] ∧ ImportFacts installProgram ∧
      ImportsRenamed asciiTables libNames id installProgram
        (withImports installProgram libNames) ∧
      supported installProgram = true ∧
      ¬ SameText installProgram (withImports installProgram libNames) := by
  refine ⟨validate_eq_nil.mpr rfl, installProgram_importFacts, ?_, by decide, fun h => ?_⟩
  · exact withImports_renamed installProgram_importFacts libNames_fresh (by decide)
  · have htext := sameText_iff.mp h
    revert htext
    decide +kernel

/-- In the program with `fill` and `OnExec` the name of `bpf` does not matter. -/
theorem argvProgram_sameText :
    supported argvProgram = true ∧
      SameText argvProgram (withImports argvProgram (longName argvProgram 0)) :=
  ⟨by decide, (importNames_iff asciiTables argvProgram_importFacts).mpr (.inr (by decide)) _ _ _
    (longNames_renamed asciiTables argvProgram_importFacts 0)⟩

end Gobee
