/-
# The position of a map

`recordPos` is given the position of the declaration or the statement that is written next.
For a map that is the position of the `var` specification, where its first name stands, also
when the map is a later name of it; the position of the name itself is kept beside it, as
`MapDecl.Pos`, and not recorded.

* `mapsInPlace_iff` : what is recorded are the positions, up to maps that are later names;
* `emit_sourceMap_iff` : **the source map is right, exactly when every map stands where its
  specification begins**.
-/
import Gobee.KeptFunctions
import Gobee.MapSizes

namespace Gobee

open EmitM

/-! ## The maps of a file -/

/-- The name has the type of a map. -/
def isMapName (file : File) (id : Ident) : Bool :=
  match (file.info.defsAt id).map Obj.type with
  | some (.named n _) => n.pkg = some bpfPkgPath && (bpfMapGoTypeToDirective.lookup n.name).isSome
  | _ => false

/-- The names of maps, each with the position of its specification. -/
def mapNames (file : File) : List Decl → List (Ident × Pos)
  | .var specs :: rest =>
      (specs.flatMap fun spec =>
        (spec.names.filter (isMapName file)).map fun id => (id, spec.pos)) ++ mapNames file rest
  | _ :: rest => mapNames file rest
  | [] => []

/-- Every map stands at the position of its specification: it is the first name there. -/
def MapsNamedFirst (file : File) : Prop :=
  ∀ x ∈ mapNames file file.decls, file.position x.1.pos = file.position x.2

/-- The positions a map is collected with. -/
def MapDecl.place (m : MapDecl) : Position × Option Pos := (m.pos, m.spec)

/-- The positions of a name and its specification. -/
def nameAndSpec (file : File) (x : Ident × Pos) : Position × Option Pos :=
  (file.position x.1.pos, some x.2)

section

variable {file : File} {prog : Program}

theorem tryBuildMapDecl_place {id : Ident} {value : Option Expr} {spec : Pos}
    {m : Option MapDecl} (h : tryBuildMapDecl file id value spec = .ok m) :
    m.toList.map MapDecl.place =
      ([id].filter (isMapName file)).map fun id => nameAndSpec file (id, spec) := by
  unfold tryBuildMapDecl at h
  simp only at h
  -- only a named type of the bpf package with a row in the table makes a map
  cases hobj : (file.info.defsAt id).map Obj.type with
  | none =>
      have hname : isMapName file id = false := by rw [isMapName, hobj]
      rw [hobj] at h
      cases h
      simp [hname]
  | some t =>
      rw [hobj] at h
      cases t with
      | named n targs =>
          have hname : isMapName file id =
              (n.pkg = some bpfPkgPath && (bpfMapGoTypeToDirective.lookup n.name).isSome) := by
            rw [isMapName, hobj]
          by_cases hpkg : n.pkg = some bpfPkgPath
          · simp only [if_pos hpkg] at h
            cases hkind : bpfMapGoTypeToDirective.lookup n.name with
            | none =>
                rw [hkind] at h hname
                cases h
                simp [hname]
            | some directive =>
                rw [hkind] at h hname
                obtain ⟨⟨keyType, valType⟩, -, h⟩ := bind_ok h
                obtain ⟨size, -, h⟩ := bind_ok h
                cases h
                rw [List.filter_cons_of_pos (by simp [hname, hpkg])]
                rfl
          · simp only [if_neg hpkg] at h
            cases h
            simp [hname, hpkg]
      | _ =>
          have hname : isMapName file id = false := by rw [isMapName, hobj]
          cases h
          simp [hname]

theorem collectVars_place {spec : Pos} {ids : List Ident} : ∀ {values : List Expr}
    {ms : List MapDecl}, collectVars file spec ids values = .ok ms →
      ms.map MapDecl.place =
        (ids.filter (isMapName file)).map fun id => nameAndSpec file (id, spec) := by
  induction ids with
  | nil =>
      intro values ms h
      cases h
      rfl
  | cons id ids ih =>
      intro values ms h
      obtain ⟨m, hm, h⟩ := bind_ok h
      obtain ⟨rest, hrest, h⟩ := bind_ok h
      cases h
      rw [List.map_append, tryBuildMapDecl_place hm, ih hrest, ← List.map_append,
        ← List.filter_append, List.singleton_append]

theorem collectVarSpecs_place {specs : List ValueSpec} : ∀ {ms : List MapDecl},
    collectVarSpecs file specs = .ok ms →
      ms.map MapDecl.place = (mapNames file [.var specs]).map (nameAndSpec file) := by
  induction specs with
  | nil =>
      intro ms h
      cases h
      rfl
  | cons spec specs ih =>
      intro ms h
      obtain ⟨ms', hms, h⟩ := bind_ok h
      obtain ⟨rest, hrest, h⟩ := bind_ok h
      cases h
      rw [List.map_append, collectVars_place hms, ih hrest]
      simp [mapNames, Function.comp_def]

theorem mapNames_cons (d : Decl) (rest : List Decl) :
    mapNames file (d :: rest) = mapNames file [d] ++ mapNames file rest := by
  cases d <;> simp [mapNames]

/-- **The collected maps and their positions.** -/
theorem collectDecls_maps {decls : List Decl} : ∀ {c : Collected},
    collectDecls file decls = .ok c →
      c.maps.map MapDecl.place = (mapNames file decls).map (nameAndSpec file) := by
  induction decls with
  | nil =>
      intro c h
      cases h
      rfl
  | cons d rest ih =>
      intro c h
      obtain ⟨a, ha, h⟩ := bind_ok h
      obtain ⟨b, hb, h⟩ := bind_ok h
      cases h
      have hd : a.maps.map MapDecl.place = (mapNames file [d]).map (nameAndSpec file) := by
        cases d with
        | var specs =>
            obtain ⟨maps, hmaps, ha⟩ := bind_ok ha
            cases ha
            exact collectVarSpecs_place hmaps
        | func doc fd =>
            change collectFunc file doc fd = .ok a at ha
            unfold collectFunc at ha
            split at ha
            · cases ha
            · cases ha
              rfl
            · split_ifs at ha <;> cases ha <;> rfl
        | _ =>
            cases ha
            rfl
      rw [mapNames_cons, List.map_append, ← hd, ← ih hb, ← List.map_append]
      rfl

theorem parseFile_collected (h : parseFile file = .ok prog) :
    ∃ c, collectDecls file file.decls = .ok c ∧ prog.maps = c.maps ∧ prog.types = c.types := by
  obtain ⟨license, -, h⟩ := bind_ok h
  obtain ⟨c, hc, h⟩ := bind_ok h
  refine ⟨c, hc, ?_⟩
  split at h
  · cases h
  · split at h
    · cases h
    · cases h
      exact ⟨rfl, rfl⟩

theorem collectDecls_types {decls : List Decl} : ∀ {c : Collected},
    collectDecls file decls = .ok c → ∀ t ∈ c.types, t.pos = file.position t.specPos := by
  induction decls with
  | nil =>
      intro c h t ht
      cases h
      cases ht
  | cons d rest ih =>
      intro c h t ht
      obtain ⟨a, ha, h⟩ := bind_ok h
      obtain ⟨b, hb, h⟩ := bind_ok h
      cases h
      rcases List.mem_append.mp ht with ht | ht
      · cases d with
        | type names =>
            cases ha
            obtain ⟨id, -, hid⟩ := List.mem_filterMap.mp ht
            unfold collectType at hid
            split at hid
            · split at hid
              · cases hid
                rfl
              · cases hid
            · cases hid
        | var specs =>
            obtain ⟨maps, -, ha⟩ := bind_ok ha
            cases ha
            cases ht
        | func doc fd =>
            change collectFunc file doc fd = .ok a at ha
            unfold collectFunc at ha
            split at ha
            · cases ha
            · cases ha
              cases ht
            · split_ifs at ha <;> cases ha <;> cases ht
        | _ =>
            cases ha
            cases ht
      · exact ih hb t ht

/-- A function contains no definition. -/
theorem not_mem_bodyConstructs {c : Construct} (h : c.isDefinition = true) (fd : FuncDecl) :
    c ∉ bodyConstructs fd := fun hmem => by
  rw [bodyConstructs_inner fd c hmem] at h
  cases h

/-- Apart from maps, what is recorded for a construct of a parsed file is its position. -/
theorem position_recorded (hparse : parseFile file = .ok prog) {c : Construct}
    (hc : c ∈ constructs prog) (hmap : ∀ m, c ≠ .map m) :
    prog.position c.recordedPos = c.position prog := by
  obtain ⟨hprogs, hhelpers, hposition, -⟩ := parseFile_ok hparse
  obtain ⟨col, hcol, -, htypes⟩ := parseFile_collected hparse
  cases c with
  | type t =>
      have ht : t ∈ prog.types := by
        simpa [constructs, not_mem_bodyConstructs (c := .type t) rfl] using hc
      rw [hposition]
      exact (collectDecls_types hcol t (htypes ▸ ht)).symm
  | map m => exact absurd rfl (hmap m)
  | helper h =>
      have hh : h ∈ prog.helpers := by
        simpa [constructs, not_mem_bodyConstructs (c := .helper h) rfl] using hc
      rw [hhelpers] at hh
      obtain ⟨f, -, hf⟩ := List.mem_filterMap.mp hh
      unfold helperOf at hf
      split_ifs at hf
      cases hf
      rw [hposition]
      rfl
  | program p =>
      have hp : p ∈ prog.programs := by
        simpa [constructs, not_mem_bodyConstructs (c := .program p) rfl] using hc
      rw [hprogs] at hp
      obtain ⟨f, -, hf⟩ := List.mem_filterMap.mp hp
      unfold programOf at hf
      split at hf
      · cases hf
        rw [hposition]
        rfl
      · cases hf
  | stmt s => rfl

/-- **What is recorded for the constructs are their positions, exactly when every map stands
where its specification begins.** -/
theorem mapsInPlace_iff (hparse : parseFile file = .ok prog) : MapsInPlace prog ↔ MapsNamedFirst file := by
  obtain ⟨-, -, hposition, -⟩ := parseFile_ok hparse
  obtain ⟨col, hcol, hmaps, -⟩ := parseFile_collected hparse
  have hplaces := collectDecls_maps hcol
  rw [← hmaps] at hplaces
  constructor
  · intro h x hx
    have hplace : nameAndSpec file x ∈ prog.maps.map MapDecl.place := by
      rw [hplaces]
      exact List.mem_map_of_mem hx
    obtain ⟨m, hm, heq⟩ := List.mem_map.mp hplace
    obtain ⟨hpos, hspec⟩ := Prod.mk.inj heq
    have hat := h (.map m) (by simp [constructs, hm])
    rw [Construct.recordedPos, Construct.position, hspec, hpos, hposition] at hat
    exact hat.symm
  · intro h c hc
    by_cases hmap : ∃ m, c = .map m
    · obtain ⟨m, rfl⟩ := hmap
      have hm : m ∈ prog.maps := by
        simpa [constructs, not_mem_bodyConstructs (c := .map m) rfl] using hc
      have hplace : m.place ∈ (mapNames file file.decls).map (nameAndSpec file) := by
        rw [← hplaces]
        exact List.mem_map_of_mem hm
      obtain ⟨x, hx, heq⟩ := List.mem_map.mp hplace
      obtain ⟨hpos, hspec⟩ := Prod.mk.inj heq
      rw [Construct.recordedPos, Construct.position, ← hspec, ← hpos, hposition]
      exact (h x hx).symm
    · exact position_recorded hparse hc fun m hm => hmap ⟨m, hm⟩

end

/-! ## The last mapping of a line -/

section

variable {prog : Program}

/-- Text is written where actions open. -/
theorem text_of_opens {as : List Act} (h : opens as = true) (e : Emitter) :
    (e.acts prog as).buf ≠ e.buf := by
  induction as generalizing e with
  | nil => cases h
  | cons a as ih =>
      have hgrows : ∀ {u : Text}, (e.act prog a).buf = e.buf ++ u → u ≠ [] →
          (e.acts prog (a :: as)).buf ≠ e.buf := by
        intro u hu hne heq
        obtain ⟨v, hv⟩ := acts_buf prog (e.act prog a) as
        rw [acts_cons, hv, hu, List.append_assoc] at heq
        have hnil := List.append_right_eq_self.mp heq
        exact hne (List.append_eq_nil_iff.mp hnil).1
      have hsame : (e.act prog a).buf = e.buf → opens as = true →
          (e.acts prog (a :: as)).buf ≠ e.buf := by
        intro hbuf hrest heq
        rw [acts_cons] at heq
        exact ih hrest (e.act prog a) (heq.trans hbuf.symm)
      have htext : ∀ {s : Text}, (e.act prog a).buf = e.buf ++ s →
          (!s.isEmpty || opens as) = true → (e.acts prog (a :: as)).buf ≠ e.buf := by
        intro s hs hor
        cases s with
        | nil => exact hsame (by simpa using hs) hor
        | cons c cs => exact hgrows hs (List.cons_ne_nil c cs)
      cases a with
      | writef s => exact htext rfl h
      | writeRaw s => exact htext rfl h
      | writeln s => exact hgrows (u := s ++ ['\n']) (by simp [Emitter.act]) (by simp)
      | recordPos p => cases h
      | writeIndent =>
          obtain ⟨u, hu⟩ := act_buf prog e .writeIndent
          by_cases hne : u = []
          · exact hsame (by rw [hu, hne, List.append_nil]) h
          · exact hgrows hu hne
      | indent => exact hsame rfl h
      | dedent => exact hsame rfl h

/-- A text is mapped to one position at most. -/
theorem mappedTo_unique {o : Occurrence} {x y : Position} {text : Text} {ms : List SourceMapping}
    (hx : o.MappedTo prog x text ms) (hy : o.MappedTo prog y text ms)
    (hown : (Emitter.after prog (o.before ++ o.own)).buf ≠ (Emitter.after prog o.before).buf) :
    x = y := by
  obtain ⟨b, u, rest, -, hb, hu, hmx⟩ := hx
  obtain ⟨b', u', rest', -, hb', hu', hmy⟩ := hy
  obtain rfl : b = b' := hb.symm.trans hb'
  have hne : u ≠ [] := by
    rintro rfl
    rw [hu, hb, List.append_nil] at hown
    exact hown rfl
  obtain rfl : u = u' := List.append_cancel_left (hu.symm.trans hu')
  obtain ⟨ms₁, ms₂, hms, hlater⟩ := hmx hne
  obtain ⟨ms₁', ms₂', hms', hlater'⟩ := hmy hne
  -- the last mapping for the line is both
  have hlast : ∀ {ms ms₁ ms₂ : List SourceMapping} {z : Position},
      ms = ms₁ ++ ⟨1 + newlines b, z⟩ :: ms₂ → (∀ m ∈ ms₂, 1 + newlines b < m.cLine) →
      (ms.filter fun m => decide (m.cLine = 1 + newlines b)).getLast? =
        some ⟨1 + newlines b, z⟩ := by
    intro ms ms₁ ms₂ z hms hlater
    have hnone : ms₂.filter (fun m => decide (m.cLine = 1 + newlines b)) = [] := by
      rw [List.filter_eq_nil_iff]
      intro m hm
      have := hlater m hm
      simp only [decide_eq_true_eq]
      omega
    rw [hms, List.filter_append, List.filter_cons_of_pos (by simp), hnone, List.getLast?_concat]
  have heq := (hlast hms hlater).symm.trans (hlast hms' hlater')
  rw [Option.some.injEq, SourceMapping.mk.injEq] at heq
  exact heq.2

theorem mem_of_mappedTo {o : Occurrence} {x : Position} {text : Text} {ms : List SourceMapping}
    (h : o.MappedTo prog x text ms)
    (hown : (Emitter.after prog (o.before ++ o.own)).buf ≠ (Emitter.after prog o.before).buf) :
    ∃ m ∈ ms, m.position = x := by
  obtain ⟨b, u, rest, -, hb, hu, hmap⟩ := h
  have hne : u ≠ [] := by
    rintro rfl
    rw [hu, hb, List.append_nil] at hown
    exact hown rfl
  obtain ⟨ms₁, ms₂, rfl, -⟩ := hmap hne
  exact ⟨_, List.mem_append_right _ List.mem_cons_self, rfl⟩

/-- A map writes text. -/
theorem map_writes {m : MapDecl} {n n' : Names} {as : List Act} {e : Emitter}
    (h : writeMap m n = .ok ((), n', as)) : (e.acts prog as).buf ≠ e.buf := by
  have hout : out (writeMap m) n = some ((), n', as) := out_eq_some.mpr h
  unfold writeMap at hout
  split at hout
  · rw [out_bind, recordPos, out_perform, Option.bind_some] at hout
    obtain ⟨q, hq, heq⟩ := Option.map_eq_some_iff.mp hout
    cases heq
    have hopens : opens q.2.2 = true := opens_writeMapDef m _ _ hq
    rw [List.singleton_append, acts_cons]
    have hbuf : ∀ p, (e.act prog (.recordPos p)).buf = e.buf := by
      intro p
      simp only [Emitter.act]
      split_ifs <;> rfl
    rw [← hbuf]
    exact text_of_opens hopens _
  · exact text_of_opens (opens_writeMapDef m _ _ hout) e

end

/-- **The source map is right up to the maps that are not named first.**  Let a file be
parsed and emitted.  At every moment the line counter is one plus the newlines in the buffer,
positions are recorded at starts of lines, and the lines of the mappings never go back.  And
every construct that is written is mapped, by the last mapping for the line on which its text
begins, to its Go position, exactly when every map stands where its specification begins. -/
theorem emit_sourceMap_iff {file : File} {prog : Program} {label text : Text}
    {ms : List SourceMapping} (hparse : parseFile file = .ok prog)
    (hemit : emit prog label = .ok (text, ms)) (hpos : ∀ c ∈ constructs prog, c.recordedPos ≠ 0) :
    ∃ acts occs, SoundRun prog label text ms acts occs ∧
      ((∀ o ∈ occs, o.Mapped prog text ms) ↔ MapsNamedFirst file) := by
  obtain ⟨acts, occs, hrun, hrecorded⟩ := emit_soundRun hemit hpos
  refine ⟨acts, occs, hrun, ?_⟩
  have hmem : ∀ {c : Construct}, c ∈ constructs prog ↔ ∃ o ∈ occs, o.construct = c := by
    intro c
    rw [← hrun.composed.constructs, List.mem_map]
  rw [← mapsInPlace_iff hparse]
  constructor
  · intro h c hc
    by_cases hmap : ∃ m, c = .map m
    · -- a map writes text, which has one last mapping
      obtain ⟨m, rfl⟩ := hmap
      obtain ⟨o, ho, hc⟩ := hmem.mp hc
      have hat := h o ho
      have hrec := hrecorded o ho
      rw [Occurrence.Mapped, hc] at hat
      rw [hc] at hrec
      obtain ⟨-, -, n, n', hown⟩ := hrun.composed.within o ho
      rw [hc] at hown
      refine mappedTo_unique hrec hat ?_
      rw [Emitter.after, acts_append]
      exact map_writes hown
    · exact position_recorded hparse hc fun m hm => hmap ⟨m, hm⟩
  · intro h o ho
    have hrec := hrecorded o ho
    rw [h _ (hmem.mpr ⟨o, ho, rfl⟩)] at hrec
    exact hrec

/-! ## Two maps -/

/-- A file with the program `Pass` and these map names in one `var`, each an array of 16
entries. -/
def arraysFile (ids : List Ident) : File where
  pos := 1
  comments := [⟨20, "//bpf:license GPL"⟩, ⟨80, "//bpf:section xdp"⟩]
  imports := [⟨40, "\"github.com/boratanrikulu/gobee/bpf\"", some bpfPkgPath⟩]
  decls := [.imports, .var [⟨ids, none, ids.filterMap fun _ => arrayLiteral "16"⟩],
    .func passDoc passDecl]
  position := fun p => ⟨"x.go", 1, p⟩
  info :=
    { methodFile.info with
      defs := ids.map fun id => (id, some ⟨id, .var, .named ⟨some bpfPkgPath, "ArrayMap"⟩
        [.basic .uint32, .basic .uint32]⟩) }

/-- The program of the file. -/
def arraysProgram (ids : List Ident) (spec : Pos) : Program :=
  { methodProgram with
    position := fun p => ⟨"x.go", 1, p⟩
    info := (arraysFile ids).info
    maps := ids.map fun id => ⟨id.name, ⟨"x.go", 1, id.pos⟩, "array", some (.basic .uint32),
      some (.basic .uint32), 16, some spec⟩
    programs := [⟨"Pass", "xdp", ⟨"x.go", 1, 100⟩, passDecl⟩]
    types := [] }

/-- The program with the array `a`. -/
def arrayProgram : Program := arraysProgram [⟨['a'], 50⟩] 50

theorem arraysFile_parse : parseFile (arraysFile [⟨['a'], 50⟩]) = .ok arrayProgram := rfl

theorem arrayProgram_pos : ∀ c ∈ constructs arrayProgram, c.recordedPos ≠ 0 := by
  simp [constructs, arrayProgram, arraysProgram, methodProgram, passDecl, bodyConstructs,
    blockConstructs, stmtConstructs, Construct.recordedPos, Stmt.pos]

theorem arraysFile_first : MapsNamedFirst (arraysFile [⟨['a'], 50⟩]) := by
  intro x hx
  rw [List.mem_singleton.mp hx]
  rfl

/-- `var a = ..`: everything is mapped to its position. -/
theorem arrayProgram_mapped :
    parseFile (arraysFile [⟨['a'], 50⟩]) = .ok arrayProgram ∧
      ∃ text ms acts occs, emit arrayProgram "x.go" = .ok (text, ms) ∧
        SoundRun arrayProgram "x.go" text ms acts occs ∧
        ∀ o ∈ occs, o.Mapped arrayProgram text ms := by
  obtain ⟨acts, occs, hrun, hiff⟩ :=
    @emit_sourceMap_iff (arraysFile [⟨['a'], 50⟩]) arrayProgram "x.go" _ _ arraysFile_parse rfl
      arrayProgram_pos
  exact ⟨arraysFile_parse, _, _, acts, occs, rfl, hrun, hiff.mpr arraysFile_first⟩

/-- `var a, b = .., ..`: the map `b` is mapped to `a`. -/
theorem secondArray_misplaced :
    ∃ prog text ms acts occs, parseFile (arraysFile [⟨['a'], 50⟩, ⟨['b'], 53⟩]) = .ok prog ∧
      validate prog = [] ∧ emit prog "x.go" = .ok (text, ms) ∧
      SoundRun prog "x.go" text ms acts occs ∧
      (text.splitOn '\n')[15]? = some ("struct \x7b" : Text) ∧
      (text.splitOn '\n')[20]? = some ("\x7d b SEC(\".maps\");" : Text) ∧
      ⟨16, ⟨"x.go", 1, 50⟩⟩ ∈ ms ∧ (∀ m ∈ ms, m.position ≠ ⟨"x.go", 1, 53⟩) ∧
      ¬ ∀ o ∈ occs, o.Mapped prog text ms := by
  have hpos : ∀ c ∈ constructs (arraysProgram [⟨['a'], 50⟩, ⟨['b'], 53⟩] 50),
      c.recordedPos ≠ 0 := by
    simp [constructs, arraysProgram, methodProgram, passDecl, bodyConstructs, blockConstructs,
      stmtConstructs, Construct.recordedPos, Stmt.pos]
  obtain ⟨acts, occs, hrun, -⟩ :=
    @emit_soundRun (arraysProgram [⟨['a'], 50⟩, ⟨['b'], 53⟩] 50) "x.go" _ _ rfl hpos
  have hnone : ∀ m ∈ (Emitter.after (arraysProgram [⟨['a'], 50⟩, ⟨['b'], 53⟩] 50) acts).mappings,
      m.position ≠ ⟨"x.go", 1, 53⟩ := by
    rw [← hrun.mappings]
    decide
  have hvalid : findings (arraysProgram [⟨['a'], 50⟩, ⟨['b'], 53⟩] 50) = [] := rfl
  refine ⟨arraysProgram [⟨['a'], 50⟩, ⟨['b'], 53⟩] 50, _, _, acts, occs, rfl,
    validate_eq_nil.mpr hvalid, rfl, hrun, by decide, by decide, by decide,
    hrun.mappings ▸ hnone, fun h => ?_⟩
  obtain ⟨o, ho, hc⟩ : ∃ o ∈ occs, o.construct = .map ⟨['b'], ⟨"x.go", 1, 53⟩, "array",
      some (.basic .uint32), some (.basic .uint32), 16, some 50⟩ := by
    rw [← List.mem_map, hrun.composed.constructs]
    simp [constructs, arraysProgram]
  obtain ⟨-, -, n, n', hown⟩ := hrun.composed.within o ho
  rw [hc, Construct.write] at hown
  have hmapped := h o ho
  rw [Occurrence.Mapped, hc] at hmapped
  obtain ⟨m, hm, hat⟩ := mem_of_mappedTo hmapped (by
    rw [Emitter.after, acts_append]
    exact map_writes hown)
  rw [hrun.mappings] at hm
  exact hnone m hm hat

end Gobee
