/-
# The declarations of the bindings as text

The results about the bindings speak of the declarations of the generated file, of the
statements of `AttachAll` and of the published constants; `WriteBindings` prints a text.  Here
the grammar of such a text is written down, with the form of each declaration, and the text is
read by it.

* `DeclText` : what may be printed for a declaration;
* `FileText` : a text that declares, one after the other, some declarations;
* `attachAllStmts_eq` : the body of `AttachAll` is the print of its statements;
* `bindingsText_declares` : **behind its imports the generated file declares exactly the
  declarations of `writeBindings`, in their order**.
-/
import Gobee.BindingsText

namespace Gobee

/-! ## The forms of Go declarations -/

/-- A line one level further in. -/
def tabbed (l : Text) : Text := "\t" ++ l

/-- A struct type, given the lines of its fields. -/
def structText (name : Text) (fields : List Text) : Text :=
  textLines ["type " ++ name ++ " struct \x7b"] ++ textLines (fields.map tabbed) ++
    textLines ["\x7d"]

/-- A function, given what stands behind `func` and the lines of its body. -/
def funcText (head : Text) (body : List Text) : Text :=
  textLines (("func " ++ head ++ " \x7b") :: body ++ (["\x7d"] : List Text))

/-- Every line is indented. -/
def allTabbed (ls : List Text) : Bool := ls.all fun l => l.head? == some '\t'

/-- Every line is blank or a comment. -/
def blankOrComment (ls : List Text) : Bool :=
  ls.all fun l => l.isEmpty || ("//" : Text).isPrefixOf l

/-- The line of a field with its tag. -/
def GeneratedField.line (f : GeneratedField) : Text :=
  f.name ++ " " ++ f.type ++ " `ebpf:" ++ quote f.tag ++ "`"

/-! ## The statements of `AttachAll` -/

/-- The call of an attach method. -/
def AttachCall.text (call : AttachCall) : Text :=
  "o.Attach" ++ call.name ++ if call.ifindex then ("(xdpIfindex)" : Text) else "()"

/-- Statements on one line. -/
def oneLine (ls : List Text) : Text := join "; " ls

/-- An else part on one line, if there is one. -/
def elseText (ls : List Text) : Text :=
  if ls = [] then [] else " else \x7b " ++ oneLine ls ++ " \x7d"

mutual

/-- The lines of a statement; the blocks of `if err != nil` stand on one line. -/
def GoStmt.lines : GoStmt → List Text
  | .attach call => ["l, err := " ++ call.text]
  | .ifErr none body els =>
      ["if err != nil \x7b " ++ oneLine (goLines body) ++ " \x7d" ++ elseText (goLines els)]
  | .ifErr (some call) body els =>
      ["if l, err := " ++ call.text ++ "; err != nil \x7b", tabbed (oneLine (goLines body)),
        "\x7d" ++ elseText (goLines els)]
  | .ifIfindex body =>
      (["if xdpIfindex != 0 \x7b"] : List Text) ++ (goLines body).map tabbed ++
        (["\x7d"] : List Text)
  | .cleanup => ["cleanup()"]
  | .fail name => ["return nil, fmt.Errorf(\"attach " ++ name ++ ": %w\", err)"]
  | .append => ["ls = append(ls, l)"]
  | .done => ["return ls, nil"]

/-- The lines of statements. -/
def goLines : List GoStmt → List Text
  | [] => []
  | s :: ss => s.lines ++ goLines ss

end

/-- The declarations at the top of `AttachAll`. -/
def attachAllVars : List Text :=
  ["var ls []link.Link", "cleanup := func() \x7b for _, l := range ls \x7b l.Close() \x7d \x7d"]

/-- What stands behind `func` for `AttachAll`. -/
def attachAllHead (recv : Text) (xdpIfindex : Bool) : Text :=
  "(o *" ++ recv ++ ") AttachAll(" ++ (if xdpIfindex then ("xdpIfindex int" : Text) else []) ++
    ") ([]link.Link, error)"

/-! ## The grammar -/

section

variable (printer : Printer) (prog : Program) (sourcemap : Text)

/-- What may be printed for a declaration.  The declaration says what stands in a struct and in
`AttachAll`; other methods and functions have any parameters, results and indented lines. -/
inductive DeclText : GeneratedDecl → Text → Prop
  | struct (name : Text) (fields : List GeneratedField) :
      DeclText (.struct name fields) (structText name (fields.map GeneratedField.line))
  | bundle (name : Text) (embedded : List Text) :
      DeclText (.bundle name embedded) (structText name embedded)
  | method (recv name signature : Text) {body : List Text} (hbody : allTabbed body = true) :
      DeclText (.method recv name)
        (funcText ("(o *" ++ recv ++ ") " ++ name ++ "(" ++ signature) body)
  | attachAll (recv : Text) (xdpIfindex : Bool) (body : List GoStmt) :
      DeclText (.attachAll recv xdpIfindex body)
        (funcText (attachAllHead recv xdpIfindex) ((attachAllVars ++ goLines body).map tabbed))
  | func (name signature : Text) {body : List Text} (hbody : allTabbed body = true) :
      DeclText (.func name) (funcText (name ++ "(" ++ signature) body)
  | var (name : Text) : DeclText (.var name) ("var " ++ name ++ " = `" ++ sourcemap ++ "`\n")
  | type {t : UserTypeDecl} {spec : Text} (ht : t ∈ prog.types)
      (hspec : printer.type t = .ok spec) : DeclText (.type t.name) ("type " ++ spec ++ "\n")

/-- The line of a constant in a group. -/
def ConstLine (c : ConstDecl) (t : Text) : Prop :=
  ∃ value, printer.value c.value = .ok value ∧ t = "\t" ++ c.name ++ " = " ++ value ++ "\n"

/-- A text that declares, one after the other, some declarations; the published constants stand
in one group. -/
inductive FileText : List GeneratedDecl → Text → Prop
  | nil : FileText [] []
  | filler (ls : List Text) {rest : Text} {ds : List GeneratedDecl}
      (hls : blankOrComment ls = true) (h : FileText ds rest) : FileText ds (textLines ls ++ rest)
  | decl {d : GeneratedDecl} {t rest : Text} {ds : List GeneratedDecl}
      (ht : DeclText printer prog sourcemap d t) (h : FileText ds rest) :
      FileText (d :: ds) (t ++ rest)
  | consts {ls : List Text} {rest : Text} {ds : List GeneratedDecl}
      (hls : List.Forall₂ (ConstLine printer) (publishedConsts prog.consts) ls)
      (h : FileText ds rest) :
      FileText ((publishedConsts prog.consts).map (fun c => .const c.name) ++ ds)
        (textLines ["const ("] ++ ls.flatten ++ textLines [")"] ++ rest)

end

section

variable {printer : Printer} {prog : Program} {sourcemap : Text}

theorem FileText.append {ds ds' : List GeneratedDecl} {s s' : Text}
    (h : FileText printer prog sourcemap ds s) (h' : FileText printer prog sourcemap ds' s') :
    FileText printer prog sourcemap (ds ++ ds') (s ++ s') := by
  induction h with
  | nil => exact h'
  | filler ls hls _ ih =>
      rw [List.append_assoc]
      exact .filler ls hls ih
  | decl ht _ ih =>
      rw [List.append_assoc]
      exact .decl ht ih
  | consts hls _ ih =>
      rw [List.append_assoc, List.append_assoc]
      exact .consts hls ih

/-- One declaration, with filler around it. -/
theorem FileText.one {d : GeneratedDecl} {t : Text} (before after : List Text)
    (ht : DeclText printer prog sourcemap d t) (hbefore : blankOrComment before = true)
    (hafter : blankOrComment after = true) :
    FileText printer prog sourcemap [d] (textLines before ++ t ++ textLines after) := by
  have hrest : FileText printer prog sourcemap [] (textLines after ++ []) :=
    .filler after hafter .nil
  rw [List.append_nil] at hrest
  rw [List.append_assoc]
  exact .filler before hbefore (.decl ht hrest)

/-- A declaration for each element of a list. -/
theorem FileText.flatMap {α : Type} {as : List α} {d : α → GeneratedDecl} {t : α → Text}
    (h : ∀ a ∈ as, FileText printer prog sourcemap [d a] (t a)) :
    FileText printer prog sourcemap (as.map d) (as.flatMap t) := by
  induction as with
  | nil => exact .nil
  | cons a as ih =>
      exact (h a List.mem_cons_self).append (ih fun a' ha' => h a' (List.mem_cons_of_mem _ ha'))

theorem textLines_append (ls ls' : List Text) :
    textLines (ls ++ ls') = textLines ls ++ textLines ls' := List.flatMap_append

theorem textLines_map {α : Type} (f : α → Text) (as : List α) :
    textLines (as.map f) = as.flatMap fun a => ended (f a) := by
  rw [textLines, List.flatMap_map]

/-- Lines that are a function with filler around it. -/
theorem FileText.func {d : GeneratedDecl} {head line : Text} (before body after : List Text)
    (hline : line = "func " ++ head ++ " \x7b")
    (ht : DeclText printer prog sourcemap d (funcText head body))
    (hbefore : blankOrComment before = true) (hafter : blankOrComment after = true) :
    FileText printer prog sourcemap [d]
      (textLines (before ++ line :: body ++ ("\x7d" : Text) :: after)) := by
  have htext : textLines (before ++ line :: body ++ ("\x7d" : Text) :: after) =
      textLines before ++ funcText head body ++ textLines after := by
    rw [funcText, ← hline, ← textLines_append, ← textLines_append]
    simp
  rw [htext]
  exact .one before after ht hbefore hafter

/-! ## The parts of the file -/

theorem declares_fieldStruct (comment name type : Text) (fields : List BindingField) :
    FileText printer prog sourcemap
      [.struct name (fields.map fun f => ⟨f.go, "*ebpf." ++ type, f.elf⟩)]
      (textLines ["// " ++ comment] ++ fieldStruct name type fields) := by
  have hfield : ∀ f : BindingField, fieldText type f =
      ended (tabbed (GeneratedField.line ⟨f.go, "*ebpf." ++ type, f.elf⟩)) := by
    intro f
    unfold fieldText ended tabbed GeneratedField.line
    simp
  have htext : fieldStruct name type fields =
      structText name ((fields.map fun f => (⟨f.go, "*ebpf." ++ type, f.elf⟩ : GeneratedField)).map
        GeneratedField.line) ++ textLines [[]] := by
    rw [structText, List.map_map, List.map_map, textLines_map, fieldStruct,
      List.flatMap_congr fun f _ => hfield f]
    simp [textLines]
  rw [htext, ← List.append_assoc]
  exact .one _ [[]] (.struct _ _) rfl rfl

/-- The three structs. -/
theorem declares_structsText (pascal : Text) (programs maps : List BindingField) :
    FileText printer prog sourcemap
      [.struct (pascal ++ "Programs") (programs.map fun f => ⟨f.go, "*ebpf.Program", f.elf⟩),
        .struct (pascal ++ "Maps") (maps.map fun f => ⟨f.go, "*ebpf.Map", f.elf⟩),
        .bundle (pascal ++ "Objects") [pascal ++ "Programs", pascal ++ "Maps"]]
      (structsText pascal programs maps) := by
  have hbundle : FileText printer prog sourcemap
      [.bundle (pascal ++ "Objects") [pascal ++ "Programs", pascal ++ "Maps"]]
      (textLines
        ["// " ++ pascal ++ "Objects bundles every program and map for one transpilation unit."] ++
      structText (pascal ++ "Objects") [pascal ++ "Programs", pascal ++ "Maps"] ++
      textLines [[]]) := .one _ _ (.bundle _ _) rfl rfl
  have htext : structsText pascal programs maps =
      (textLines
          ["// " ++ (pascal ++ "Programs holds one *ebpf.Program per //bpf:section function.")] ++
        fieldStruct (pascal ++ "Programs") "Program" programs) ++
      ((textLines
          ["// " ++ (pascal ++ "Maps holds one *ebpf.Map per package-level map declaration.")] ++
        fieldStruct (pascal ++ "Maps") "Map" maps) ++
      (textLines
        ["// " ++ pascal ++ "Objects bundles every program and map for one transpilation unit."] ++
      structText (pascal ++ "Objects") [pascal ++ "Programs", pascal ++ "Maps"] ++
      textLines [[]])) := by
    unfold structsText structText tabbed
    repeat rw [String.toList_ofList]
    simp [textLines]
  rw [htext]
  exact (declares_fieldStruct _ _ _ _).append ((declares_fieldStruct _ _ _ _).append hbundle)

/-- The line of `Close` for a field. -/
def closeLine (f : BindingField) : Text :=
  "if o." ++ f.go ++ " != nil \x7b errs = append(errs, o." ++ f.go ++ ".Close()) \x7d"

/-- `Close`. -/
theorem declares_closeText (pascal : Text) (programs maps : List BindingField) :
    FileText printer prog sourcemap [.method (pascal ++ "Objects") "Close"]
      (closeText pascal programs maps) := by
  have hline : ∀ f, closeField f = ended (tabbed (closeLine f)) := by
    intro f
    unfold closeField ended tabbed closeLine
    simp
  have hlines : ∀ fs : List BindingField,
      fs.flatMap closeField = textLines (fs.map fun f => tabbed (closeLine f)) := by
    intro fs
    rw [textLines_map]
    exact List.flatMap_congr fun f _ => hline f
  have htext : closeText pascal programs maps =
      textLines ((["// Close releases every map and program owned by o."] : List Text) ++
        ("func (o *" ++ pascal ++ "Objects) Close() error \x7b") ::
          (("\tvar errs []error" : Text) ::
            (maps ++ programs).map (fun f => tabbed (closeLine f)) ++
            (["\treturn errors.Join(errs...)"] : List Text)) ++
        ("\x7d" : Text) :: [[]]) := by
    rw [closeText, hlines, hlines, ← textLines_append, ← textLines_append, ← textLines_append]
    simp
  rw [htext]
  refine .func _ _ _ (by simp) (.method _ _ ") error" ?_) ?_ rfl
  · simp [allTabbed, tabbed]
  · repeat rw [String.toList_ofList]
    rfl

/-- `Load<Stem>`. -/
theorem declares_loaderText (pascal : Text) :
    FileText printer prog sourcemap [.func ("Load" ++ pascal)] (loaderText pascal) := by
  unfold loaderText
  refine .func [_, _, _, _, _] [_, _, _, _, _, _, _, _] [[]] ?_
    (.func _ ("spec *ebpf.CollectionSpec) (*" ++ pascal ++ "Objects, error)") ?_) ?_ rfl
  · repeat rw [String.toList_ofList]
    simp
  -- each literal as its list of characters: the first ones say what the line is
  all_goals
    repeat rw [String.toList_ofList]
    rfl

/-- The source map between backquotes. -/
theorem declares_sourceMap (pascal stem : Text) :
    FileText printer prog sourcemap [.var (pascal ++ "SourceMap")]
      (sourceMapDecl pascal stem ++ sourcemap ++ "`" ++ "\n\n") := by
  have htext : sourceMapDecl pascal stem ++ sourcemap ++ "`" ++ "\n\n" =
      textLines
        ["// " ++ pascal ++ "SourceMap is the C-line → Go-position table for " ++ stem ++
            ".bpf.c. It's",
          "// embedded so Load" ++ pascal ++ " can annotate verifier errors without shipping",
          "// the .map file alongside the binary."] ++
        ("var " ++ (pascal ++ "SourceMap") ++ " = `" ++ sourcemap ++ "`\n") ++ textLines [[]] := by
    rw [sourceMapDecl]
    simp only [List.append_assoc]
    refine congrArg (textLines _ ++ ·) ?_
    simp [textLines, ended]
  rw [htext]
  exact .one _ _ (.var _) rfl rfl

/-- `annotate<Stem>VerifierErr`. -/
theorem declares_annotatorText (pascal : Text) :
    FileText printer prog sourcemap [.func ("annotate" ++ pascal ++ "VerifierErr")]
      (annotatorText pascal) := by
  unfold annotatorText
  refine .func [_, _, _] [_, _, _, _, _, _, _, _, _, _] [] ?_ (.func _ "err error) error" ?_)
    ?_ rfl
  · repeat rw [String.toList_ofList]
    simp
  all_goals
    repeat rw [String.toList_ofList]
    rfl

/-- `check<Stem>Kernel`. -/
theorem declares_kernelCheckText (pascal : Text) :
    FileText printer prog sourcemap [.func ("check" ++ pascal ++ "Kernel")]
      (kernelCheckText pascal) := by
  unfold kernelCheckText
  refine .func [] [_, _, _, _, _, _, _, _, _] [] ?_
    (.func _ "spec *ebpf.CollectionSpec) error" ?_) rfl rfl
  · repeat rw [String.toList_ofList]
    simp
  · repeat rw [String.toList_ofList]
    rfl

/-- An attach method. -/
theorem declares_attachText (pascal : Text) (a : AttachHelper) :
    FileText printer prog sourcemap [.method (pascal ++ "Objects") ("Attach" ++ a.field.go)]
      (attachText pascal a) :=
  .func [_, _] [_] [] (by simp)
    (.method _ _ (a.template.params ++ ") (link.Link, error)") rfl) rfl rfl

/-- The statements for one program are printed line by line. -/
theorem attachAllStmts_eq (a : AttachHelper) :
    attachAllStmts a = textLines ((goLines (attachStmts a)).map tabbed) := by
  unfold attachAllStmts attachStmts
  split_ifs
  · simp only [goLines, GoStmt.lines, List.map_cons, List.map_nil, List.cons_append,
      List.nil_append, List.append_nil]
    refine congrArg textLines (congrArg₂ List.cons ?_ (congrArg₂ List.cons ?_
      (congrArg₂ List.cons ?_ (congrArg₂ List.cons ?_ (congrArg₂ List.cons ?_ rfl)))))
    · simp [tabbed]
    · unfold AttachCall.text
      simp [tabbed]
    · simp [tabbed, oneLine, elseText]
    · simp [tabbed]
    · simp [tabbed]
  · simp only [goLines, GoStmt.lines, List.map_cons, List.map_nil, List.cons_append,
      List.nil_append, List.append_nil]
    refine congrArg textLines (congrArg₂ List.cons ?_ (congrArg₂ List.cons ?_
      (congrArg₂ List.cons ?_ rfl)))
    · unfold AttachCall.text
      simp [tabbed]
    · simp [tabbed, oneLine]
    · simp [tabbed, oneLine, elseText]

/-- `runningKernel`. -/
theorem declares_runningKernelText :
    FileText printer prog sourcemap [.func "runningKernel"] runningKernelText := by
  unfold runningKernelText
  refine .func [_, _, _, _, _] [_, _, _, _, _, _, _, _, _, _] [[]] ?_
    (.func "runningKernel" ") (bpfvetversion.KernelVersion, bool)" ?_) ?_ rfl
  all_goals
    repeat rw [String.toList_ofList]
    rfl

theorem goLines_append (ss ss' : List GoStmt) :
    goLines (ss ++ ss') = goLines ss ++ goLines ss' := by
  induction ss with
  | nil => rfl
  | cons s ss ih => rw [List.cons_append, goLines, goLines, ih, List.append_assoc]

/-- The statements for all programs are printed line by line. -/
theorem flatMap_attachAllStmts (as : List AttachHelper) :
    as.flatMap attachAllStmts = textLines ((goLines (as.flatMap attachStmts)).map tabbed) := by
  induction as with
  | nil => rfl
  | cons a as ih =>
      rw [List.flatMap_cons, List.flatMap_cons, goLines_append, List.map_append, textLines_append,
        attachAllStmts_eq, ih]

/-- `AttachAll`, if there is anything to attach. -/
theorem declares_attachAllText (pascal : Text) (as : List AttachHelper) :
    FileText printer prog sourcemap
      (((attachAllBody as).map fun body => GeneratedDecl.attachAll (pascal ++ "Objects")
        (as.any fun a => a.field.section_ = "xdp") body).toList)
      (attachAllText pascal as) := by
  by_cases hempty : as = []
  · rw [attachAllBody, attachAllText, if_pos hempty, if_pos hempty]
    exact .nil
  rw [attachAllBody, if_neg hempty]
  have hvars : attachAllVars.map tabbed = (["\tvar ls []link.Link",
      "\tcleanup := func() \x7b for _, l := range ls \x7b l.Close() \x7d \x7d"] : List Text) := by
    simp [attachAllVars, tabbed]
  have hdone : (goLines [.done]).map tabbed = (["\treturn ls, nil"] : List Text) := by
    simp [goLines, GoStmt.lines, tabbed]
  -- the lines of the body, as the loop over the attachers prints them
  have hlines : (attachAllVars ++ goLines (as.flatMap attachStmts ++ [.done])).map tabbed =
      attachAllVars.map tabbed ++ ((goLines (as.flatMap attachStmts)).map tabbed ++
        (goLines [.done]).map tabbed) := by
    rw [goLines_append, List.map_append, List.map_append]
  rw [hvars, hdone] at hlines
  have hdecl : ∀ xdp, DeclText printer prog sourcemap
      (.attachAll (pascal ++ "Objects") xdp (as.flatMap attachStmts ++ [.done])) _ := fun xdp =>
    .attachAll (pascal ++ "Objects") xdp _
  simp only [hlines] at hdecl
  rw [attachAllText, if_neg hempty, flatMap_attachAllStmts]
  cases as.any fun a => a.field.section_ = "xdp"
  · have hline : ("func (o *" ++ pascal ++
          "Objects) AttachAll() ([]link.Link, error) \x7b" : Text) =
        "func " ++ attachAllHead (pascal ++ "Objects") false ++ " \x7b" := by
      unfold attachAllHead
      repeat rw [String.toList_ofList]
      simp
    have hfile := FileText.func [[],
        "// AttachAll attaches every program whose //bpf:section gobee",
        "// understands. The returned slice is in declaration order; on",
        "// error any links already opened are closed before returning."] _ []
      hline (hdecl false) (by repeat rw [String.toList_ofList]; rfl) rfl
    rw [if_neg Bool.false_ne_true, ← textLines_append, ← textLines_append, ← textLines_append,
      ← textLines_append]
    simp only [List.cons_append, List.nil_append, List.append_assoc] at hfile ⊢
    exact hfile
  · have hline : ("func (o *" ++ pascal ++
          "Objects) AttachAll(xdpIfindex int) ([]link.Link, error) \x7b" : Text) =
        "func " ++ attachAllHead (pascal ++ "Objects") true ++ " \x7b" := by
      unfold attachAllHead
      repeat rw [String.toList_ofList]
      simp
    have hfile := FileText.func [[],
        "// AttachAll attaches every program whose //bpf:section gobee",
        "// understands. The returned slice is in declaration order; on",
        "// error any links already opened are closed before returning.",
        "// xdpIfindex is the network interface index for XDP programs;",
        "// pass 0 to skip XDP attachment."] _ [] hline (hdecl true)
        (by repeat rw [String.toList_ofList]; rfl) rfl
    rw [if_pos rfl, ← textLines_append, ← textLines_append, ← textLines_append,
      ← textLines_append]
    simp only [List.cons_append, List.nil_append, List.append_assoc] at hfile ⊢
    exact hfile

/-- The loop over the types prints types of the program. -/
theorem declares_typesText {ts : List UserTypeDecl} (hts : ∀ t ∈ ts, t ∈ prog.types) {s : Text}
    (h : typesText printer ts = .ok s) :
    FileText printer prog sourcemap (ts.map fun t => .type t.name) s := by
  induction ts generalizing s with
  | nil =>
      cases h
      exact .nil
  | cons t ts ih =>
      obtain ⟨spec, hspec, h⟩ := bind_ok h
      obtain ⟨rest, hrest, h⟩ := bind_ok h
      cases h
      rw [List.forall_mem_cons] at hts
      have htext : ("type " ++ spec ++ "\n\n" : Text) =
          textLines [] ++ ("type " ++ spec ++ "\n") ++ textLines [[]] := by
        simp [textLines, ended]
      rw [htext]
      exact (FileText.one [] [[]] (.type hts.1 (wrapError_ok hspec)) rfl rfl).append
        (ih hts.2 hrest)

theorem declares_republishedTypes {s : Text} (h : republishedTypes printer prog.types = .ok s) :
    FileText printer prog sourcemap (prog.types.map fun t => .type t.name) s := by
  unfold republishedTypes at h
  split_ifs at h with hempty
  · cases h
    rw [hempty]
    exact .nil
  · obtain ⟨specs, hspecs, h⟩ := bind_ok h
    cases h
    exact .filler _ rfl (declares_typesText (fun _ ht => ht) hspecs)

/-- The loop over the constants prints the published constants. -/
theorem constLines {f : Nat → UserConstDecl → ConstDecl}
    (hf : ∀ j c, (f j c).name = pascalCase c.name ∧ (f j c).value = c.value)
    {cs : List UserConstDecl} {s : Text} (h : constsText printer cs = .ok s) :
    ∃ ls, s = ls.flatten ∧ List.Forall₂ (ConstLine printer) (cs.mapIdx f) ls := by
  induction cs generalizing f s with
  | nil =>
      cases h
      exact ⟨[], rfl, .nil⟩
  | cons c cs ih =>
      obtain ⟨value, hvalue, h⟩ := bind_ok h
      obtain ⟨rest, hrest, h⟩ := bind_ok h
      cases h
      obtain ⟨ls, rfl, hls⟩ := ih (fun j => hf (j + 1)) hrest
      rw [List.mapIdx_cons]
      refine ⟨("\t" ++ pascalCase c.name ++ " = " ++ value ++ "\n") :: ls, rfl, .cons ?_ hls⟩
      obtain ⟨hname, hval⟩ := hf 0 c
      exact ⟨value, by rw [hval]; exact wrapError_ok hvalue, by rw [hname]⟩

/-- The constants of the program. -/
theorem declares_republishedConsts {s : Text}
    (h : republishedConsts printer prog.consts = .ok s) :
    FileText printer prog sourcemap (prog.consts.map fun c => .const (pascalCase c.name)) s := by
  unfold republishedConsts at h
  split_ifs at h with hempty
  · cases h
    rw [hempty]
    exact .nil
  · obtain ⟨specs, hspecs, h⟩ := bind_ok h
    cases h
    obtain ⟨ls, rfl, hls⟩ := constLines (f := fun j c => ⟨pascalCase c.name, j, none, c.value⟩)
      (fun _ _ => ⟨rfl, rfl⟩) hspecs
    have hnames : (prog.consts.map fun c => GeneratedDecl.const (pascalCase c.name)) =
        (publishedConsts prog.consts).map (fun c => .const c.name) ++ [] := by
      rw [publishedConsts, List.append_nil]
      refine List.ext_getElem? fun i => ?_
      rw [List.getElem?_map, List.getElem?_map, List.getElem?_mapIdx, Option.map_map]
      rfl
    rw [hnames]
    have hgroup : FileText printer prog sourcemap
        ((publishedConsts prog.consts).map (fun c => .const c.name) ++ []) _ :=
      .filler
        ["// Constants mirrored from the kernel-side program. Capitalized so",
          "// userspace can reference them directly (kernel-side names may be",
          "// unexported; the bindings always export them)."] rfl (.consts hls .nil)
    rw [List.append_nil (textLines _ ++ _ ++ _), ← List.append_assoc, ← List.append_assoc,
      ← textLines_append] at hgroup
    exact hgroup

/-- **The generated file declares what `writeBindings` says.**  It is a header, up to the
imports, and behind it the declarations in their order, with nothing but blank lines and
comments between them. -/
theorem bindingsText_declares {package stem : Text} {programs maps : List BindingField}
    {file : Text}
    (h : bindingsText printer prog package stem programs maps sourcemap = .ok file) :
    ∃ decls body, writeBindings prog package stem programs maps = .ok decls ∧
      file = fileHeader (pascalCase stem) package stem (!(attachers programs).isEmpty) ++ body ∧
      FileText printer prog sourcemap decls body := by
  obtain ⟨types, consts, htypes, hconsts, rfl⟩ := bindingsText_ok h
  generalize hpascal : pascalCase stem = pascal
  refine ⟨bindingDecls prog pascal programs maps,
    structsText pascal programs maps ++ (closeText pascal programs maps ++ (loaderText pascal ++
    ((sourceMapDecl pascal stem ++ sourcemap ++ "`" ++ "\n\n") ++ (annotatorText pascal ++
    (kernelCheckText pascal ++ ((attachers programs).flatMap (attachText pascal) ++
    (attachAllText pascal (attachers programs) ++ (runningKernelText ++ (types ++ consts))))))))),
    ?_, ?_, ?_⟩
  · unfold bindingsText at h
    unfold writeBindings
    split_ifs at h ⊢
    · cases h
    · cases h
    · rw [hpascal]
  · simp only [bindingsHead, bindingsTail, hpascal, List.append_assoc]
  · simp only [bindingDecls, List.append_assoc (α := GeneratedDecl)]
    exact (declares_structsText _ programs maps).append
      ((declares_closeText _ programs maps).append
      ((declares_loaderText _).append
      ((declares_sourceMap _ stem).append
      ((declares_annotatorText _).append
      ((declares_kernelCheckText _).append
      ((FileText.flatMap fun a _ => declares_attachText _ a).append
      ((declares_attachAllText _ (attachers programs)).append
      (declares_runningKernelText.append
      ((declares_republishedTypes htypes).append (declares_republishedConsts hconsts))))))))))

end

end Gobee
