/-
# The text of the bindings

`WriteBindings` prints a Go file: the structs with a field for each program and map, `Close`,
the loader, the source map as a raw string, the helpers that annotate verifier errors and
check the kernel, the attach methods, and the types and constants of the program.  The types
and the values of constants are printed by `go/printer`.

* `bindingsText` : the file;
* `scan_bindingsHead`, `closed_bindingsTail` : every literal and comment of the file ends
  where it should;
* `bindings_annotate` : **the loader annotates a verifier log with the positions of the
  program's constructs**, exactly when no file name has a backquote or a carriage return.
-/
import Gobee.BindingNames
import Gobee.Directives
import Gobee.LexModes
import Gobee.MappedLogs

namespace Gobee

open LexModes

/-! ## The file -/

/-- Some lines. -/
def textLines (ls : List Text) : Text := ls.flatMap ended

/-- `strings.Replace(s, old, new, 1)`. -/
def replaceFirst (old new : Text) : Text → Text
  | [] => if old = [] then new else []
  | c :: s =>
      if old.isPrefixOf (c :: s) then new ++ (c :: s).drop old.length
      else c :: replaceFirst old new s

/-- `go/printer`, on the specification of a type and on the value of a constant. -/
structure Printer where
  type : UserTypeDecl → Result Text
  value : Expr → Result Text

/-- The package clause and the imports, with the comment in front. -/
def fileHeader (pascal packageName stem : Text) (needsLink : Bool) : Text :=
  textLines
    ["// Code generated by gobee. DO NOT EDIT.", "//",
      "// Typed accessors for the BPF programs and maps declared in " ++ (stem ++ ".go") ++ ".",
      "// Use Load" ++ pascal ++ " with a *ebpf.CollectionSpec to populate this struct;",
      "// access programs and maps via objs.<Name> instead of",
      "// coll.Programs[\"<name>\"] / coll.Maps[\"<name>\"].", [],
      "package " ++ packageName, [],
      "import (", "\t\"errors\"", "\t\"fmt\"", "\t\"strings\"", [],
      "\t\"github.com/cilium/ebpf\""] ++
  (if needsLink then textLines ["\t\"github.com/cilium/ebpf/link\""] else []) ++
  textLines
    [[], "\tbpfvetanalyzer \"github.com/boratanrikulu/bpfvet/pkg/analyzer\"",
      "\tbpfvetversion \"github.com/boratanrikulu/bpfvet/pkg/version\"",
      "\t\"golang.org/x/sys/unix\"", [], "\t\"github.com/boratanrikulu/gobee/diagnose\"", ")", []]

/-- The field of a program or map. -/
def fieldText (type : Text) (f : BindingField) : Text :=
  "\t" ++ f.go ++ " *ebpf." ++ type ++ " `ebpf:" ++ quote f.elf ++ "`\n"

/-- A struct with a field for each program or map. -/
def fieldStruct (name type : Text) (fields : List BindingField) : Text :=
  textLines ["type " ++ name ++ " struct \x7b"] ++ fields.flatMap (fieldText type) ++
  textLines ["\x7d", []]

/-- The three structs. -/
def structsText (pascal : Text) (programs maps : List BindingField) : Text :=
  textLines ["// " ++ pascal ++ "Programs holds one *ebpf.Program per //bpf:section function."] ++
  fieldStruct (pascal ++ "Programs") "Program" programs ++
  textLines ["// " ++ pascal ++ "Maps holds one *ebpf.Map per package-level map declaration."] ++
  fieldStruct (pascal ++ "Maps") "Map" maps ++
  textLines
    ["// " ++ pascal ++ "Objects bundles every program and map for one transpilation unit.",
      "type " ++ pascal ++ "Objects struct \x7b", "\t" ++ pascal ++ "Programs",
      "\t" ++ pascal ++ "Maps", "\x7d", []]

/-- The statement of `Close` for a field. -/
def closeField (f : BindingField) : Text :=
  "\tif o." ++ f.go ++ " != nil \x7b errs = append(errs, o." ++ f.go ++ ".Close()) \x7d\n"

/-- `Close`. -/
def closeText (pascal : Text) (programs maps : List BindingField) : Text :=
  textLines
    ["// Close releases every map and program owned by o.",
      "func (o *" ++ pascal ++ "Objects) Close() error \x7b", "\tvar errs []error"] ++
  maps.flatMap closeField ++ programs.flatMap closeField ++
  textLines ["\treturn errors.Join(errs...)", "\x7d", []]

/-- `Load<Stem>`. -/
def loaderText (pascal : Text) : Text :=
  textLines
    ["// Load" ++ pascal ++ " populates a fresh " ++ pascal ++
        "Objects from spec. Before loading the",
      "// program into the kernel, it asks bpfvet what kernel version the",
      "// spec needs and compares against the running kernel. After loading,",
      "// any *ebpf.VerifierError is annotated with Go source positions from",
      "// the embedded sourcemap.",
      "func Load" ++ pascal ++ "(spec *ebpf.CollectionSpec) (*" ++ pascal ++ "Objects, error) \x7b",
      "\tif err := check" ++ pascal ++ "Kernel(spec); err != nil \x7b",
      "\t\treturn nil, err",
      "\t\x7d",
      "\tobjs := &" ++ pascal ++ "Objects\x7b\x7d",
      "\tif err := spec.LoadAndAssign(objs, nil); err != nil \x7b",
      "\t\treturn nil, annotate" ++ pascal ++ "VerifierErr(err)",
      "\t\x7d",
      "\treturn objs, nil",
      "\x7d", []]

/-- The comment of the source map and its declaration up to the quote. -/
def sourceMapDecl (pascal stem : Text) : Text :=
  textLines
    ["// " ++ pascal ++ "SourceMap is the C-line → Go-position table for " ++ stem ++
        ".bpf.c. It's",
      "// embedded so Load" ++ pascal ++ " can annotate verifier errors without shipping",
      "// the .map file alongside the binary."] ++
  "var " ++ pascal ++ "SourceMap = `"

/-- `annotate<Stem>VerifierErr`. -/
def annotatorText (pascal : Text) : Text :=
  textLines
    ["// annotate" ++ pascal ++ "VerifierErr wraps err. If err is a *ebpf.VerifierError,",
      "// every C-line reference in the verifier log is annotated with the",
      "// matching Go source position. Other errors pass through unchanged.",
      "func annotate" ++ pascal ++ "VerifierErr(err error) error \x7b",
      "\tvar verr *ebpf.VerifierError",
      "\tif !errors.As(err, &verr) \x7b",
      "\t\treturn err",
      "\t\x7d",
      "\tsm, perr := diagnose.ParseSourceMapBytes([]byte(" ++ pascal ++ "SourceMap))",
      "\tif perr != nil \x7b",
      "\t\treturn err // sourcemap parse failed; keep the original error",
      "\t\x7d",
      "\tannotated := diagnose.AnnotateLines(verr.Log, sm)",
      "\treturn fmt.Errorf(\"%w\\n\\n----- annotated verifier log -----\\n%s\", err, " ++
        "strings.Join(annotated, \"\\n\"))",
      "\x7d"]

/-- `check<Stem>Kernel`. -/
def kernelCheckText (pascal : Text) : Text :=
  textLines
    ["func check" ++ pascal ++ "Kernel(spec *ebpf.CollectionSpec) error \x7b",
      "\trep, err := bpfvetanalyzer.AnalyzeSpec(spec)",
      "\tif err != nil || rep == nil \x7b",
      "\t\treturn nil // can't analyze; fall through to LoadAndAssign for a real error",
      "\t\x7d",
      "\trunning, ok := runningKernel()",
      "\tif !ok || !running.Less(rep.MinKernel) \x7b",
      "\t\treturn nil",
      "\t\x7d",
      "\treturn fmt.Errorf(\"bpf program needs kernel >= %s, host is %s\", rep.MinKernel, running)",
      "\x7d"]

/-- One attach method. -/
def attachText (pascal : Text) (a : AttachHelper) : Text :=
  textLines
    [[], "// Attach" ++ a.field.go ++ " " ++ a.template.doc,
      "func (o *" ++ pascal ++ "Objects) Attach" ++ a.field.go ++ "(" ++ a.template.params ++
        ") (link.Link, error) \x7b",
      "\treturn " ++ replaceFirst "$PROG" ("o." ++ a.field.go) a.template.body,
      "\x7d"]

/-- The statements of `AttachAll` for one program. -/
def attachAllStmts (a : AttachHelper) : Text :=
  if a.field.section_ = "xdp" then
    textLines
      ["\tif xdpIfindex != 0 \x7b",
        "\t\tl, err := o.Attach" ++ a.field.go ++ "(xdpIfindex)",
        "\t\tif err != nil \x7b cleanup(); return nil, fmt.Errorf(\"attach " ++ a.field.go ++
          ": %w\", err) \x7d",
        "\t\tls = append(ls, l)",
        "\t\x7d"]
  else
    textLines
      ["\tif l, err := o.Attach" ++ a.field.go ++ "(); err != nil \x7b",
        "\t\tcleanup(); return nil, fmt.Errorf(\"attach " ++ a.field.go ++ ": %w\", err)",
        "\t\x7d else \x7b ls = append(ls, l) \x7d"]

/-- `AttachAll`, if there is anything to attach. -/
def attachAllText (pascal : Text) (as : List AttachHelper) : Text :=
  if as = [] then []
  else
    textLines
      [[], "// AttachAll attaches every program whose //bpf:section gobee",
        "// understands. The returned slice is in declaration order; on",
        "// error any links already opened are closed before returning."] ++
    (if as.any fun a => a.field.section_ = "xdp" then
      textLines
        ["// xdpIfindex is the network interface index for XDP programs;",
          "// pass 0 to skip XDP attachment.",
          "func (o *" ++ pascal ++ "Objects) AttachAll(xdpIfindex int) ([]link.Link, error) \x7b"]
    else textLines ["func (o *" ++ pascal ++ "Objects) AttachAll() ([]link.Link, error) \x7b"]) ++
    textLines
      ["\tvar ls []link.Link", "\tcleanup := func() \x7b for _, l := range ls \x7b l.Close() \x7d \x7d"] ++
    as.flatMap attachAllStmts ++
    textLines ["\treturn ls, nil", "\x7d"]

/-- `runningKernel`. -/
def runningKernelText : Text :=
  textLines
    [[], "// runningKernel parses /proc/sys/kernel/osrelease via uname(2) and",
      "// returns the host's kernel as a bpfvet KernelVersion. Returns",
      "// ok=false on any parse failure so callers fall through to the",
      "// regular load path.",
      "func runningKernel() (bpfvetversion.KernelVersion, bool) \x7b",
      "\tvar u unix.Utsname",
      "\tif err := unix.Uname(&u); err != nil \x7b",
      "\t\treturn bpfvetversion.KernelVersion\x7b\x7d, false",
      "\t\x7d",
      "\trelease := unix.ByteSliceToString(u.Release[:])",
      "\tvar major, minor int",
      "\tif _, err := fmt.Sscanf(release, \"%d.%d\", &major, &minor); err != nil \x7b",
      "\t\treturn bpfvetversion.KernelVersion\x7b\x7d, false",
      "\t\x7d",
      "\treturn bpfvetversion.V(major, minor), true",
      "\x7d", []]

/-- The loop over the types. -/
def typesText (printer : Printer) : List UserTypeDecl → Result Text
  | [] => .ok []
  | t :: ts => do
      let spec ← wrapError ("print type " ++ t.name ++ ": " ++ ·) (printer.type t)
      let rest ← typesText printer ts
      return "type " ++ spec ++ "\n\n" ++ rest

/-- The loop over the constants. -/
def constsText (printer : Printer) : List UserConstDecl → Result Text
  | [] => .ok []
  | c :: cs => do
      let value ← wrapError ("print const " ++ c.name ++ ": " ++ ·) (printer.value c.value)
      let rest ← constsText printer cs
      return "\t" ++ pascalCase c.name ++ " = " ++ value ++ "\n" ++ rest

/-- The struct types of the program. -/
def republishedTypes (printer : Printer) (types : List UserTypeDecl) : Result Text :=
  if types = [] then .ok []
  else do
    let specs ← typesText printer types
    return textLines
      [[], "// User-defined types from the kernel-side program. Layout matches",
        "// the kernel struct so encoding/binary on the userspace side and",
        "// clang's struct layout in the kernel agree byte-for-byte.", []] ++ specs

/-- The constants of the program. -/
def republishedConsts (printer : Printer) (consts : List UserConstDecl) : Result Text :=
  if consts = [] then .ok []
  else do
    let specs ← constsText printer consts
    return textLines
      ["// Constants mirrored from the kernel-side program. Capitalized so",
        "// userspace can reference them directly (kernel-side names may be",
        "// unexported; the bindings always export them).", "const ("] ++ specs ++ textLines [")"]

/-- What stands before the value of the source map. -/
def bindingsHead (packageName stem : Text) (programs maps : List BindingField) : Text :=
  let pascal := pascalCase stem
  fileHeader pascal packageName stem (!(attachers programs).isEmpty) ++
  structsText pascal programs maps ++ closeText pascal programs maps ++ loaderText pascal ++
  sourceMapDecl pascal stem

/-- What stands behind the source map, up to the types. -/
def bindingsTail (stem : Text) (programs : List BindingField) : Text :=
  let pascal := pascalCase stem
  let as := attachers programs
  "\n\n" ++ annotatorText pascal ++ kernelCheckText pascal ++ as.flatMap (attachText pascal) ++
  attachAllText pascal as ++ runningKernelText

/-- `WriteBindings`, for the fields as `sort.Slice` returned them. -/
def bindingsText (printer : Printer) (prog : Program) (packageName stem : Text)
    (programs maps : List BindingField) (sourcemap : Text) : Result Text :=
  if packageName = [] then errorf "WriteBindings: empty package name"
  else if stem = [] then errorf "WriteBindings: empty stem"
  else do
    let types ← republishedTypes printer prog.types
    let consts ← republishedConsts printer prog.consts
    return bindingsHead packageName stem programs maps ++ sourcemap ++ "`" ++
      bindingsTail stem programs ++ types ++ consts

/-! ## Literals and comments -/

/-- The texts that stand for names: a text that is not empty and changes no mode. -/
structure NameText (w : Text) : Prop where
  ne_nil : w ≠ []
  inert : Inert w

section

variable {m : Mode} {w s : Text}

theorem NameText.scan (h : NameText w) (m : Mode) : scan m w = settled m :=
  scan_inert h.inert h.ne_nil m

theorem NameText.append {v : Text} (hv : NameText v) (hw : NameText w) : NameText (v ++ w) :=
  ⟨by simp [hv.ne_nil], hv.inert.append hw.inert⟩

/-- A character of a Go identifier changes no mode. -/
theorem not_active_of_isGoNameChar {tables : UnicodeTables} {c : Char}
    (h : isGoNameChar tables c = true) : isActive c = false := by
  have hne : ∀ d : Char, d.toNat < 128 → (d.isAlpha || d == '_' || d.isDigit) = false → c ≠ d := by
    rintro d hlt hd rfl
    rw [isGoNameChar_ascii hlt, hd] at h
    cases h
  simp only [isActive, Bool.or_eq_false_iff, beq_eq_false_iff_ne]
  exact ⟨⟨⟨⟨⟨⟨hne '/' (by decide) rfl, hne '*' (by decide) rfl⟩, hne '"' (by decide) rfl⟩,
    hne '\'' (by decide) rfl⟩, hne '\\' (by decide) rfl⟩, hne '\n' (by decide) rfl⟩,
    hne backquote (by decide) rfl⟩

theorem nameText_of_isGoIdent {tables : UnicodeTables} (h : IsGoIdent tables w) : NameText w := by
  obtain ⟨⟨c, hc, -⟩, hchars, -⟩ := h
  refine ⟨?_, fun d hd => not_active_of_isGoNameChar (hchars d hd)⟩
  rintro rfl
  cases hc

/-- The first letter in upper case. -/
theorem nameText_pascalCase (h : NameText w) : NameText (pascalCase w) := by
  obtain ⟨c, rest, rfl⟩ := List.exists_cons_of_ne_nil h.ne_nil
  have hinert := h.inert
  rw [Inert, List.forall_mem_cons] at hinert
  refine ⟨List.cons_ne_nil _ _, ?_⟩
  rw [pascalCase, Inert, List.forall_mem_cons]
  refine ⟨?_, hinert.2⟩
  split_ifs with hlower
  · -- the letter is a character of identifiers, and so is the capital
    obtain ⟨d, hd, -, hname⟩ := pascalCase_cons asciiTables c rest
    have hcase := (List.cons.inj hd).1
    rw [if_pos hlower] at hcase
    rw [hcase]
    refine not_active_of_isGoNameChar (hname.trans ?_)
    have hle : 97 ≤ c.toNat ∧ c.toNat ≤ 122 := by
      simpa [Char.le_def, UInt32.le_iff_toNat_le] using hlower
    rw [isGoNameChar_ascii (by omega)]
    have hisLower : c.isLower = true := by
      change (decide (c.val ≥ 97) && decide (c.val ≤ 122)) = true
      simpa [UInt32.le_iff_toNat_le] using hle
    have hisAlpha : c.isAlpha = true := by
      change (c.isUpper || c.isLower) = true
      rw [hisLower, Bool.or_true]
    simp [hisAlpha]
  · exact hinert.1

/-! ### Quoted texts -/

theorem inert_hexDigits (k n : Nat) : Inert (hexDigits k n) := by
  intro c hc
  have hhex := isHexDigit_of_mem_hexDigits c hc
  have hne : ∀ d : Char, CSyntax.isHexDigit d = false → c ≠ d := by
    rintro d hd rfl
    rw [hhex] at hd
    cases hd
  simp only [isActive, Bool.or_eq_false_iff, beq_eq_false_iff_ne]
  exact ⟨⟨⟨⟨⟨⟨hne _ rfl, hne _ rfl⟩, hne _ rfl⟩, hne _ rfl⟩, hne _ rfl⟩, hne _ rfl⟩, hne _ rfl⟩

/-- What `%q` prints for a character: itself, or an escape. -/
theorem quoteChar_shape (isPrint : Char → Bool) (c : Char) :
    (quoteChar isPrint c = [c] ∧ c ≠ '"' ∧ c ≠ '\\' ∧ c ≠ '\n') ∨
      ∃ e k n, quoteChar isPrint c = '\\' :: e :: hexDigits k n ∧ e ≠ '\n' ∧ e ≠ backquote := by
  have hescape : ∀ (e : Char) (k n : Nat), e ≠ '\n' → e ≠ backquote →
      ∃ e' k' n', '\\' :: e :: hexDigits k n = '\\' :: e' :: hexDigits k' n' ∧ e' ≠ '\n' ∧
        e' ≠ backquote := fun e k n h h' => ⟨e, k, n, rfl, h, h'⟩
  by_cases h1 : c = '"'
  · rw [quoteChar, if_pos h1]
    exact .inr (hescape '"' 0 0 (by decide) (by decide))
  by_cases h2 : c = '\\'
  · rw [quoteChar, if_neg h1, if_pos h2]
    exact .inr (hescape '\\' 0 0 (by decide) (by decide))
  by_cases h3 : c = '\n'
  · rw [quoteChar, if_neg h1, if_neg h2, if_pos h3]
    exact .inr (hescape 'n' 0 0 (by decide) (by decide))
  rw [quoteChar, if_neg h1, if_neg h2, if_neg h3]
  split
  · exact .inr (hescape 't' 0 0 (by decide) (by decide))
  · split
    · exact .inr (hescape 'r' 0 0 (by decide) (by decide))
    · split
      · exact .inr (hescape 'a' 0 0 (by decide) (by decide))
      · split
        · exact .inr (hescape 'b' 0 0 (by decide) (by decide))
        · split
          · exact .inr (hescape 'f' 0 0 (by decide) (by decide))
          · split
            · exact .inr (hescape 'v' 0 0 (by decide) (by decide))
            · split
              · exact .inr (hescape 'x' 2 c.toNat (by decide) (by decide))
              · split
                · exact .inl ⟨rfl, h1, h2, h3⟩
                · split
                  · exact .inr (hescape 'u' 4 c.toNat (by decide) (by decide))
                  · exact .inr (hescape 'U' 8 c.toNat (by decide) (by decide))

/-- A character in a quoted string stays in the string. -/
theorem scan_quoteChar (isPrint : Char → Bool) (c : Char) :
    scan .string (quoteChar isPrint c) = .string := by
  rcases quoteChar_shape isPrint c with ⟨hc, h1, h2, h3⟩ | ⟨e, k, n, hc, he, -⟩
  · rw [hc, scan_cons, Mode.step, if_neg h1, if_neg h2, if_neg h3]
    rfl
  · have hstep : Mode.step .stringEscape e = .string := if_neg he
    rw [hc, scan_cons, scan_cons]
    change scan (Mode.step .stringEscape e) _ = _
    rw [hstep, scan_settled (inert_hexDigits k n) rfl]

/-- A quoted string is closed. -/
theorem scan_quote (s : Text) : scan .code (quote s) = .code := by
  have hchars : scan .string (s.flatMap (quoteChar fun _ => true)) = .string := by
    induction s with
    | nil => rfl
    | cons c s ih => rw [List.flatMap_cons, scan_append, scan_quoteChar, ih]
  rw [quote, quoteWith, scan_cons, scan_append]
  change scan (scan .string _) _ = _
  rw [hchars]
  rfl

/-- A quoted name has no backquote. -/
theorem backquote_notMem_quote (h : NameText w) : backquote ∉ quote w := by
  have hchar : ∀ c ∈ w, backquote ∉ quoteChar (fun _ => true) c := by
    intro c hc
    rcases quoteChar_shape (fun _ => true) c with ⟨hq, -⟩ | ⟨e, k, n, hq, -, he⟩
    · rw [hq, List.mem_singleton]
      rintro rfl
      cases h.inert _ hc
    · rw [hq, List.mem_cons, List.mem_cons, not_or, not_or]
      refine ⟨by decide, Ne.symm he, fun hmem => ?_⟩
      cases inert_hexDigits k n _ hmem
  intro hmem
  rw [quote, quoteWith, List.mem_cons, List.mem_append, List.mem_flatMap] at hmem
  rcases hmem with heq | ⟨c, hc, hmem⟩ | hmem
  · cases heq
  · exact hchar c hc hmem
  · cases List.mem_singleton.mp hmem

/-- Replacing a text by one that does the same to the modes. -/
theorem scan_replaceFirst {old new : Text} (hsame : ∀ m, scan m old = scan m new) (s : Text) :
    ∀ m, scan m (replaceFirst old new s) = scan m s := by
  induction s with
  | nil =>
      intro m
      rw [replaceFirst]
      split_ifs with hold
      · rw [← hsame m, hold]
      · rfl
  | cons c s ih =>
      intro m
      rw [replaceFirst]
      split_ifs with hold
      · obtain ⟨t, ht⟩ := List.isPrefixOf_iff_prefix.mp hold
        rw [← ht, List.drop_left, scan_append, scan_append, hsame]
      · rw [scan_cons, scan_cons, ih]

/-! ### The pieces of the file -/

theorem scan_textLines (m : Mode) (l : Text) (ls : List Text) :
    scan m (textLines (l :: ls)) = scan (scan (scan m l) ['\n']) (textLines ls) := by
  rw [textLines, List.flatMap_cons, scan_append, ended, scan_append]
  rfl

theorem closed_loaderText (h : NameText w) : ClosedText (loaderText w) := by
  unfold ClosedText loaderText
  simp only [scan_textLines, scan_append, h.scan]
  -- each literal as its list of characters, which the kernel is slow to find by itself
  repeat rw [String.toList_ofList]
  decide +kernel

theorem closed_fileHeader {package stem : Text} (hpackage : NameText package)
    (hstem : NameText stem) (h : NameText w) (needsLink : Bool) :
    ClosedText (fileHeader w package stem needsLink) := by
  cases needsLink <;>
  · unfold ClosedText fileHeader
    simp only [scan_textLines, scan_append, h.scan, hpackage.scan, hstem.scan,
      Bool.false_eq_true, if_true, if_false]
    repeat rw [String.toList_ofList]
    decide +kernel

theorem closed_fieldText {f : BindingField} (htype : NameText w) (hgo : NameText f.go)
    (helf : NameText f.elf) : ClosedText (fieldText w f) := by
  have htag : scan (settled (scan (settled (scan .code ("\t" : Text))) (" *ebpf." : Text)))
      (" `ebpf:" : Text) = .raw := by
    repeat rw [String.toList_ofList]
    decide +kernel
  unfold ClosedText fieldText
  simp only [scan_append, hgo.scan, htype.scan]
  rw [htag, scan_raw (backquote_notMem_quote helf)]
  repeat rw [String.toList_ofList]
  decide +kernel

example : ClosedText (fieldText "Map" ⟨"Counts", "counts", []⟩) := by decide +kernel

theorem closed_fieldStruct {name : Text} {fields : List BindingField} (hname : NameText name)
    (htype : NameText w) (hfields : ∀ f ∈ fields, NameText f.go ∧ NameText f.elf) :
    ClosedText (fieldStruct name w fields) := by
  unfold fieldStruct
  refine (ClosedText.append ?_ (ClosedText.flatMap fun f hf => ?_)).append ?_
  · unfold ClosedText
    simp only [scan_textLines, scan_append, hname.scan]
    repeat rw [String.toList_ofList]
    decide +kernel
  · exact closed_fieldText htype (hfields f hf).1 (hfields f hf).2
  · repeat rw [String.toList_ofList]
    decide +kernel

example : ClosedText (fieldStruct "PassMaps" "Map" []) := by decide +kernel

theorem nameText_fixed {v : Text} (hne : v ≠ []) (h : v.all (fun c => !isActive c) = true) :
    NameText v :=
  ⟨hne, fun c hc => by simpa using List.all_eq_true.mp h c hc⟩

theorem closed_structsText {programs maps : List BindingField} (h : NameText w)
    (hprograms : ∀ f ∈ programs, NameText f.go ∧ NameText f.elf)
    (hmaps : ∀ f ∈ maps, NameText f.go ∧ NameText f.elf) :
    ClosedText (structsText w programs maps) := by
  have hname : ∀ v : Text, v ≠ [] → v.all (fun c => !isActive c) = true → NameText (w ++ v) :=
    fun v hne hv => h.append (nameText_fixed hne hv)
  unfold structsText
  refine (((ClosedText.append ?_ ?_).append ?_).append ?_).append ?_
  · unfold ClosedText
    simp only [scan_textLines, scan_append, h.scan]
    repeat rw [String.toList_ofList]
    decide +kernel
  · exact closed_fieldStruct (hname "Programs" (by decide) (by decide))
      (nameText_fixed (by decide) (by decide)) hprograms
  · unfold ClosedText
    simp only [scan_textLines, scan_append, h.scan]
    repeat rw [String.toList_ofList]
    decide +kernel
  · exact closed_fieldStruct (hname "Maps" (by decide) (by decide))
      (nameText_fixed (by decide) (by decide)) hmaps
  · unfold ClosedText
    simp only [scan_textLines, scan_append, h.scan]
    repeat rw [String.toList_ofList]
    decide +kernel

theorem closed_closeText {programs maps : List BindingField} (h : NameText w)
    (hprograms : ∀ f ∈ programs, NameText f.go) (hmaps : ∀ f ∈ maps, NameText f.go) :
    ClosedText (closeText w programs maps) := by
  have hfield : ∀ f : BindingField, NameText f.go → ClosedText (closeField f) := by
    intro f hf
    unfold ClosedText closeField
    simp only [scan_append, hf.scan]
    repeat rw [String.toList_ofList]
    decide +kernel
  unfold closeText
  refine ((ClosedText.append ?_ (ClosedText.flatMap fun f hf => hfield f (hmaps f hf))).append
    (ClosedText.flatMap fun f hf => hfield f (hprograms f hf))).append ?_
  · unfold ClosedText
    simp only [scan_textLines, scan_append, h.scan]
    repeat rw [String.toList_ofList]
    decide +kernel
  · repeat rw [String.toList_ofList]
    decide +kernel

theorem closed_annotatorText (h : NameText w) : ClosedText (annotatorText w) := by
  unfold ClosedText annotatorText
  simp only [scan_textLines, scan_append, h.scan]
  repeat rw [String.toList_ofList]
  decide +kernel

theorem closed_kernelCheckText (h : NameText w) : ClosedText (kernelCheckText w) := by
  unfold ClosedText kernelCheckText
  simp only [scan_textLines, scan_append, h.scan]
  repeat rw [String.toList_ofList]
  decide +kernel

theorem closed_runningKernelText : ClosedText runningKernelText := by
  unfold ClosedText runningKernelText
  repeat rw [String.toList_ofList]
  decide +kernel

/-- The declaration of the source map ends behind the opening quote. -/
theorem scan_sourceMapDecl {stem : Text} (h : NameText w) (hstem : NameText stem) :
    scan .code (sourceMapDecl w stem) = .raw := by
  simp only [sourceMapDecl, scan_textLines, scan_append, h.scan, hstem.scan]
  repeat rw [String.toList_ofList]
  decide +kernel

example : scan .code (sourceMapDecl "Pass" "pass") = .raw := by decide +kernel

/-! ### Attach methods -/

/-- What is printed of an attach method: a comment of one line, parameters and a call. -/
structure TemplateText (t : AttachTemplate) : Prop where
  doc : '\n' ∉ t.doc
  params : Inert t.params
  body : ClosedText t.body

theorem cutAt_eq {sep : Char} {s : Text} {r : Text × Text} (h : cutAt sep s = some r) :
    s = r.1 ++ sep :: r.2 := by
  induction s generalizing r with
  | nil => cases h
  | cons c cs ih =>
      rw [cutAt] at h
      split_ifs at h with hc
      · cases h
        rw [hc]
        rfl
      · obtain ⟨q, hq, rfl⟩ := Option.map_eq_some_iff.mp h
        rw [ih hq]
        rfl

theorem templateText_attachFor {t : AttachTemplate} (hsection : '\n' ∉ s)
    (h : attachFor s = some t) : TemplateText t := by
  have hdrop : ∀ k, '\n' ∉ s.drop k := fun k hk => hsection (List.mem_of_mem_drop hk)
  unfold attachFor at h
  split_ifs at h
  · cases h
    exact ⟨by decide +kernel, (nameText_fixed (by decide) (by decide)).inert, by decide +kernel⟩
  · cases hcut : cutAt '/' (s.drop ("tracepoint/" : Text).length) with
    | none =>
        rw [hcut] at h
        cases h
    | some r =>
        rw [hcut] at h
        cases h
        have hparts := hdrop ("tracepoint/" : Text).length
        rw [cutAt_eq hcut, List.mem_append, List.mem_cons, not_or, not_or] at hparts
        refine ⟨?_, Inert.nil, ?_⟩
        · simp [hparts.1, hparts.2.2]
        · unfold ClosedText
          simp only [scan_append]
          rw [show scan .code ("link.Tracepoint(" : Text) = .code by decide +kernel, scan_quote,
            show scan .code (", " : Text) = .code by decide +kernel, scan_quote]
          repeat rw [String.toList_ofList]
          decide +kernel
  · cases h
    refine ⟨?_, Inert.nil, ?_⟩
    · simp [hdrop]
    · unfold ClosedText
      simp only [scan_append]
      rw [show scan .code ("link.Kprobe(" : Text) = .code by decide +kernel, scan_quote]
      repeat rw [String.toList_ofList]
      decide +kernel
  · cases h
    refine ⟨?_, Inert.nil, ?_⟩
    · simp [hdrop]
    · unfold ClosedText
      simp only [scan_append]
      rw [show scan .code ("link.Kretprobe(" : Text) = .code by decide +kernel, scan_quote]
      repeat rw [String.toList_ofList]
      decide +kernel

theorem closed_attachText {a : AttachHelper} (h : NameText w) (hgo : NameText a.field.go)
    (ht : TemplateText a.template) : ClosedText (attachText w a) := by
  have hnew : NameText (("o." : Text) ++ a.field.go) :=
    (nameText_fixed (by decide) (by decide)).append hgo
  have hold : NameText ("$PROG" : Text) := nameText_fixed (by decide) (by decide)
  have hbody : scan .code (replaceFirst "$PROG" (("o." : Text) ++ a.field.go) a.template.body) =
      .code := (scan_replaceFirst (fun m => by rw [hold.scan, hnew.scan]) _ _).trans ht.body
  unfold attachText textLines
  refine ClosedText.flatMap fun l hl => ?_
  simp only [List.mem_cons, List.not_mem_nil, or_false] at hl
  unfold ClosedText ended
  rcases hl with rfl | rfl | rfl | rfl | rfl
  · decide +kernel
  · simp only [scan_append, hgo.scan]
    rw [show scan (settled (scan .code ("// Attach" : Text))) (" " : Text) = .lineComment by
      decide +kernel, scan_lineComment ht.doc]
    decide +kernel
  · simp only [scan_append, h.scan, hgo.scan]
    rw [show scan (settled (scan (settled (scan .code ("func (o *" : Text)))
      ("Objects) Attach" : Text))) ("(" : Text) = .code by decide +kernel,
      scan_settled ht.params rfl]
    repeat rw [String.toList_ofList]
    decide +kernel
  · simp only [scan_append]
    rw [show scan .code ("\treturn " : Text) = .code by decide +kernel, hbody]
    decide +kernel
  · repeat rw [String.toList_ofList]
    decide +kernel

theorem closed_attachAllText {as : List AttachHelper} (h : NameText w)
    (hgo : ∀ a ∈ as, NameText a.field.go) : ClosedText (attachAllText w as) := by
  have hstmts : ∀ a : AttachHelper, NameText a.field.go → ClosedText (attachAllStmts a) := by
    intro a ha
    unfold ClosedText attachAllStmts
    split_ifs <;>
    · simp only [scan_textLines, scan_append, ha.scan]
      repeat rw [String.toList_ofList]
      decide +kernel
  unfold attachAllText
  split_ifs
  · exact ClosedText.nil
  all_goals
    refine (((ClosedText.append ?_ ?_).append ?_).append (ClosedText.flatMap fun a ha =>
      hstmts a (hgo a ha))).append ?_
    · repeat rw [String.toList_ofList]
      decide +kernel
    · unfold ClosedText
      simp only [scan_textLines, scan_append, h.scan]
      repeat rw [String.toList_ofList]
      decide +kernel
    · repeat rw [String.toList_ofList]
      decide +kernel
    · repeat rw [String.toList_ofList]
      decide +kernel

/-! ### The whole file -/

/-- The names that are printed: programs and maps have names that change no mode, and a
section is one word. -/
structure NamesPrintable (prog : Program) : Prop where
  programs : ∀ p ∈ prog.programs, NameText p.name ∧ '\n' ∉ p.section_
  maps : ∀ m ∈ prog.maps, NameText m.name
  consts : ∀ c ∈ prog.consts, NameText c.name

/-- The names that a declaration declares. -/
def Decl.names : Decl → List Ident
  | .func _ fd => [fd.name]
  | .var specs | .const specs => specs.flatMap ValueSpec.names
  | .type names => names
  | .imports => []

/-- What the scanner promises: the names of a file are identifiers. -/
def DeclaresIdents (tables : UnicodeTables) (file : File) : Prop :=
  ∀ d ∈ file.decls, ∀ id ∈ d.names, IsGoIdent tables id.name

section

variable {file : File}

theorem collectVars_names {spec : Pos} {ids : List Ident} : ∀ {values : List Expr}
    {ms : List MapDecl}, collectVars file spec ids values = .ok ms →
      ∀ m ∈ ms, ∃ id ∈ ids, id.name = m.name := by
  induction ids with
  | nil =>
      intro values ms h m hm
      cases h
      cases hm
  | cons id ids ih =>
      intro values ms h m hm
      obtain ⟨m', hm', h⟩ := bind_ok h
      obtain ⟨rest, hrest, h⟩ := bind_ok h
      cases h
      rcases List.mem_append.mp hm with hm | hm
      · rw [Option.mem_toList] at hm
        cases hm
        refine ⟨id, List.mem_cons_self, ?_⟩
        unfold tryBuildMapDecl at hm'
        simp only at hm'
        split at hm'
        · split_ifs at hm'
          · split at hm'
            · cases hm'
            · obtain ⟨targs, -, hm'⟩ := bind_ok hm'
              obtain ⟨size, -, hm'⟩ := bind_ok hm'
              cases hm'
              rfl
          · cases hm'
        · cases hm'
      · obtain ⟨id', hid', heq⟩ := ih hrest m hm
        exact ⟨id', List.mem_cons_of_mem _ hid', heq⟩

theorem collectVarSpecs_names {specs : List ValueSpec} : ∀ {ms : List MapDecl},
    collectVarSpecs file specs = .ok ms →
      ∀ m ∈ ms, ∃ id ∈ specs.flatMap ValueSpec.names, id.name = m.name := by
  induction specs with
  | nil =>
      intro ms h m hm
      cases h
      cases hm
  | cons spec specs ih =>
      intro ms h m hm
      obtain ⟨ms', hms, h⟩ := bind_ok h
      obtain ⟨rest, hrest, h⟩ := bind_ok h
      cases h
      rcases List.mem_append.mp hm with hm | hm
      · obtain ⟨id, hid, heq⟩ := collectVars_names hms m hm
        exact ⟨id, List.mem_append_left _ hid, heq⟩
      · obtain ⟨id, hid, heq⟩ := ih hrest m hm
        exact ⟨id, List.mem_append_right _ hid, heq⟩

/-- The maps and constants of a declaration have its names. -/
theorem collectDecl_names {d : Decl} {c : Collected} (h : collectDecl file d = .ok c) :
    (∀ m ∈ c.maps, ∃ id ∈ d.names, id.name = m.name) ∧
      ∀ k ∈ c.consts, ∃ id ∈ d.names, id.name = k.name := by
  cases d with
  | var specs =>
      obtain ⟨maps, hmaps, h⟩ := bind_ok h
      cases h
      exact ⟨collectVarSpecs_names hmaps, by simp [Collected.empty]⟩
  | const specs =>
      cases h
      refine ⟨by simp [Collected.empty], fun k hk => ?_⟩
      obtain ⟨spec, hspec, hk⟩ := List.mem_flatMap.mp hk
      obtain ⟨⟨id, v⟩, hp, rfl⟩ := List.mem_map.mp hk
      exact ⟨id, List.mem_flatMap.mpr ⟨spec, hspec, (List.of_mem_zip hp).1⟩, rfl⟩
  | func doc fd =>
      change collectFunc file doc fd = .ok c at h
      unfold collectFunc at h
      split at h
      · cases h
      · cases h
        simp [Collected.empty]
      · split_ifs at h <;> cases h <;> simp [Collected.empty]
  | _ =>
      cases h
      simp [Collected.empty]

theorem collectDecls_names {decls : List Decl} : ∀ {c : Collected},
    collectDecls file decls = .ok c →
      (∀ m ∈ c.maps, ∃ d ∈ decls, ∃ id ∈ d.names, id.name = m.name) ∧
        ∀ k ∈ c.consts, ∃ d ∈ decls, ∃ id ∈ d.names, id.name = k.name := by
  induction decls with
  | nil =>
      intro c h
      cases h
      simp [Collected.empty]
  | cons d rest ih =>
      intro c h
      obtain ⟨a, ha, h⟩ := bind_ok h
      obtain ⟨b, hb, h⟩ := bind_ok h
      cases h
      obtain ⟨hmaps, hconsts⟩ := collectDecl_names ha
      obtain ⟨hmaps', hconsts'⟩ := ih hb
      constructor
      · intro m hm
        rcases List.mem_append.mp hm with hm | hm
        · exact ⟨d, List.mem_cons_self, hmaps m hm⟩
        · obtain ⟨d', hd', hid⟩ := hmaps' m hm
          exact ⟨d', List.mem_cons_of_mem _ hd', hid⟩
      · intro k hk
        rcases List.mem_append.mp hk with hk | hk
        · exact ⟨d, List.mem_cons_self, hconsts k hk⟩
        · obtain ⟨d', hd', hid⟩ := hconsts' k hk
          exact ⟨d', List.mem_cons_of_mem _ hd', hid⟩

theorem mem_funcDecls {decls : List Decl} {f : List Comment × FuncDecl}
    (h : f ∈ funcDecls decls) : .func f.1 f.2 ∈ decls := by
  induction decls with
  | nil => cases h
  | cons d rest ih =>
      rw [funcDecls_cons, List.mem_append] at h
      rcases h with h | h
      · cases d with
        | func doc fd =>
            rw [List.mem_singleton.mp h]
            exact List.mem_cons_self
        | _ => cases h
      · exact List.mem_cons_of_mem _ (ih h)

/-- An argument of a directive has no newline. -/
theorem newline_notMem_args {doc : List Comment} {name : Text} {d : Directive}
    (h : docDirective doc name = some d) : ∀ a ∈ d.args, '\n' ∉ a := by
  intro a ha hnl
  obtain ⟨c, -, hc⟩ := List.mem_filterMap.mp (List.mem_of_find?_eq_some h)
  cases hparse : parseDirective c.text with
  | error e =>
      rw [hparse] at hc
      cases hc
  | ok d' =>
      rw [hparse] at hc
      cases hc
      unfold parseDirective at hparse
      split_ifs at hparse
      · split at hparse
        · cases hparse
        · rename_i first rest heq
          cases hparse
          have hfield : a ∈ fields (c.text.drop directivePrefix.length) := by
            rw [heq]
            exact List.mem_cons_of_mem _ (List.mem_filter.mp ha).1
          have hspace := not_isSpace_of_mem_fields hfield '\n' hnl
          revert hspace
          decide
      · cases hparse

/-- The names of a parsed file can be printed. -/
theorem namesPrintable_of_parse {tables : UnicodeTables} {prog : Program}
    (hparse : parseFile file = .ok prog) (hidents : DeclaresIdents tables file) :
    NamesPrintable prog := by
  obtain ⟨hprogs, -, -, -, -⟩ := parseFile_ok hparse
  obtain ⟨license, -, h⟩ := bind_ok hparse
  obtain ⟨c, hc, h⟩ := bind_ok h
  have hcollected : prog.maps = c.maps ∧ prog.consts = c.consts := by
    split at h
    · cases h
    · split at h
      · cases h
      · cases h
        exact ⟨rfl, rfl⟩
  obtain ⟨hmaps, hconsts⟩ := collectDecls_names hc
  refine ⟨fun p hp => ?_, fun m hm => ?_, fun k hk => ?_⟩
  · rw [hprogs] at hp
    obtain ⟨f, hf, hp⟩ := List.mem_filterMap.mp hp
    unfold programOf at hp
    split at hp
    · rename_i directive hdirective
      cases hp
      exact ⟨nameText_of_isGoIdent (hidents _ (mem_funcDecls hf) _ List.mem_cons_self),
        newline_notMem_args hdirective _ List.mem_cons_self⟩
    · cases hp
  · obtain ⟨d, hd, id, hid, heq⟩ := hmaps m (hcollected.1 ▸ hm)
    exact heq ▸ nameText_of_isGoIdent (hidents d hd id hid)
  · obtain ⟨d, hd, id, hid, heq⟩ := hconsts k (hcollected.2 ▸ hk)
    exact heq ▸ nameText_of_isGoIdent (hidents d hd id hid)

end

/-- What `go/printer` promises: what it prints is closed, at the end of the line at last. -/
structure PrinterCloses (printer : Printer) (prog : Program) : Prop where
  types : ∀ t ∈ prog.types, ∀ v, printer.type t = .ok v → ClosedText (v ++ ['\n'])
  consts : ∀ c ∈ prog.consts, ∀ v, printer.value c.value = .ok v → ClosedText (v ++ ['\n'])

variable {prog : Program} {programs maps : List BindingField}

theorem programs_printable (hnames : NamesPrintable prog)
    (hsorted : SortedFields (progFields prog.programs) programs) :
    ∀ f ∈ programs, (NameText f.go ∧ NameText f.elf) ∧ '\n' ∉ f.section_ := by
  intro f hf
  obtain ⟨p, hp, rfl⟩ := List.mem_map.mp (hsorted.perm.mem_iff.mp hf)
  obtain ⟨hname, hsection⟩ := hnames.programs p hp
  exact ⟨⟨nameText_pascalCase hname, hname⟩, hsection⟩

theorem maps_printable (hnames : NamesPrintable prog)
    (hsorted : SortedFields (mapFields prog.maps) maps) :
    ∀ f ∈ maps, NameText f.go ∧ NameText f.elf := by
  intro f hf
  obtain ⟨m, hm, rfl⟩ := List.mem_map.mp (hsorted.perm.mem_iff.mp hf)
  exact ⟨nameText_pascalCase (hnames.maps m hm), hnames.maps m hm⟩

/-- The file is open at the raw string behind its head. -/
theorem scan_bindingsHead {package stem : Text} (hnames : NamesPrintable prog)
    (hprograms : SortedFields (progFields prog.programs) programs)
    (hmaps : SortedFields (mapFields prog.maps) maps) (hpackage : NameText package)
    (hstem : NameText stem) : scan .code (bindingsHead package stem programs maps) = .raw := by
  have hpascal := nameText_pascalCase hstem
  have hps := programs_printable hnames hprograms
  have hms := maps_printable hnames hmaps
  have hheader := closed_fileHeader hpackage hstem hpascal (!(attachers programs).isEmpty)
  have hstructs := closed_structsText hpascal (fun f hf => (hps f hf).1) hms
  have hclose := closed_closeText hpascal (fun f hf => (hps f hf).1.1) (fun f hf => (hms f hf).1)
  rw [bindingsHead, scan_append,
    ((hheader.append hstructs).append hclose).append (closed_loaderText hpascal),
    scan_sourceMapDecl hpascal hstem]

theorem closed_bindingsTail {stem : Text} (hnames : NamesPrintable prog)
    (hprograms : SortedFields (progFields prog.programs) programs) (hstem : NameText stem) :
    ClosedText (bindingsTail stem programs) := by
  have hpascal := nameText_pascalCase hstem
  have hps := programs_printable hnames hprograms
  have hattach : ∀ a ∈ attachers programs,
      NameText a.field.go ∧ TemplateText a.template := by
    intro a ha
    obtain ⟨f, hf, hsome⟩ := List.mem_filterMap.mp ha
    obtain ⟨t, ht, rfl⟩ := Option.map_eq_some_iff.mp hsome
    exact ⟨(hps f hf).1.1, templateText_attachFor (hps f hf).2 ht⟩
  have hnl : ClosedText (("\n\n" : Text)) := by decide
  exact ((((hnl.append (closed_annotatorText hpascal)).append
    (closed_kernelCheckText hpascal)).append
    (ClosedText.flatMap fun a ha => closed_attachText hpascal (hattach a ha).1 (hattach a ha).2)).append
    (closed_attachAllText hpascal fun a ha => (hattach a ha).1)).append closed_runningKernelText

/-- A text with a newline at its end is closed however many newlines follow. -/
theorem scan_newlines {v : Text} (h : ClosedText (v ++ ['\n'])) : ClosedText (v ++ ("\n\n" : Text)) := by
  have hsplit : v ++ ("\n\n" : Text) = (v ++ ['\n']) ++ ['\n'] := by
    rw [List.append_assoc]
    rfl
  rw [hsplit]
  exact h.append (by decide)

theorem closed_typesText {printer : Printer} {ts : List UserTypeDecl}
    (h : ∀ t ∈ ts, ∀ v, printer.type t = .ok v → ClosedText (v ++ ['\n'])) {v : Text}
    (hv : typesText printer ts = .ok v) : ClosedText v := by
  induction ts generalizing v with
  | nil =>
      cases hv
      exact ClosedText.nil
  | cons t ts ih =>
      rw [List.forall_mem_cons] at h
      obtain ⟨spec, hspec, hv⟩ := bind_ok hv
      obtain ⟨rest, hrest, hv⟩ := bind_ok hv
      cases hv
      have htype : ClosedText (("type " : Text)) := by decide
      have hown := htype.append (scan_newlines (h.1 spec (wrapError_ok hspec)))
      rw [← List.append_assoc] at hown
      exact hown.append (ih h.2 hrest)

theorem closed_constsText {printer : Printer} {cs : List UserConstDecl}
    (hnames : ∀ c ∈ cs, NameText c.name)
    (h : ∀ c ∈ cs, ∀ v, printer.value c.value = .ok v → ClosedText (v ++ ['\n'])) {v : Text}
    (hv : constsText printer cs = .ok v) : ClosedText v := by
  induction cs generalizing v with
  | nil =>
      cases hv
      exact ClosedText.nil
  | cons c cs ih =>
      rw [List.forall_mem_cons] at h hnames
      obtain ⟨value, hvalue, hv⟩ := bind_ok hv
      obtain ⟨rest, hrest, hv⟩ := bind_ok hv
      cases hv
      have hname : ClosedText (("\t" : Text) ++ pascalCase c.name ++ (" = " : Text)) := by
        unfold ClosedText
        simp only [scan_append, (nameText_pascalCase hnames.1).scan]
        decide
      have hown := hname.append (h.1 value (wrapError_ok hvalue))
      rw [← List.append_assoc] at hown
      exact hown.append (ih hnames.2 h.2 hrest)

theorem closed_republishedTypes {printer : Printer} {ts : List UserTypeDecl}
    (h : ∀ t ∈ ts, ∀ v, printer.type t = .ok v → ClosedText (v ++ ['\n'])) {v : Text}
    (hv : republishedTypes printer ts = .ok v) : ClosedText v := by
  unfold republishedTypes at hv
  split_ifs at hv
  · cases hv
    exact ClosedText.nil
  · obtain ⟨specs, hspecs, hv⟩ := bind_ok hv
    cases hv
    refine ClosedText.append ?_ (closed_typesText h hspecs)
    repeat rw [String.toList_ofList]
    decide +kernel

theorem closed_republishedConsts {printer : Printer} {cs : List UserConstDecl}
    (hnames : ∀ c ∈ cs, NameText c.name)
    (h : ∀ c ∈ cs, ∀ v, printer.value c.value = .ok v → ClosedText (v ++ ['\n'])) {v : Text}
    (hv : republishedConsts printer cs = .ok v) : ClosedText v := by
  unfold republishedConsts at hv
  split_ifs at hv
  · cases hv
    exact ClosedText.nil
  · obtain ⟨specs, hspecs, hv⟩ := bind_ok hv
    cases hv
    refine (ClosedText.append ?_ (closed_constsText hnames h hspecs)).append ?_ <;>
    · repeat rw [String.toList_ofList]
      decide +kernel

theorem bindingsText_ok {printer : Printer} {package stem sourcemap file : Text}
    (h : bindingsText printer prog package stem programs maps sourcemap = .ok file) :
    ∃ types consts, republishedTypes printer prog.types = .ok types ∧
      republishedConsts printer prog.consts = .ok consts ∧
      file = bindingsHead package stem programs maps ++ sourcemap ++ "`" ++
        bindingsTail stem programs ++ types ++ consts := by
  unfold bindingsText at h
  split_ifs at h
  · cases h
  · cases h
  · obtain ⟨types, htypes, h⟩ := bind_ok h
    obtain ⟨consts, hconsts, h⟩ := bind_ok h
    cases h
    exact ⟨types, consts, htypes, hconsts, rfl⟩

end

/-! ## The loader -/

/-- `annotate<Stem>VerifierErr`, for the text of an error and the log of a verifier error;
`embedded` is the value of `<Stem>SourceMap`. -/
def annotateVerifierErr (embedded err : Text) : Option (List Text) → Text
  | none => err
  | some log =>
      match parseSourceMap embedded with
      | .error _ => err
      | .ok sm =>
          err ++ "\n\n----- annotated verifier log -----\n" ++ join "\n" (annotateLines log sm)

/-- The value of `<Stem>SourceMap` is free of what a raw string cannot hold. -/
def Quotable (s : Text) : Prop := backquote ∉ s ∧ '\r' ∉ s

/-- A character that is in no number is in a source map if it is in the name of a file. -/
theorem mem_formatSourceMap {c : Char} (hdigit : c.isDigit = false)
    (hc : c ∉ ended sourceMapHeader ++ ['-', '\t', ':', '\n']) {ms : List Mapping} :
    c ∈ formatSourceMap ms ↔ ∃ m ∈ ms, c ∈ m.filename := by
  have hnumber : ∀ n : Int64, c ∉ formatInt n := by
    intro n hmem
    rcases mem_intText hmem with h | rfl
    · rw [hdigit] at h
      cases h
    · exact hc (by decide)
  rw [List.mem_append, not_or] at hc
  simp only [List.mem_cons, List.not_mem_nil, or_false, not_or] at hc
  obtain ⟨hheader, -, htab, hcolon, hnl⟩ := hc
  have htext : ∀ m : Mapping, c ∈ ended m.text ↔ c ∈ m.filename := by
    intro m
    simp [ended, Mapping.text, Mapping.position, hnumber, htab, hcolon, hnl]
  rw [formatSourceMap, List.mem_append, or_iff_right hheader, List.mem_flatMap]
  refine exists_congr fun m => and_congr (List.mergeSort_perm _ _).mem_iff (htext m)

theorem quotable_formatSourceMap {ms : List Mapping} :
    Quotable (formatSourceMap ms) ↔ ∀ m ∈ ms, Quotable m.filename := by
  have hquote := @mem_formatSourceMap backquote (by decide) (by decide) ms
  have hcr := @mem_formatSourceMap '\r' (by decide) (by decide) ms
  unfold Quotable
  rw [hquote, hcr]
  push Not
  exact ⟨fun h m hm => ⟨h.1 m hm, h.2 m hm⟩, fun h => ⟨fun m hm => (h m hm).1, fun m hm => (h m hm).2⟩⟩

/-- **The generated bindings annotate verifier logs.**  Let a file whose maps are the first
names of their specifications be parsed, emitted and bound, in a package and under a stem that
change no mode.  The generated file is closed before and behind the source map, which is the
value of a raw string exactly when no file name has a backquote or a carriage return; the
loader then keeps the lines of a verifier log and writes behind them the positions of the
constructs that were recorded last, in the emission, for the lines they refer to. -/
theorem bindings_annotate {tables : UnicodeTables} {source : File} {prog : Program}
    (printer : Printer) {label text : Text} {ms : List SourceMapping} {package stem : Text}
    {programs maps : List BindingField} {file : Text} (hparse : parseFile source = .ok prog)
    (hidents : DeclaresIdents tables source) (hfirst : MapsNamedFirst source)
    (hemit : emit prog label = .ok (text, ms)) (hpos : ∀ c ∈ constructs prog, c.recordedPos ≠ 0)
    (hprint : ∀ c ∈ constructs prog, (c.position prog).Printable)
    (hlines : newlines text + 1 < 2 ^ 63)
    (hprograms : SortedFields (progFields prog.programs) programs)
    (hmaps : SortedFields (mapFields prog.maps) maps) (hcloses : PrinterCloses printer prog)
    (hpackage : NameText package) (hstem : NameText stem)
    (hfile : bindingsText printer prog package stem programs maps
      (formatSourceMap (ms.map SourceMapping.toMapping)) = .ok file) :
    ∃ head value rest, value = formatSourceMap (ms.map SourceMapping.toMapping) ∧
      file = head ++ value ++ backquote :: rest ∧ sourceMapDecl (pascalCase stem) stem <:+ head ∧
      scan .code head = .raw ∧ ClosedText rest ∧
      (rawString (value ++ backquote :: rest) = some (value, rest) ↔
        ∀ c ∈ constructs prog, Quotable (c.position prog).filename) ∧
      ∃ acts occs sm, SoundRun prog label text ms acts occs ∧ AnnotatesWith prog occs sm ∧
        ∀ err log, annotateVerifierErr value err (some log) =
          err ++ "\n\n----- annotated verifier log -----\n" ++ join "\n" (annotateLines log sm) := by
  have hnames := namesPrintable_of_parse hparse hidents
  obtain ⟨types, consts, htypes, hconsts, rfl⟩ := bindingsText_ok hfile
  obtain ⟨acts, occs, hrun, hlined, hms⟩ :=
    emit_occurs hemit hpos ((mapsInPlace_iff hparse).mpr hfirst)
  have hocc := hrun.composed.toOccur
  rw [hrun.text] at hlines
  -- the embedded map is read back to the lines of the run
  obtain ⟨sm, hsm, hlookup⟩ := read_occurs hlined hocc hprint hlines
  rw [← hms] at hsm
  refine ⟨bindingsHead package stem programs maps, _, bindingsTail stem programs ++ types ++ consts,
    rfl, ?_, ⟨_, rfl⟩, scan_bindingsHead hnames hprograms hmaps hpackage hstem, ?_, ?_, ?_⟩
  · simp
  · exact ((closed_bindingsTail hnames hprograms hstem).append
      (closed_republishedTypes hcloses.types htypes)).append
      (closed_republishedConsts (fun c hc => hnames.consts c hc) hcloses.consts hconsts)
  · rw [rawString_iff]
    refine quotable_formatSourceMap.trans ?_
    rw [hms, List.map_map, List.forall_mem_map, ← hocc.constructs, List.forall_mem_map]
    rfl
  · refine ⟨acts, occs, sm, hrun, annotatesWith_of_lookup hlookup, fun err log => ?_⟩
    rw [annotateVerifierErr, hsm]

/-- The fields of the file with an array. -/
def arrayMaps : List BindingField := [⟨['A'], ['a'], []⟩]

/-- The field of `Pass`. -/
def passPrograms : List BindingField := [⟨"Pass", "Pass", "xdp"⟩]

/-- A printer for programs without types and constants. -/
def blankPrinter : Printer := ⟨fun _ => .ok [], fun _ => .ok []⟩

theorem arraysFile_idents : DeclaresIdents asciiTables (arraysFile [⟨['a'], 50⟩]) := by
  have hnames : ∀ w ∈ [(['a'] : Text), "Pass"], IsGoIdent asciiTables w := by
    intro w hw
    simp only [List.mem_cons, List.not_mem_nil, or_false] at hw
    rcases hw with rfl | rfl
    · exact ⟨⟨'a', rfl, by decide⟩, List.all_eq_true.mp (by decide), by decide⟩
    · exact ⟨⟨'P', rfl, by decide⟩, List.all_eq_true.mp (by decide), by decide⟩
  intro d hd id hid
  have hall : ∀ d ∈ (arraysFile [⟨['a'], 50⟩]).decls, ∀ id ∈ d.names,
      id.name ∈ [(['a'] : Text), "Pass"] := by
    simp [arraysFile, Decl.names, ValueSpec.names, passDecl]
  exact hnames _ (hall d hd id hid)

/-- The bindings of the file with an array, in a package `bpf`. -/
theorem arrayProgram_bindings :
    ∃ text ms file, emit arrayProgram "x.go" = .ok (text, ms) ∧
      bindingsText blankPrinter arrayProgram "bpf" "pass" passPrograms arrayMaps
        (formatSourceMap (ms.map SourceMapping.toMapping)) = .ok file ∧
      ∃ head value rest, value = formatSourceMap (ms.map SourceMapping.toMapping) ∧
        file = head ++ value ++ backquote :: rest ∧
        sourceMapDecl (pascalCase "pass") "pass" <:+ head ∧
        scan .code head = .raw ∧ ClosedText rest ∧
        (rawString (value ++ backquote :: rest) = some (value, rest) ↔
          ∀ c ∈ constructs arrayProgram, Quotable (c.position arrayProgram).filename) ∧
        ∃ acts occs sm, SoundRun arrayProgram "x.go" text ms acts occs ∧
          AnnotatesWith arrayProgram occs sm ∧ ∀ err log, annotateVerifierErr value err (some log) =
            err ++ "\n\n----- annotated verifier log -----\n" ++
              join "\n" (annotateLines log sm) :=
  ⟨_, _, _, rfl, rfl, @bindings_annotate asciiTables (arraysFile [⟨['a'], 50⟩]) arrayProgram
    blankPrinter "x.go" _ _ "bpf" "pass" passPrograms arrayMaps _ arraysFile_parse arraysFile_idents
    arraysFile_first rfl arrayProgram_pos arrayProgram_printable (by decide +kernel)
    ⟨by decide, by decide⟩ ⟨by decide, by decide⟩ ⟨by simp [arrayProgram, arraysProgram,
      methodProgram], by simp [arrayProgram, arraysProgram, methodProgram]⟩
    (nameText_fixed (by decide) (by decide)) (nameText_fixed (by decide) (by decide)) rfl⟩

end Gobee
