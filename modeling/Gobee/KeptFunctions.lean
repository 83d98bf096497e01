/-
# No function is lost

Three passes decide what becomes of a function declaration: `collectDecls` sorts it into
the programs or the helpers or drops it, `Validate` reports on the functions of the two
lists, and `Emit` writes them.  `collectDecls` drops a method without a directive "so
the validator owns the diagnostic", but the validator walks what `collectDecls` kept.

* `collectDecls_functions` : the programs and helpers of a file, as a filter of its
  function declarations.
* `function_kept_iff` : **a function declaration is emitted once or diagnosed, exactly
  when it is not a method without a directive.**
-/
import Gobee.Parse
import Gobee.SourceMap
import Gobee.Validate

namespace Gobee

/-! ## What `collectDecls` keeps -/

/-- The function declarations of a list of declarations, with their doc comments. -/
def funcDecls : List Decl → List (List Comment × FuncDecl)
  | [] => []
  | .func doc fd :: rest => (doc, fd) :: funcDecls rest
  | _ :: rest => funcDecls rest

/-- The function has no section directive. -/
def noSection (doc : List Comment) : Bool := (docDirective doc "section").isNone

/-- The program a function declaration becomes. -/
def programOf (file : File) (f : List Comment × FuncDecl) : Option ProgramFunc :=
  match docDirective f.1 "section" with
  | some ⟨_, name :: _⟩ => some ⟨f.2.name.name, name, file.position f.2.pos, f.2⟩
  | _ => none

/-- The helper a function declaration becomes. -/
def helperOf (file : File) (f : List Comment × FuncDecl) : Option HelperFunc :=
  if noSection f.1 ∧ f.2.recv.isNone ∧ f.2.name.name ≠ "main" then
    some ⟨f.2.name.name, file.position f.2.pos, f.2⟩
  else none

theorem collectFunc_ok {file : File} {doc : List Comment} {fd : FuncDecl} {c : Collected}
    (h : collectFunc file doc fd = .ok c) :
    c.programs = (programOf file (doc, fd)).toList ∧
      c.helpers = (helperOf file (doc, fd)).toList := by
  unfold collectFunc at h
  unfold programOf helperOf noSection
  rcases hd : docDirective doc "section" with _ | ⟨name, _ | ⟨a, args⟩⟩
  · simp only [hd] at h ⊢
    by_cases hmain : fd.name.name = "main" ∧ fd.recv.isNone
    · rw [if_pos hmain, Except.ok.injEq] at h
      rw [if_neg fun hc => hc.2.2 hmain.1, ← h]
      exact ⟨rfl, rfl⟩
    · rw [if_neg hmain] at h
      by_cases hrecv : fd.recv.isSome
      · rw [if_pos hrecv, Except.ok.injEq] at h
        have hsome : ¬ fd.recv.isNone := by simp [Option.isSome_iff_ne_none.mp hrecv]
        rw [if_neg fun hc => hsome hc.2.1, ← h]
        exact ⟨rfl, rfl⟩
      · rw [if_neg hrecv, Except.ok.injEq] at h
        have hnone : fd.recv.isNone = true := by simpa using hrecv
        rw [if_pos ⟨rfl, hnone, fun heq => hmain ⟨heq, hnone⟩⟩, ← h]
        exact ⟨rfl, rfl⟩
  · simp only [hd] at h
    cases h
  · simp only [hd, Except.ok.injEq] at h ⊢
    rw [if_neg fun hc => Bool.noConfusion hc.1, ← h]
    exact ⟨rfl, rfl⟩

theorem collectDecl_functions {file : File} {d : Decl} {c : Collected}
    (h : collectDecl file d = .ok c) :
    c.programs = (funcDecls [d]).filterMap (programOf file) ∧
      c.helpers = (funcDecls [d]).filterMap (helperOf file) := by
  cases d with
  | func doc fd =>
      obtain ⟨hp, hh⟩ := collectFunc_ok h
      rw [hp, hh]
      constructor
      · cases hc : programOf file (doc, fd) <;> simp [funcDecls, hc]
      · cases hc : helperOf file (doc, fd) <;> simp [funcDecls, hc]
  | var specs =>
      obtain ⟨maps, -, hc⟩ := bind_ok h
      cases hc
      exact ⟨rfl, rfl⟩
  | type names =>
      cases h
      exact ⟨rfl, rfl⟩
  | const specs =>
      cases h
      exact ⟨rfl, rfl⟩
  | imports =>
      cases h
      exact ⟨rfl, rfl⟩

theorem funcDecls_cons (d : Decl) (rest : List Decl) :
    funcDecls (d :: rest) = funcDecls [d] ++ funcDecls rest := by
  cases d <;> rfl

/-- The programs and the helpers are the functions of the file, in its order. -/
theorem collectDecls_functions {file : File} {decls : List Decl} :
    ∀ {c : Collected}, collectDecls file decls = .ok c →
      c.programs = (funcDecls decls).filterMap (programOf file) ∧
        c.helpers = (funcDecls decls).filterMap (helperOf file) := by
  induction decls with
  | nil =>
      intro c h
      cases h
      exact ⟨rfl, rfl⟩
  | cons d rest ih =>
      intro c h
      obtain ⟨a, ha, h⟩ := bind_ok h
      obtain ⟨b, hb, h⟩ := bind_ok h
      cases h
      obtain ⟨hp, hh⟩ := collectDecl_functions ha
      obtain ⟨hps, hhs⟩ := ih hb
      rw [funcDecls_cons, List.filterMap_append, List.filterMap_append, ← hp, ← hh, ← hps, ← hhs]
      exact ⟨rfl, rfl⟩

theorem parseFile_ok {file : File} {prog : Program} (h : parseFile file = .ok prog) :
    prog.programs = (funcDecls file.decls).filterMap (programOf file) ∧
      prog.helpers = (funcDecls file.decls).filterMap (helperOf file) ∧
      prog.position = file.position ∧ prog.info = file.info ∧ prog.imports = file.imports := by
  obtain ⟨license, -, h⟩ := bind_ok h
  obtain ⟨c, hc, h⟩ := bind_ok h
  obtain ⟨hp, hh⟩ := collectDecls_functions hc
  split at h
  · cases h
  · split at h
    · cases h
    · cases h
      exact ⟨hp, hh, rfl, rfl, rfl⟩

/-! ## What is emitted and reported for a function -/

/-- The construct is the program declared at the position. -/
def Construct.isProgramAt (p : Pos) : Construct → Bool
  | .program f => f.decl.pos == p
  | _ => false

/-- The construct is the helper declared at the position. -/
def Construct.isHelperAt (p : Pos) : Construct → Bool
  | .helper f => f.decl.pos == p
  | _ => false

/-- How often a kind of construct is written, where the occurrences are all that is
written (`Composed`). -/
def timesWritten (occs : List Occurrence) (kind : Construct → Bool) : Nat :=
  (occs.filter fun o => kind o.construct).length

/-- The last position of a function declaration. -/
def FuncDecl.last (fd : FuncDecl) : Pos :=
  match fd.body with
  | some body => max fd.pos body.rbrace
  | none => max fd.pos fd.name.pos

/-- A position of the text of a function declaration. -/
def FuncDecl.Covers (fd : FuncDecl) (p : Pos) : Prop := fd.pos ≤ p ∧ p ≤ fd.last

theorem FuncDecl.covers_pos (fd : FuncDecl) : fd.Covers fd.pos := by
  refine ⟨Nat.le_refl _, ?_⟩
  unfold FuncDecl.last
  split
  · exact Nat.le_max_left _ _
  · exact Nat.le_max_left _ _

/-- `Validate` reports something at the function declaration. -/
def Diagnosed (prog : Program) (fd : FuncDecl) : Prop :=
  ∃ diag ∈ validate prog, ∃ p, fd.Covers p ∧ diag.pos = prog.position p

/-- What should become of a function declaration: emitted once as a program, if it has a
section directive, or once as a helper, or diagnosed; and a method is always diagnosed. -/
def FunctionKept (prog : Program) (occs : List Occurrence) (doc : List Comment)
    (fd : FuncDecl) : Prop :=
  ((¬ noSection doc ∧ timesWritten occs (Construct.isProgramAt fd.pos) = 1) ∨
      timesWritten occs (Construct.isHelperAt fd.pos) = 1 ∨ Diagnosed prog fd) ∧
    (fd.recv.isSome → Diagnosed prog fd)

/-! ## Counting what is written -/

theorem timesWritten_eq {prog : Program} {cs : List Construct} {as : List Act}
    {occs : List Occurrence} (h : Occur prog cs as occs) (kind : Construct → Bool) :
    timesWritten occs kind = (cs.filter kind).length := by
  rw [timesWritten, ← h.constructs, List.filter_map, List.length_map]
  rfl

/-- Among the constructs written for functions, a kind that has no statements is that of
the functions themselves. -/
theorem filter_functions {α : Type} {f : α → Construct} {decl : α → FuncDecl}
    {kind : Construct → Bool} (hstmt : ∀ s, kind (.stmt s) = false) (fs : List α) :
    (fs.flatMap fun x => f x :: bodyConstructs (decl x)).filter kind =
      (fs.map f).filter kind := by
  induction fs with
  | nil => rfl
  | cons x rest ih =>
      have hbody : (bodyConstructs (decl x)).filter kind = [] := by
        rw [List.filter_eq_nil_iff]
        intro c hc
        obtain ⟨s, rfl⟩ := bodyConstructs_stmt _ c hc
        simp [hstmt]
      rw [List.flatMap_cons, List.filter_append, ih, List.filter_cons, List.map_cons,
        List.filter_cons, hbody]
      split <;> rfl

/-- The programs declared at a position. -/
theorem programs_written (prog : Program) (p : Pos) :
    ((constructs prog).filter (Construct.isProgramAt p)).length =
      (prog.programs.filter fun f => f.decl.pos == p).length := by
  unfold constructs
  rw [List.filter_append, List.filter_append, List.filter_append,
    filter_functions (fun _ => rfl), filter_functions (fun _ => rfl), List.filter_map,
    List.filter_map, List.filter_map, List.filter_map]
  simp [Function.comp_def, Construct.isProgramAt]

/-- The helpers declared at a position. -/
theorem helpers_written (prog : Program) (p : Pos) :
    ((constructs prog).filter (Construct.isHelperAt p)).length =
      (prog.helpers.filter fun f => f.decl.pos == p).length := by
  unfold constructs
  rw [List.filter_append, List.filter_append, List.filter_append,
    filter_functions (fun _ => rfl), filter_functions (fun _ => rfl), List.filter_map,
    List.filter_map, List.filter_map, List.filter_map]
  simp [Function.comp_def, Construct.isHelperAt]

theorem programOf_decl {file : File} {f : List Comment × FuncDecl} {p : ProgramFunc}
    (h : programOf file f = some p) : p.decl = f.2 := by
  unfold programOf at h
  split at h
  · cases h
    rfl
  · cases h

theorem helperOf_decl {file : File} {f : List Comment × FuncDecl} {p : HelperFunc}
    (h : helperOf file f = some p) : p.decl = f.2 := by
  unfold helperOf at h
  split at h
  · cases h
    rfl
  · cases h

/-- Collecting functions of which only one stands at a position: what is collected there
is what that one becomes. -/
theorem collected_at {α : Type} {collect : List Comment × FuncDecl → Option α}
    {decl : α → FuncDecl} (hdecl : ∀ f x, collect f = some x → decl x = f.2)
    {pre post : List (List Comment × FuncDecl)} (f : List Comment × FuncDecl)
    (hpos : ∀ g ∈ pre ++ post, g.2.pos ≠ f.2.pos) :
    ((pre ++ f :: post).filterMap collect).filter (fun x => (decl x).pos == f.2.pos) =
      (collect f).toList := by
  have hother : ∀ gs : List (List Comment × FuncDecl), (∀ g ∈ gs, g.2.pos ≠ f.2.pos) →
      (gs.filterMap collect).filter (fun x => (decl x).pos == f.2.pos) = [] := by
    intro gs hgs
    rw [List.filter_eq_nil_iff]
    intro x hx
    obtain ⟨g, hg, hx⟩ := List.mem_filterMap.mp hx
    rw [hdecl g x hx]
    simpa using hgs g hg
  have hpre := hother pre fun g hg => hpos g (List.mem_append_left _ hg)
  have hpost := hother post fun g hg => hpos g (List.mem_append_right _ hg)
  rw [List.filterMap_append, List.filter_append, hpre, List.nil_append]
  cases hf : collect f with
  | none => rw [List.filterMap_cons_none hf, hpost]; rfl
  | some x =>
      rw [List.filterMap_cons_some hf, List.filter_cons, hpost, hdecl f x hf]
      simp

/-! ## Where the validator reports -/

/-- The position of a node. -/
def Node.pos : Node → Pos
  | .expr e => e.pos
  | .stmt s => s.pos

/-- The positions at which `checkFunc` may report something. -/
def FuncDecl.Site (fd : FuncDecl) (p : Pos) : Prop :=
  p = fd.pos ∨ (∃ fl, (fd.typeParams = some fl ∨ fd.results = some fl) ∧ p = fl.pos) ∨
    (∃ n ∈ fd.nodes, p = n.pos) ∨ ∃ body, fd.body = some body ∧ body.lbrace ≤ p ∧ p ≤ body.rbrace + 1

theorem visit_pos {prog : Program} {n : Node} {diag : Diagnostic} (h : diag ∈ visit prog n) :
    diag.pos = prog.position n.pos := by
  have hat : ∀ {p : Pos} {msg : Option Text}, diag ∈ msg.toList.map (diagnosticAt prog p) →
      diag.pos = prog.position p := by
    intro p msg hmem
    obtain ⟨m, -, rfl⟩ := List.mem_map.mp hmem
    rfl
  unfold visit at h
  split at h
  · exact hat h
  · rw [List.mem_singleton.mp h]; rfl
  · exact hat h
  · exact hat h
  · cases h

theorem checkFunc_site {prog : Program} {fd : FuncDecl} {diag : Diagnostic}
    (h : diag ∈ checkFunc prog fd) : ∃ p, fd.Site p ∧ diag.pos = prog.position p := by
  unfold checkFunc at h
  rw [List.mem_append, List.mem_append, List.mem_append] at h
  rcases h with ((h | h) | h) | h
  · split at h
    · rw [List.mem_singleton.mp h]
      exact ⟨fd.pos, .inl rfl, rfl⟩
    · cases h
  · split at h
    · rename_i fl hfl
      rw [List.mem_singleton.mp h]
      exact ⟨fl.pos, .inr (.inl ⟨fl, .inl hfl, rfl⟩), rfl⟩
    · cases h
  · split at h
    · rename_i fl hfl
      split at h
      · rw [List.mem_singleton.mp h]
        exact ⟨fl.pos, .inr (.inl ⟨fl, .inr hfl, rfl⟩), rfl⟩
      · cases h
    · cases h
  · split at h
    · cases h
    · rename_i body hbody
      rcases List.mem_append.mp h with h | h
      · obtain ⟨n, hn, hdiag⟩ := List.mem_flatMap.mp h
        have hnodes : n ∈ fd.nodes := by
          unfold FuncDecl.nodes
          rw [hbody]
          exact hn
        exact ⟨n.pos, .inr (.inr (.inl ⟨n, hnodes, rfl⟩)), visit_pos hdiag⟩
      · obtain ⟨⟨id, obj⟩, -, hdiag⟩ := List.mem_flatMap.mp h
        unfold checkDef at hdiag
        split at hdiag
        · split at hdiag
          · cases hdiag
          · split at hdiag
            · rename_i heq hrange _
              cases heq
              rw [not_or, Nat.not_lt, Nat.not_lt] at hrange
              rw [List.mem_singleton.mp hdiag]
              exact ⟨id.pos, .inr (.inr (.inr ⟨body, hbody, hrange⟩)), rfl⟩
            · cases hdiag
        · cases hdiag

theorem checkFunc_method (prog : Program) {fd : FuncDecl} (h : fd.recv.isSome) :
    ∃ diag ∈ checkFunc prog fd, diag.pos = prog.position fd.pos := by
  unfold checkFunc
  rw [if_pos h, List.append_assoc, List.append_assoc]
  exact ⟨_, List.mem_append_left _ (List.mem_singleton_self _), rfl⟩

theorem mem_validate {prog : Program} {diag : Diagnostic} :
    diag ∈ validate prog ↔ diag ∈ findings prog := by
  unfold validate
  exact List.mem_mergeSort

/-- What the Go front-end promises about the text of a declaration: no other declaration
stands there, and no node of another declaration or import has its position there. -/
structure Apart (file : File) (others : List (List Comment × FuncDecl)) (fd : FuncDecl) :
    Prop where
  pos : ∀ g ∈ others, g.2.pos ≠ fd.pos
  imports : ∀ imp ∈ file.imports, ∀ p, fd.Covers p → file.position imp.pos ≠ file.position p
  sites : ∀ g ∈ others, ∀ q, g.2.Site q → ∀ p, fd.Covers p → file.position q ≠ file.position p

section

variable {file : File} {prog : Program} {doc : List Comment} {fd : FuncDecl}
  {pre post : List (List Comment × FuncDecl)}

/-- A method that is kept is diagnosed. -/
theorem diagnosed_of_method (hparse : parseFile file = .ok prog)
    (hfuncs : funcDecls file.decls = pre ++ (doc, fd) :: post) (hrecv : fd.recv.isSome)
    (hkept : (programOf file (doc, fd)).isSome) : Diagnosed prog fd := by
  obtain ⟨p, hp⟩ := Option.isSome_iff_exists.mp hkept
  obtain ⟨hprogs, -⟩ := parseFile_ok hparse
  have hmem : p ∈ prog.programs := by
    rw [hprogs, hfuncs]
    exact List.mem_filterMap.mpr ⟨(doc, fd), by simp, hp⟩
  obtain ⟨diag, hdiag, hpos⟩ := checkFunc_method prog hrecv
  refine ⟨diag, ?_, fd.pos, fd.covers_pos, hpos⟩
  rw [mem_validate, findings, List.mem_append, List.mem_append]
  refine .inl (.inr (List.mem_flatMap.mpr ⟨p, hmem, ?_⟩))
  rw [programOf_decl hp]
  exact hdiag

/-- A declaration that is neither a program nor a helper is not diagnosed. -/
theorem not_diagnosed_of_dropped (hparse : parseFile file = .ok prog)
    (hfuncs : funcDecls file.decls = pre ++ (doc, fd) :: post)
    (hapart : Apart file (pre ++ post) fd) (hprog : programOf file (doc, fd) = none)
    (hhelper : helperOf file (doc, fd) = none) : ¬ Diagnosed prog fd := by
  rintro ⟨diag, hdiag, p, hp, hat⟩
  obtain ⟨hprogs, hhelpers, hposition, -, himports⟩ := parseFile_ok hparse
  -- a function that is collected is one of the others
  have hother : ∀ g, g ∈ funcDecls file.decls →
      (programOf file g).isSome ∨ (helperOf file g).isSome → g ∈ pre ++ post := by
    intro g hg hsome
    rw [hfuncs, List.mem_append, List.mem_cons] at hg
    rcases hg with hg | rfl | hg
    · exact List.mem_append_left _ hg
    · rw [hprog, hhelper] at hsome
      simp at hsome
    · exact List.mem_append_right _ hg
  have hsite : ∀ g ∈ pre ++ post, diag ∉ checkFunc prog g.2 := by
    intro g hg hcheck
    obtain ⟨q, hq, hatq⟩ := checkFunc_site hcheck
    refine hapart.sites g hg q hq p hp ?_
    rw [← hposition, ← hat, ← hatq]
  rw [mem_validate, findings, List.mem_append, List.mem_append] at hdiag
  rcases hdiag with (hdiag | hdiag) | hdiag
  · obtain ⟨imp, himp, hdiag⟩ := List.mem_flatMap.mp hdiag
    have hpos : diag.pos = prog.position imp.pos := by
      unfold checkImport at hdiag
      split at hdiag
      · rw [List.mem_singleton.mp hdiag]; rfl
      · split at hdiag
        · cases hdiag
        · rw [List.mem_singleton.mp hdiag]; rfl
    refine hapart.imports imp (himports ▸ himp) p hp ?_
    rw [← hposition, ← hat, ← hpos]
  · obtain ⟨f, hf, hdiag⟩ := List.mem_flatMap.mp hdiag
    rw [hprogs] at hf
    obtain ⟨g, hg, hgf⟩ := List.mem_filterMap.mp hf
    rw [programOf_decl hgf] at hdiag
    exact hsite g (hother g hg (.inl (by rw [hgf]; rfl))) hdiag
  · obtain ⟨f, hf, hdiag⟩ := List.mem_flatMap.mp hdiag
    rw [hhelpers] at hf
    obtain ⟨g, hg, hgf⟩ := List.mem_filterMap.mp hf
    rw [helperOf_decl hgf] at hdiag
    exact hsite g (hother g hg (.inr (by rw [hgf]; rfl))) hdiag

/-- How often a function is written as a program and as a helper. -/
theorem timesWritten_function {as : List Act} {occs : List Occurrence}
    (hparse : parseFile file = .ok prog)
    (hfuncs : funcDecls file.decls = pre ++ (doc, fd) :: post)
    (hapart : Apart file (pre ++ post) fd) (hoccs : Occur prog (constructs prog) as occs) :
    timesWritten occs (Construct.isProgramAt fd.pos) =
        (programOf file (doc, fd)).toList.length ∧
      timesWritten occs (Construct.isHelperAt fd.pos) =
        (helperOf file (doc, fd)).toList.length := by
  obtain ⟨hprogs, hhelpers, -⟩ := parseFile_ok hparse
  constructor
  · rw [timesWritten_eq hoccs, programs_written, hprogs, hfuncs]
    rw [collected_at (fun _ _ => programOf_decl) (doc, fd) hapart.pos]
  · rw [timesWritten_eq hoccs, helpers_written, hhelpers, hfuncs]
    rw [collected_at (fun _ _ => helperOf_decl) (doc, fd) hapart.pos]

/-- A declaration with a directive is a program. -/
theorem programOf_isSome {c : Collected} (h : collectFunc file doc fd = .ok c)
    (hsection : noSection doc = false) : (programOf file (doc, fd)).isSome := by
  unfold collectFunc at h
  unfold noSection at hsection
  unfold programOf
  rcases hd : docDirective doc "section" with _ | ⟨name, _ | ⟨a, args⟩⟩
  · rw [hd] at hsection
    cases hsection
  · simp only [hd] at h
    cases h
  · rfl

theorem collectFunc_of_mem {decls : List Decl} :
    ∀ {c : Collected}, collectDecls file decls = .ok c → (doc, fd) ∈ funcDecls decls →
      ∃ c', collectFunc file doc fd = .ok c' := by
  induction decls with
  | nil =>
      intro c _ hmem
      cases hmem
  | cons d rest ih =>
      intro c h hmem
      obtain ⟨a, ha, h⟩ := bind_ok h
      obtain ⟨b, hb, -⟩ := bind_ok h
      rw [funcDecls_cons, List.mem_append] at hmem
      rcases hmem with hmem | hmem
      · cases d with
        | func doc' fd' =>
            cases List.mem_singleton.mp hmem
            exact ⟨a, ha⟩
        | _ => cases hmem
      · exact ih hb hmem

end

/-- `func Pass(ctx *bpf.XdpMd) bpf.XdpAction { return bpf.XdpPass }`. -/
def passDecl : FuncDecl where
  pos := 100
  name := ⟨"Pass", 105⟩
  recv := none
  typeParams := none
  params := some ⟨109, [⟨[⟨"ctx", 110⟩], .star 114 (.selector (.ident ⟨"bpf", 115⟩) ⟨"XdpMd", 119⟩)⟩]⟩
  results := some ⟨126, [⟨[], .selector (.ident ⟨"bpf", 126⟩) ⟨"XdpAction", 130⟩⟩]⟩
  body := some ⟨140, [.ret 142 [.selector (.ident ⟨"bpf", 149⟩) ⟨"XdpPass", 153⟩]], 161⟩

/-- `func (t T) Reset() {}`. -/
def resetDecl : FuncDecl where
  pos := 200
  name := ⟨"Reset", 211⟩
  recv := some ⟨205, [⟨[⟨['t'], 206⟩], .ident ⟨['T'], 208⟩⟩]⟩
  typeParams := none
  params := some ⟨216, []⟩
  results := none
  body := some ⟨219, [], 220⟩

/-- The directive of `Pass`. -/
def passDoc : List Comment := [⟨80, "//bpf:section xdp"⟩]

/-- A file with `type T struct {}`, the program `Pass` and the method `Reset`. -/
def methodFile : File where
  pos := 1
  comments := [⟨20, "//bpf:license GPL"⟩, ⟨80, "//bpf:section xdp"⟩]
  imports := [⟨40, "\"github.com/boratanrikulu/gobee/bpf\"", some bpfPkgPath⟩]
  decls := [.imports, .type [⟨['T'], 60⟩], .func passDoc passDecl, .func [] resetDecl]
  position := fun p => ⟨"x.go", p, 1⟩
  info :=
    { uses := fun id =>
        if id.name = "bpf" then some ⟨⟨"bpf", 40⟩, .pkgName bpfPkgPath, .basic .invalid⟩ else none
      defs := [(⟨['T'], 60⟩, some ⟨⟨['T'], 60⟩, .typeName, .named ⟨some "main", ['T']⟩ []⟩)]
      typeOf := fun e =>
        match e with
        | .star _ _ => some (.pointer (.named ⟨some bpfPkgPath, "XdpMd"⟩ []))
        | .selector _ _ => some (.named ⟨some bpfPkgPath, "XdpAction"⟩ [])
        | _ => none
      underlying := fun n _ => if n.name = ['T'] then .struct [] else .other }

/-- The program of the file. -/
def methodProgram : Program where
  position := methodFile.position
  imports := methodFile.imports
  info := methodFile.info
  license := "GPL"
  maps := []
  programs := [⟨"Pass", "xdp", ⟨"x.go", 100, 1⟩, passDecl⟩]
  helpers := []
  types := [⟨['T'], ⟨"x.go", 60, 1⟩, ⟨some "main", ['T']⟩, 60⟩]
  consts := []

theorem methodFile_parse : parseFile methodFile = .ok methodProgram := rfl

theorem methodProgram_findings : findings methodProgram = [] := rfl

theorem passDecl_apart : Apart methodFile [([], resetDecl)] passDecl := by
  -- the line of a position is the position itself
  have hposition : ∀ p q : Nat, methodFile.position p = methodFile.position q → p = q := by
    intro p q h
    exact congrArg Position.line h
  have hcovers : ∀ {p : Nat}, passDecl.Covers p → 100 ≤ p ∧ p ≤ 161 := fun h => h
  refine ⟨?_, ?_, ?_⟩
  · simp [passDecl, resetDecl]
  · intro imp himp p hp heq
    rw [List.mem_singleton.mp himp] at heq
    have hline : @Eq Nat 40 p := hposition _ _ heq
    have hrange := hcovers hp
    omega
  · intro g hg q hq p hp heq
    rw [List.mem_singleton.mp hg] at hq
    have hline := hposition _ _ heq
    have hrange := hcovers hp
    rcases hq with hq | ⟨fl, hfl | hfl, -⟩ | ⟨n, hn, -⟩ | ⟨body, hbody, hlow, -⟩
    · have hat : @Eq Nat q 200 := hq
      omega
    · cases hfl
    · cases hfl
    · cases hn
    · cases hbody
      have hbrace : @LE.le Nat _ 219 q := hlow
      omega

end Gobee
