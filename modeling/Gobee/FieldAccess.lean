/-
# Field access

`writeUserType` declares every field under its Go name.  `formatSelector` prints one member
access for a selector: behind a pointer under the name in the `bpf` tag of the field, if it
has one, and otherwise under the Go name.  A promoted field is several members away in C.

* `selector_declared_iff` : **a selector is printed as the members that `writeUserType`
  declares, exactly when the field is not promoted and, behind a pointer, its tag is empty
  or its own name.**
-/
import Gobee.EventLayout
import Gobee.DeclareOrder

namespace Gobee

open CSyntax

variable {prog : Program}

/-! ## Members of the emitted structs -/

/-- The operator that reaches a member of a value of this type. -/
def accessOp : GoType → Text
  | .pointer _ => "->"
  | _ => ['.']

/-- The field of a struct of the file, reached on a value of the struct or on a pointer to
it. -/
def FieldOf (prog : Program) (t : GoType) (f : StructField) : Prop :=
  ∃ u ∈ prog.types, ∃ fields, stripPointer t = .named u.type [] ∧
    prog.info.underlying u.type [] = .struct fields ∧ f ∈ fields

/-- The path of a selector in Go: the embedded fields on the way, and last the field with
the selected name. -/
def IsPath (prog : Program) : GoType → Text → List StructField → Prop
  | _, _, [] => False
  | t, name, [f] => FieldOf prog t f ∧ f.name = name
  | t, name, f :: g :: fs => FieldOf prog t f ∧ IsPath prog f.type name (g :: fs)

/-- The tree goes from `b` along the fields, and names each member as the struct that is
written for it does. -/
inductive MemberPath : GoType → CTree → List StructField → CTree → Prop where
  | nil {t : GoType} {b : CTree} : MemberPath t b [] b
  | cons {t : GoType} {b u : CTree} {f : StructField} {fs : List StructField} {m : Member}
      (hm : memberOf f = some m) (hu : MemberPath f.type (.member b (accessOp t) m.name) fs u) :
      MemberPath t b (f :: fs) u

/-- Behind a pointer the tag of the field is empty or the name of the field. -/
def TagAgrees (prog : Program) (t : GoType) (name : Text) : Prop :=
  ∀ n targs, t = .pointer (.named n targs) →
    bpfFieldNameTag prog n targs name = [] ∨ bpfFieldNameTag prog n targs name = name

/-- A member is declared under the name of its field. -/
theorem memberOf_name {f : StructField} {m : Member} (h : memberOf f = some m) :
    m.name = f.name := by
  unfold memberOf at h
  split at h
  · obtain ⟨c, -, rfl⟩ := Option.map_eq_some_iff.mp h
    rfl
  · obtain ⟨c, -, rfl⟩ := Option.map_eq_some_iff.mp h
    rfl

theorem memberOf_of_membersOf {fields : List StructField} {ms : List Member} {f : StructField}
    (h : membersOf fields = some ms) (hf : f ∈ fields) : ∃ m, memberOf f = some m := by
  induction fields generalizing ms with
  | nil => cases hf
  | cons g rest ih =>
      obtain ⟨m, hm, h⟩ := Option.bind_eq_some_iff.mp h
      obtain ⟨ms', hms, -⟩ := Option.bind_eq_some_iff.mp h
      rcases List.mem_cons.mp hf with rfl | hf
      · exact ⟨m, hm⟩
      · exact ih hms hf

/-- The fields of the structs of an emitted file are declared. -/
theorem memberOf_of_emit {label text : Text} {ms : List SourceMapping} {t : GoType}
    {f : StructField} (hemit : emit prog label = .ok (text, ms)) (hf : FieldOf prog t f) :
    ∃ m, memberOf f = some m := by
  obtain ⟨u, hu, fields, -, hfields, hf⟩ := hf
  obtain ⟨⟨_, n, acts⟩, hacts, -⟩ := bind_ok hemit
  obtain ⟨occs, hoccs⟩ := emit_composed hacts
  have hmem : .type u ∈ constructs prog := by simp [constructs, hu]
  rw [← hoccs.constructs] at hmem
  obtain ⟨o, ho, hc⟩ := List.mem_map.mp hmem
  obtain ⟨-, -, m, m', hwrite⟩ := hoccs.within o ho
  rw [hc] at hwrite
  have hout : out (writeUserType prog u) m = some ((), m', o.own) := out_eq_some.mpr hwrite
  rw [out_writeUserType] at hout
  obtain ⟨members', hmembers, -⟩ := Option.map_eq_some_iff.mp hout
  rw [members, hfields] at hmembers
  exact memberOf_of_membersOf hmembers hf

/-! ## Printed selectors -/

/-- The member accesses at the end of an expression. -/
def memberDepth : CTree → Nat
  | .member b _ _ => memberDepth b + 1
  | _ => 0

section

variable {t : GoType} {b u : CTree} {fs : List StructField}

theorem MemberPath.depth (h : MemberPath t b fs u) :
    memberDepth u = memberDepth b + fs.length := by
  induction h with
  | nil => rfl
  | cons hm hu ih =>
      rw [ih, memberDepth, List.length_cons]
      omega

theorem memberTree_cases (b : CTree) (op w : Text) :
    memberTree b op w = .member b op w ∨
      (∃ i, memberTree b op w = .index (.member b op (w.span (· != '[')).1) i) ∧ '[' ∈ w := by
  unfold memberTree
  split
  · rename_i f i hspan
    have hmem : '[' ∈ w := by
      have happ := List.takeWhile_append_dropWhile (p := (· != '[')) (l := w)
      rw [List.span_eq_takeWhile_dropWhile, Prod.mk.injEq] at hspan
      rw [← happ, hspan.2]
      simp
    split_ifs
    · exact .inr ⟨⟨_, by rw [hspan]⟩, hmem⟩
    · exact .inl rfl
  · exact .inl rfl

/-- A member access goes along one field. -/
theorem memberPath_memberTree {op w : Text} (hfs : fs ≠ [])
    (h : MemberPath t b fs (memberTree b op w)) :
    ∃ f m, fs = [f] ∧ memberOf f = some m ∧ op = accessOp t ∧ w = m.name := by
  have hdepth := h.depth
  have hpos := List.length_pos_iff.mpr hfs
  rcases memberTree_cases b op w with hmember | ⟨⟨i, hindex⟩, -⟩
  · rw [hmember, memberDepth] at hdepth
    have hlen : fs.length = 1 := by omega
    obtain ⟨f, rfl⟩ := List.length_eq_one_iff.mp hlen
    rw [hmember] at h
    cases h with
    | cons hm hu =>
        cases hu
        exact ⟨f, _, rfl, hm, rfl, rfl⟩
  · have hzero : memberDepth (memberTree b op w) = 0 := by
      rw [hindex]
      rfl
    omega

/-- The operator of a member access follows the type. -/
theorem memberAccess_op {x : Expr} {sel : Ident} (htype : prog.info.typeOf x = some t) :
    (memberAccess prog x sel).1 = accessOp t := by
  unfold memberAccess accessOp
  rw [htype]
  cases t with
  | pointer elem => cases elem <;> rfl
  | _ => rfl

/-- The printed name is the Go name exactly when the tag agrees. -/
theorem memberAccess_name {x : Expr} {sel : Ident} (htype : prog.info.typeOf x = some t) :
    (memberAccess prog x sel).2 = sel.name ↔ TagAgrees prog t sel.name := by
  unfold memberAccess TagAgrees
  rw [htype]
  cases t with
  | pointer elem =>
      cases elem with
      | named n targs =>
          by_cases htag : bpfFieldNameTag prog n targs sel.name = []
          · simp [htag]
          · simp [htag]
      | _ => simp
  | _ => simp

end

theorem isPath_ne_nil {t : GoType} {name : Text} {path : List StructField}
    (h : IsPath prog t name path) : path ≠ [] := by
  rintro rfl
  exact h

theorem isPath_singleton {t : GoType} {name : Text} {path : List StructField}
    (h : IsPath prog t name path) (hlen : path.length = 1) :
    ∃ f, path = [f] ∧ FieldOf prog t f ∧ f.name = name := by
  obtain ⟨f, rfl⟩ := List.length_eq_one_iff.mp hlen
  exact ⟨f, rfl, h.1, h.2⟩

/-- **A selector is printed as the members that `writeUserType` declares, exactly when the
field is not promoted and, behind a pointer, its tag is empty or its own name.** -/
theorem selector_declared_iff {label text s : Text} {ms : List SourceMapping} {aliases : Aliases}
    {x : Expr} {sel : Ident} {t : GoType} {path : List StructField}
    (hemit : emit prog label = .ok (text, ms)) (hpkg : isBpfPackage prog x = false)
    (htype : prog.info.typeOf x = some t) (hpath : IsPath prog t sel.name path)
    (hname : '[' ∉ sel.name) (hs : formatExpr prog aliases (.selector x sel) = .ok s) :
    ∃ b u, exprTree prog aliases x = .ok b ∧ exprTree prog aliases (.selector x sel) = .ok u ∧
      s = CExpr.render u ∧
      (MemberPath t b path u ↔ path.length = 1 ∧ TagAgrees prog t sel.name) := by
  rw [formatExpr_eq] at hs
  cases hu : exprTree prog aliases (.selector x sel) with
  | error e => rw [hu] at hs; cases hs
  | ok u =>
      rw [hu] at hs
      cases hs
      have hconst : bpfConstant prog x sel = none := by
        rw [bpfConstant, hpkg]
        rfl
      rcases selectorTree_ok hu with ⟨c, hc, -⟩ | ⟨-, b, hb, rfl⟩
      · rw [hconst] at hc
        cases hc
      · refine ⟨b, _, hb, rfl, rfl, ?_⟩
        constructor
        · intro h
          obtain ⟨f, m, rfl, hm, -, hw⟩ := memberPath_memberTree (isPath_ne_nil hpath) h
          refine ⟨rfl, (memberAccess_name htype).mp ?_⟩
          rw [hw, memberOf_name hm]
          exact hpath.2
        · rintro ⟨hlen, htag⟩
          obtain ⟨f, rfl, hfield, hf⟩ := isPath_singleton hpath hlen
          obtain ⟨m, hm⟩ := memberOf_of_emit hemit hfield
          rw [memberAccess_op htype, (memberAccess_name htype).mpr htag]
          rcases memberTree_cases b (accessOp t) sel.name with hmember | ⟨-, hbracket⟩
          · rw [hmember, ← hf, ← memberOf_name hm]
            exact .cons hm .nil
          · exact absurd hbracket hname

/-! ## A tagged field -/

/-- `func pid(e *Event) uint32 { return e.Pid }`. -/
def pidDecl : FuncDecl where
  pos := 80
  name := ⟨"pid", 85⟩
  recv := none
  typeParams := none
  params := some ⟨88, [⟨[⟨['e'], 89⟩], .star 91 (.ident ⟨"Event", 92⟩)⟩]⟩
  results := some ⟨99, [⟨[], .ident ⟨"uint32", 99⟩⟩]⟩
  body := some ⟨106, [.ret 108 [.selector (.ident ⟨['e'], 115⟩) ⟨"Pid", 117⟩]], 121⟩

/-- The field `Pid uint32` with a tag. -/
def pidField (tag : Text) : StructField := ⟨"Pid", .basic .uint32, tag⟩

/-- A file with `type Event struct { Pid uint32 }`, the field with a tag, and `pid`. -/
def pidProgram (tag : Text) : Program where
  position := fun p => ⟨"x.go", p, 1⟩
  imports := []
  info :=
    { uses := fun id =>
        if id.name = ['e'] then
          some ⟨⟨['e'], 89⟩, .var, .pointer (.named ⟨some "main", "Event"⟩ [])⟩
        else none
      defs := []
      typeOf := fun e =>
        match e with
        | .star _ _ => some (.pointer (.named ⟨some "main", "Event"⟩ []))
        | .ident id =>
            if id.name = ['e'] then some (.pointer (.named ⟨some "main", "Event"⟩ []))
            else some (.basic .uint32)
        | _ => some (.basic .uint32)
      underlying := fun _ _ => .struct [pidField tag] }
  license := "GPL"
  maps := []
  programs := []
  helpers := [⟨"pid", ⟨"x.go", 80, 1⟩, pidDecl⟩]
  types := [⟨"Event", ⟨"x.go", 60, 1⟩, ⟨some "main", "Event"⟩, 60⟩]
  consts := []

theorem pidField_path (tag : Text) :
    IsPath (pidProgram tag) (.pointer (.named ⟨some "main", "Event"⟩ [])) "Pid" [pidField tag] :=
  ⟨⟨_, List.mem_cons_self, _, rfl, rfl, List.mem_cons_self⟩, rfl⟩

/-- With the tag `bpf:"pid"` the selector is printed as `e->pid`, and the member is called
`Pid`. -/
theorem pidProgram_tagged :
    ∃ text ms b u, validate (pidProgram "bpf:\"pid\"") = [] ∧
      emit (pidProgram "bpf:\"pid\"") "x.go" = .ok (text, ms) ∧
      exprTree (pidProgram "bpf:\"pid\"") [] (.ident ⟨['e'], 115⟩) = .ok b ∧
      exprTree (pidProgram "bpf:\"pid\"") [] (.selector (.ident ⟨['e'], 115⟩) ⟨"Pid", 117⟩) =
        .ok u ∧
      formatExpr (pidProgram "bpf:\"pid\"") [] (.selector (.ident ⟨['e'], 115⟩) ⟨"Pid", 117⟩) =
        .ok "e->pid" ∧
      ¬ MemberPath (.pointer (.named ⟨some "main", "Event"⟩ [])) b [pidField "bpf:\"pid\""] u := by
  refine ⟨_, _, _, _, validate_eq_nil.mpr rfl, rfl, rfl, rfl, rfl, fun h => ?_⟩
  obtain ⟨f, m, hf, hm, -, hw⟩ := memberPath_memberTree (List.cons_ne_nil _ _) h
  cases hf
  rw [memberOf_name hm] at hw
  exact absurd hw (by decide)

/-- Without a tag the selector is printed as `e->Pid`. -/
theorem pidProgram_untagged :
    ∃ b u, exprTree (pidProgram []) [] (.ident ⟨['e'], 115⟩) = .ok b ∧
      exprTree (pidProgram []) [] (.selector (.ident ⟨['e'], 115⟩) ⟨"Pid", 117⟩) = .ok u ∧
      MemberPath (.pointer (.named ⟨some "main", "Event"⟩ [])) b [pidField []] u := by
  obtain ⟨b, u, hb, hu, -, hiff⟩ := @selector_declared_iff (pidProgram []) "x.go" _ "e->Pid" _ []
    (.ident ⟨['e'], 115⟩) ⟨"Pid", 117⟩ _ [pidField []] rfl rfl rfl (pidField_path []) (by decide) rfl
  refine ⟨b, u, hb, hu, hiff.mpr ⟨rfl, ?_⟩⟩
  intro n targs _
  exact .inl rfl

end Gobee
