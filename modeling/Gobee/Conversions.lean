/-
# Conversions

`formatCall` takes a call for a conversion by the spelling of its callee: an identifier
of the table `goBasicNameToC`.  Go classifies it by what the callee denotes.

* `conversion_cast_iff` : **a conversion to `T` is printed as a cast to the C type of `T`
  exactly when the type is spelled by an identifier that the table maps to that C type, or by
  an identifier in parentheses that is that C type; a call of a function of the file is
  printed as a cast exactly when the function is named like a type of the table, or like a
  type of C and called in parentheses.**
-/
import Gobee.Splices

namespace Gobee

open CSyntax CExpr

/-! ## What Go calls a conversion -/

/-- The expression denotes a type. -/
def isTypeExpr (prog : Program) : Expr → Bool
  | .ident id =>
      match prog.info.uses id with
      | some obj => obj.kind == .typeName
      | none => false
  | .selector (.ident pkg) sel =>
      (match prog.info.uses pkg with
        | some ⟨_, .pkgName _, _⟩ => true
        | _ => false) &&
      (match prog.info.uses sel with
        | some obj => obj.kind == .typeName
        | none => false)
  | .paren _ x => isTypeExpr prog x
  | .star _ x => isTypeExpr prog x
  | .index x _ => isTypeExpr prog x
  | .other (.arrayType _) _ _ | .other .structType _ _ | .other .funcType _ _
  | .other .interfaceType _ _ | .other .mapType _ _ | .other .chanType _ _ => true
  | _ => false

/-- The function of the file that a callee names. -/
def userCallee (prog : Program) : Expr → Option Ident
  | .ident id =>
      match prog.info.uses id with
      | some obj => if obj.kind = .func then some id else none
      | none => none
  | .paren _ x => userCallee prog x
  | _ => none

/-- A word as the names of Go are: no blanks, no parentheses and no brackets. -/
def IsWord (w : Text) : Prop := w ≠ [] ∧ ∀ c ∈ w, c ≠ ' ' ∧ c ≠ '(' ∧ c ≠ ')' ∧ c ≠ ']'

/-- What the front-end promises of a callee: identifiers and the names of types are words,
only variables have aliases, a package name has no valid type, and the sugar functions of
the `bpf` package are no types. -/
structure CalleeFacts (prog : Program) (aliases : Aliases) (fn : Expr) : Prop where
  words : ∀ id, Node.expr (.ident id) ∈ inspectExpr fn → IsWord id.name
  typeName : ∀ n targs, prog.info.typeOf fn = some (.named n targs) → IsWord n.name
  plain : ∀ id obj, prog.info.uses id = some obj → obj.kind ≠ .var →
    aliases.lookup obj.decl = none
  package : ∀ id obj path, prog.info.uses id = some obj → obj.kind = .pkgName path →
    prog.info.typeOf (.ident id) = none ∨ prog.info.typeOf (.ident id) = some (.basic .invalid)
  sugar : isTypeExpr prog fn = true → ∀ f, bpfFunction prog fn = some f → f ∉ sugarFuncs

/-- The text is a cast to a type of an operand in parentheses. -/
def castText (cType inner : Text) : Text := "(" ++ cType ++ ")(" ++ inner ++ ")"

/-- The text has the form of a cast. -/
def LooksLikeCast (s : Text) : Prop := ∃ w inner, isTypeWord w = true ∧ s = castText w inner

/-- The type is spelled by an identifier of the table, or by its C type in parentheses. -/
def SpelledAs (fn : Expr) (cType : Text) : Prop :=
  conversionType fn = some cType ∨ ∃ pos id, fn = .paren pos (.ident id) ∧ id.name = cType

/-- The function is not named like a type where it is called. -/
def NotTypeNamed (fn : Expr) : Prop :=
  conversionType fn = none ∧ ∀ pos id, fn = .paren pos (.ident id) → isTypeWord id.name = false

/-! ## Printed calls -/

section

variable {prog : Program} {aliases : Aliases} {fn : Expr}

theorem mem_of_lookup {rows : List (Text × Text)} {k v : Text} (h : rows.lookup k = some v) :
    (k, v) ∈ rows := by
  obtain ⟨l₁, l₂, hrows, -⟩ := List.lookup_eq_some_iff.mp h
  rw [hrows]
  simp

/-- The name of a helper does not begin with a parenthesis. -/
theorem head_helper {nargs : Nat} {w : Text} {parts : List ArgPart}
    (h : callForm prog fn nargs = .helper w parts) : ∃ c rest, w = c :: rest ∧ c ≠ '(' := by
  have hlist : ∀ w ∈ mapCallees ++ sugarCallees ++ bpfHelperFuncs.map Prod.snd,
      w.head? ≠ none ∧ w.head? ≠ some '(' := by decide
  have hcons : ∀ {w : Text}, w.head? ≠ none → w.head? ≠ some '(' →
      ∃ c rest, w = c :: rest ∧ c ≠ '(' := by
    intro w hne hc
    cases w with
    | nil => exact absurd rfl hne
    | cons c rest => exact ⟨c, rest, rfl, fun heq => hc (by rw [heq]; rfl)⟩
  have hmem : ∀ {w : Text}, w ∈ mapCallees ++ sugarCallees ++ bpfHelperFuncs.map Prod.snd →
      ∃ c rest, w = c :: rest ∧ c ≠ '(' := by
    intro w hw
    exact hcons (hlist w hw).1 (hlist w hw).2
  rcases @callForm_cases prog fn nargs with ⟨c, -, hc⟩ | ⟨-, hc⟩ | ⟨form, hm, hc⟩ | ⟨f, -, -, hc⟩ |
      ⟨-, -, hc⟩
  · rw [hc] at h
    cases h
  · rw [hc] at h
    cases h
  · obtain ⟨m, w', parts', -, hform, hw, -⟩ := methodForm_some hm
    rw [hc, hform] at h
    cases h
    exact hmem (List.mem_append_left _ (List.mem_append_left _ hw))
  · rw [hc] at h
    rcases @bpfForm_cases nargs f with ⟨-, ty, e, hf, -⟩ | ⟨w', parts', hf, hw, -⟩ | ⟨-, hf⟩
    · rw [hf] at h
      cases h
    · rw [hf] at h
      cases h
      exact hmem (List.mem_append_left _ (List.mem_append_right _ hw))
    · rw [hf] at h
      cases h
      unfold helperName
      cases hlook : bpfHelperFuncs.lookup f with
      | some w' =>
          have hw' : w' ∈ bpfHelperFuncs.map Prod.snd :=
            List.mem_map.mpr ⟨(f, w'), mem_of_lookup hlook, rfl⟩
          exact hmem (List.mem_append_right _ hw')
      | none => exact ⟨'b', _, rfl, by decide⟩
  · rw [hc] at h
    cases h

/-- A callee in parentheses is printed as it is. -/
theorem callForm_parens (pos : Pos) (y : Expr) (nargs : Nat) :
    callForm prog (.paren pos y) nargs = .user := rfl

theorem typeText_single (w : Text) : typeText [w] = w := by
  simp [typeText, typePieces, joinPieces]

/-- **What is printed for a call**, as a text: a cast, the argument alone, an expansion, a
helper call, or the callee with its arguments. -/
theorem text_of_call {args : List Expr} {s : Text}
    (h : formatExpr prog aliases (.call fn args) = .ok s) :
    (∃ cType x inner, args = [x] ∧ conversionType fn = some cType ∧
        formatExpr prog aliases x = .ok inner ∧ s = castText cType inner) ∨
      (conversionType fn = none ∧ callForm prog fn args.length ≠ .user ∧
        ((∃ x, args = [x] ∧ formatExpr prog aliases x = .ok s) ∨
          (∃ f, bpfFunction prog fn = some f ∧ f ∈ sugarFuncs) ∨
          (∃ c rest, s = c :: rest ∧ c ≠ '('))) ∨
      (conversionType fn = none ∧ bpfFunction prog fn = none ∧ ∃ f as,
        exprTree prog aliases fn = .ok f ∧ sequence (nodeTrees prog aliases args) = .ok as ∧
          s = render f ++ "(" ++ renderArgs as ++ ")") := by
  obtain ⟨t, ht, rfl⟩ := exprTree_of_formatExpr h
  have hprints := callTree_prints ht
  rw [length_nodeTrees] at hprints
  have hone : ∀ {a : CTree}, nodeTrees prog aliases args = [.ok a] →
      ∃ x, args = [x] ∧ formatExpr prog aliases x = .ok (render a) := by
    intro a ha
    match args, ha with
    | [x], ha =>
        have hx : exprTree prog aliases x = .ok a := (List.cons.inj ha).1
        exact ⟨x, rfl, by rw [formatExpr_eq, hx]; rfl⟩
    | _ :: _ :: _, ha => cases (List.cons.inj ha).2
  -- only the form of a user call prints the callee itself
  rcases @callForm_cases prog fn args.length with ⟨c, hc, hform⟩ | ⟨hu, hform⟩ |
      ⟨form, hm, hform⟩ | ⟨f, -, hf, hform⟩ | ⟨-, hf, hform⟩
  · rw [hform] at hprints
    obtain ⟨a, ha, rfl⟩ := hprints
    obtain ⟨x, rfl, hx⟩ := hone ha
    refine .inl ⟨c, x, _, rfl, hc, hx, ?_⟩
    simp [render, typeText_single, castText]
  · have hnone : conversionType fn = none := by
      cases fn with
      | ident id => cases hu
      | _ => rfl
    rw [hform] at hprints
    obtain ⟨x, rfl, hx⟩ := hone hprints
    exact .inr (.inl ⟨hnone, by rw [hform]; simp, .inl ⟨x, rfl, hx⟩⟩)
  · obtain ⟨m, w, parts, hm', rfl, -⟩ := methodForm_some hm
    have hnone : conversionType fn = none := by
      cases fn with
      | ident id => cases hm'
      | _ => rfl
    obtain ⟨c, rest, rfl, hc⟩ := head_helper hform
    refine .inr (.inl ⟨hnone, by rw [hform]; simp, .inr (.inr ?_)⟩)
    rw [hform] at hprints
    obtain ⟨as, -, rfl⟩ := hprints
    exact ⟨c, _, rfl, hc⟩
  · have hnone : conversionType fn = none := by
      cases fn with
      | ident id => cases hf
      | _ => rfl
    refine .inr (.inl ⟨hnone, ?_, .inr ?_⟩)
    · rw [hform]
      unfold bpfForm
      split_ifs <;> simp
    · by_cases hsugar : f ∈ sugarFuncs
      · exact .inl ⟨f, hf, hsugar⟩
      · right
        rcases @bpfForm_cases args.length f with ⟨hs, -⟩ | ⟨w, parts, -, -, hs, -⟩ | ⟨-, hbpf⟩
        · exact absurd hs hsugar
        · exact absurd hs hsugar
        · rw [hbpf] at hform
          obtain ⟨c, rest, hw, hc⟩ := head_helper hform
          rw [hform] at hprints
          obtain ⟨as, -, rfl⟩ := hprints
          refine ⟨c, rest ++ "(" ++ renderArgs as ++ ")", ?_, hc⟩
          simp [render, name, hw]
  · rw [hform] at hprints
    obtain ⟨g, as, hg, has, rfl⟩ := hprints
    have hnone : conversionType fn = none := by
      cases hconv : conversionType fn with
      | none => rfl
      | some c =>
          unfold callForm at hform
          rw [hconv] at hform
          cases hform
    exact .inr (.inr ⟨hnone, hf, g, as, hg, has, rfl⟩)

/-! ## Casts and callees -/

theorem castText_inj {c c' inner : Text} (h : castText c inner = castText c' inner) : c = c' := by
  unfold castText at h
  have h' := List.append_cancel_right (List.append_cancel_right (List.append_cancel_right h))
  exact List.append_cancel_left h'

theorem castText_head (c inner : Text) : (castText c inner).head? = some '(' := rfl

/-- The C types that are one word. -/
def wordTypes : List Text :=
  ["bool", "__s8", "__s16", "__s32", "__s64", "__u8", "__u16", "__u32", "__u64", "int", "void"]

/-- The C type of a Go type is one of the words, or has a blank in it; it begins with no
parenthesis and no star, and ends with a bracket only if the name of the type does. -/
theorem goTypeToC_word {T : GoType} {cType : Text} (h : goTypeToC T = .ok cType) :
    (cType ∈ wordTypes ∨ ' ' ∈ cType) ∧ cType.head? ≠ some '(' ∧ cType.head? ≠ some '*' ∧
      ((∀ n targs, T = .named n targs → IsWord n.name) → cType.getLast? ≠ some ']') := by
  cases T with
  | basic b =>
      rw [goTypeToC] at h
      unfold basicToC at h
      split at h <;> cases h <;> exact ⟨by decide, by decide, by decide, fun _ => by decide⟩
  | pointer elem =>
      obtain ⟨base, hbase, h⟩ := bind_ok h
      cases h
      have hword := goTypeToC_word hbase
      refine ⟨.inr (by simp), ?_, ?_, fun _ => by simp⟩
      · cases base with
        | nil => decide
        | cons c rest => exact hword.2.1
      · cases base with
        | nil => decide
        | cons c rest => exact hword.2.2.1
  | named n targs =>
      cases h
      have htable : ∀ row ∈ bpfPackageTypes, (row.2.cType ∈ wordTypes ∨ ' ' ∈ row.2.cType) ∧
          row.2.cType.head? ≠ some '(' ∧ row.2.cType.head? ≠ some '*' ∧
          row.2.cType.getLast? ≠ some ']' := by decide
      unfold namedToC
      cases hinfo : bpfPackageTypeInfo n with
      | some info =>
          unfold bpfPackageTypeInfo at hinfo
          split at hinfo
          · obtain ⟨l₁, l₂, hrows, -⟩ := List.lookup_eq_some_iff.mp hinfo
            obtain ⟨hword, hopen, hstar, hlast⟩ := htable (n.name, info) (by rw [hrows]; simp)
            exact ⟨hword, hopen, hstar, fun _ => hlast⟩
          · cases hinfo
      | none =>
          refine ⟨.inr (List.mem_append_left _ (by decide)), by simp, by simp, fun hname => ?_⟩
          obtain ⟨hne, hchars⟩ := hname n targs rfl
          dsimp only
          rw [List.getLast?_append_of_ne_nil _ hne]
          exact fun hlast => (hchars ']' (List.mem_of_getLast? hlast)).2.2.2 rfl
  | _ => cases h

/-- An identifier that is no variable and no constant is printed by its name. -/
theorem render_plainIdent {id : Ident} {obj : Obj} (hfacts : CalleeFacts prog aliases fn)
    (huses : prog.info.uses id = some obj) (hvar : obj.kind ≠ .var)
    (hconst : ∀ val, obj.kind ≠ .const val) : render (identTree prog aliases id) = id.name := by
  have hplain := hfacts.plain id obj huses hvar
  unfold identTree
  rw [huses]
  dsimp only
  rw [hplain]
  dsimp only
  cases hkind : obj.kind with
  | const val => exact absurd hkind (hconst val)
  | _ => rfl

/-- The name of a type is printed as it is. -/
theorem render_typeName {id : Ident} (hfacts : CalleeFacts prog aliases fn)
    (htype : isTypeExpr prog (.ident id) = true) : render (identTree prog aliases id) = id.name := by
  rw [isTypeExpr] at htype
  cases huses : prog.info.uses id with
  | none =>
      rw [huses] at htype
      cases htype
  | some obj =>
      rw [huses] at htype
      have hkind : obj.kind = .typeName := eq_of_beq htype
      exact render_plainIdent hfacts huses (by rw [hkind]; simp) (by rw [hkind]; simp)

/-- A qualified type is printed with a dot. -/
theorem render_package {pkg sel : Ident} {b : CTree} (hfacts : CalleeFacts prog aliases fn)
    (htype : isTypeExpr prog (.selector (.ident pkg) sel) = true)
    (hb : exprTree prog aliases (.ident pkg) = .ok b) :
    render b = pkg.name ∧ memberAccess prog (.ident pkg) sel = (['.'], sel.name) := by
  cases hb
  rw [isTypeExpr, Bool.and_eq_true] at htype
  obtain ⟨hpkg, -⟩ := htype
  cases huses : prog.info.uses pkg with
  | none =>
      rw [huses] at hpkg
      cases hpkg
  | some obj =>
      obtain ⟨decl, kind, ty⟩ := obj
      rw [huses] at hpkg
      cases kind with
      | pkgName path =>
          refine ⟨render_plainIdent hfacts huses (by simp) (by simp), ?_⟩
          unfold memberAccess
          rcases hfacts.package pkg _ path huses rfl with h | h <;> rw [h]
      | _ => cases hpkg

/-- A type is printed like its C type only if it is an identifier. -/
theorem render_ne_cType {y : Expr} {g : CTree} {T : GoType} {cType : Text}
    (hwords : ∀ id, Node.expr (.ident id) ∈ inspectExpr y → IsWord id.name)
    (hfacts : CalleeFacts prog aliases fn) (htype : isTypeExpr prog y = true)
    (hT : prog.info.typeOf fn = some T) (hC : goTypeToC T = .ok cType)
    (hg : exprTree prog aliases y = .ok g) (hy : ∀ id, y ≠ .ident id) : render g ≠ cType := by
  obtain ⟨hword, hopen, hstar, hlast⟩ := goTypeToC_word hC
  rintro rfl
  cases y with
  | ident id => exact hy id rfl
  | selector x sel =>
      cases x with
      | ident pkg =>
          have hconst : ∀ row ∈ bpfConstants, row.2 ∉ wordTypes ∧ ' ' ∉ row.2 := by decide
          rcases selectorTree_ok hg with ⟨c, hc, rfl⟩ | ⟨-, b, hb, rfl⟩
          · unfold bpfConstant at hc
            split_ifs at hc
            have hrow := hconst _ (mem_of_lookup hc)
            rw [render_numberTree] at hword
            exact hword.elim hrow.1 hrow.2
          · have hdot : ∀ w ∈ wordTypes, '.' ∉ w := by decide
            obtain ⟨hname, haccess⟩ := render_package hfacts htype hb
            rw [haccess, render_memberTree, hname] at hword
            have hpkg := hwords pkg (by simp [inspectExpr])
            have hsel := hwords sel (by simp [inspectExpr])
            rcases hword with hword | hblank
            · exact hdot _ hword (by simp)
            · rcases List.mem_append.mp hblank with hblank | hblank
              · rcases List.mem_append.mp hblank with hblank | hblank
                · exact (hpkg.2 _ hblank).1 rfl
                · cases List.mem_singleton.mp hblank
              · exact (hsel.2 _ hblank).1 rfl
      | _ => cases htype
  | paren pos z =>
      obtain ⟨inner, -, hg⟩ := bind_ok hg
      cases hg
      exact hopen rfl
  | star pos z =>
      obtain ⟨inner, -, hg⟩ := bind_ok hg
      cases hg
      exact hstar rfl
  | index x i =>
      obtain ⟨b, -, hg⟩ := bind_ok hg
      obtain ⟨j, -, hg⟩ := bind_ok hg
      cases hg
      refine hlast (fun n targs hn => hfacts.typeName n targs (hn ▸ hT)) ?_
      rw [render, List.getLast?_append_of_ne_nil _ (by decide)]
      rfl
  | other kind pos children => cases hg
  | _ => cases htype

/-- The text of a type in the place of a callee is its C type in parentheses only if it is
that identifier in parentheses. -/
theorem render_typeExpr {f : CTree} {T : GoType} {cType : Text}
    (hfacts : CalleeFacts prog aliases fn) (htype : isTypeExpr prog fn = true)
    (hT : prog.info.typeOf fn = some T) (hC : goTypeToC T = .ok cType)
    (hbpf : bpfFunction prog fn = none) (hf : exprTree prog aliases fn = .ok f) :
    render f = "(" ++ cType ++ ")" ↔ ∃ pos id, fn = .paren pos (.ident id) ∧ id.name = cType := by
  have hlast : ("(" ++ cType ++ ")" : Text).getLast? = some ')' := by
    rw [List.getLast?_append_of_ne_nil _ (by decide)]
    rfl
  -- the text of a cast starts with a parenthesis and ends with one
  cases fn with
  | ident id =>
      have hword := (hfacts.words id (by simp [inspectExpr])).2
      cases hf
      constructor
      · intro h
        rw [render_typeName hfacts htype] at h
        exact absurd rfl (hword '(' (by rw [h]; simp)).2.1
      · rintro ⟨pos, y, heq, -⟩
        cases heq
  | selector x sel =>
      have hword := hfacts.words sel (by simp [inspectExpr])
      constructor
      · intro h
        exfalso
        cases x with
        | ident pkg =>
            rcases selectorTree_ok hf with ⟨c, hc, -⟩ | ⟨hc, b, hb, rfl⟩
            · unfold bpfConstant at hc
              split at hc
              · rename_i hpkg
                rw [bpfFunction, if_pos hpkg] at hbpf
                cases hbpf
              · cases hc
            · rw [(render_package hfacts htype hb).2, render_memberTree] at h
              have hend := congrArg List.getLast? h
              rw [hlast, List.getLast?_append_of_ne_nil _ hword.1] at hend
              exact absurd rfl (hword.2 ')' (List.mem_of_getLast? hend)).2.2.1
        | _ => cases htype
      · rintro ⟨pos, y, heq, -⟩
        cases heq
  | paren pos y =>
      obtain ⟨inner, hinner, hf⟩ := bind_ok hf
      cases hf
      have hparens : render (.paren inner) = "(" ++ cType ++ ")" ↔ render inner = cType := by
        constructor
        · exact fun h => List.append_cancel_left (List.append_cancel_right h)
        · rintro rfl
          rfl
      rw [hparens]
      -- under the parentheses only a name is a single word
      by_cases hy : ∃ id, y = .ident id
      · obtain ⟨id, rfl⟩ := hy
        cases hinner
        rw [render_typeName hfacts htype]
        constructor
        · exact fun h => ⟨pos, id, rfl, h⟩
        · rintro ⟨pos', id', heq, h⟩
          cases heq
          exact h
      · have hne := @render_ne_cType prog aliases _ y inner T cType
          (fun id hid => hfacts.words id (List.mem_cons_of_mem _ hid)) hfacts htype hT hC hinner
          fun id heq => hy ⟨id, heq⟩
        refine iff_of_false hne ?_
        rintro ⟨pos', id', heq, -⟩
        cases heq
        exact hy ⟨id', rfl⟩
  | star pos y =>
      obtain ⟨inner, hinner, hf⟩ := bind_ok hf
      cases hf
      constructor
      · intro h
        cases congrArg List.head? h
      · rintro ⟨pos, y, heq, -⟩
        cases heq
  | index x i =>
      obtain ⟨b, hb, hf⟩ := bind_ok hf
      obtain ⟨j, hj, hf⟩ := bind_ok hf
      cases hf
      constructor
      · intro h
        have hend := congrArg List.getLast? h
        rw [hlast, render, List.getLast?_append_of_ne_nil _ (by decide)] at hend
        cases hend
      · rintro ⟨pos, y, heq, -⟩
        cases heq
  | other kind pos children => cases hf
  | _ => cases htype

/-- A function of the file is printed by its name. -/
theorem render_userCallee {id id' : Ident} (hfacts : CalleeFacts prog aliases fn)
    (h : userCallee prog (.ident id') = some id) :
    render (identTree prog aliases id') = id'.name := by
  rw [userCallee] at h
  cases huses : prog.info.uses id' with
  | none =>
      rw [huses] at h
      cases h
  | some obj =>
      rw [huses] at h
      dsimp only at h
      split at h
      · rename_i hkind
        exact render_plainIdent hfacts huses (by rw [hkind]; simp) (by rw [hkind]; simp)
      · cases h

/-- A type word is not empty and contains no parentheses. -/
theorem typeWord_plain {w : Text} (h : isTypeWord w = true) :
    w ≠ [] ∧ '(' ∉ w ∧ ')' ∉ w := by
  have hall : ∀ w ∈ typeKeywords ++ typedefNames, w ≠ [] ∧ '(' ∉ w ∧ ')' ∉ w := by decide
  refine hall w ?_
  unfold isTypeWord at h
  rw [Bool.or_eq_true, decide_eq_true_eq, decide_eq_true_eq] at h
  exact List.mem_append.mpr h

/-- A text is cut at its first closing parenthesis in one way. -/
theorem eq_of_closing {v w r r' : Text} (hv : ')' ∉ v) (hw : ')' ∉ w)
    (h : v ++ ')' :: r = w ++ ')' :: r') : v = w := by
  induction v generalizing w with
  | nil =>
      cases w with
      | nil => rfl
      | cons c w =>
          cases (List.cons.inj h).1
          exact absurd List.mem_cons_self hw
  | cons d v ih =>
      cases w with
      | nil =>
          cases (List.cons.inj h).1
          exact absurd List.mem_cons_self hv
      | cons c w =>
          obtain ⟨hdc, hrest⟩ := List.cons.inj h
          rw [hdc, ih (fun hm => hv (List.mem_cons_of_mem _ hm))
            (fun hm => hw (List.mem_cons_of_mem _ hm)) hrest]

/-- A name in parentheses before an argument list has the form of a cast if it is that of a
type. -/
theorem looksLikeCast_name {v inner : Text} (hv : ')' ∉ v) :
    LooksLikeCast ("(" ++ v ++ ")" ++ "(" ++ inner ++ ")") ↔ isTypeWord v = true := by
  constructor
  · rintro ⟨w, inner', hw, h⟩
    have hplain := (typeWord_plain hw).2.2
    have hsplit : v ++ ')' :: ('(' :: (inner ++ [')'])) = w ++ ')' :: ('(' :: (inner' ++ [')'])) := by
      simpa [castText] using h
    rw [eq_of_closing hv hplain hsplit]
    exact hw
  · intro hw
    exact ⟨v, inner, hw, by simp [castText]⟩

/-- A call of a function of the file. -/
theorem looksLikeCast_userCall {args : List Expr} {s : Text} {id : Ident}
    (hfacts : CalleeFacts prog aliases fn) (hid : userCallee prog fn = some id)
    (h : formatExpr prog aliases (.call fn args) = .ok s) :
    ¬ LooksLikeCast s ↔ NotTypeNamed fn := by
  have htable : ∀ row ∈ goBasicNameToC, isTypeWord row.2 = true := by decide
  rcases text_of_call h with ⟨c, x, inner, -, hconv, -, rfl⟩ | ⟨hconv, hform, -⟩ |
      ⟨hconv, -, f, as, hf, -, rfl⟩
  · -- named like a type of the table
    have hword : isTypeWord c = true := by
      cases fn with
      | ident id' => exact htable _ (mem_of_lookup hconv)
      | _ => cases hconv
    refine iff_of_false (fun hnot => hnot ⟨c, inner, hword, rfl⟩) ?_
    rintro ⟨hnone, -⟩
    rw [hconv] at hnone
    cases hnone
  · -- any other form is that of a selector
    exfalso
    cases fn with
    | ident id' =>
        unfold callForm at hform
        rw [hconv] at hform
        exact hform rfl
    | paren pos y => exact hform rfl
    | _ => cases hid
  · cases fn with
    | ident id' =>
        have hword := hfacts.words id' (by simp [inspectExpr])
        cases hf
        rw [render_userCallee hfacts hid]
        refine iff_of_true ?_ ⟨hconv, fun pos id heq => by cases heq⟩
        rintro ⟨w, inner, -, hs⟩
        -- a name does not start with a parenthesis
        have hhead := congrArg List.head? hs
        rw [castText_head, List.append_assoc, List.append_assoc,
          List.head?_append_of_ne_nil _ hword.1] at hhead
        exact absurd rfl (hword.2 '(' (List.mem_of_mem_head? hhead)).2.1
    | paren pos y =>
        obtain ⟨g, hg, hf⟩ := bind_ok hf
        cases hf
        rw [render]
        cases y with
        | ident id' =>
            have hword := hfacts.words id' (by simp [inspectExpr])
            cases hg
            rw [render_userCallee hfacts hid,
              looksLikeCast_name fun hmem => (hword.2 _ hmem).2.2.1 rfl, Bool.not_eq_true]
            constructor
            · intro hnot
              refine ⟨rfl, fun pos' id'' heq => ?_⟩
              cases heq
              exact hnot
            · rintro ⟨-, hnot⟩
              exact hnot pos id' rfl
        | paren pos' z =>
            obtain ⟨g', hg', hg⟩ := bind_ok hg
            cases hg
            refine iff_of_true ?_ ⟨rfl, fun pos'' id'' heq => by cases heq⟩
            rintro ⟨w, inner, hw, hs⟩
            obtain ⟨hne, hopen, -⟩ := typeWord_plain hw
            cases w with
            | nil => exact hne rfl
            | cons c w =>
                -- two opening parentheses are no cast
                have hc := congrArg (fun l : Text => l[1]?) hs
                have hc' : some '(' = some c := hc
                cases hc'
                exact hopen List.mem_cons_self
        | _ => cases hid
    | _ => cases hid

/-- A conversion. -/
theorem cast_iff_spelledAs {x : Expr} {T : GoType} {cType s : Text}
    (hfacts : CalleeFacts prog aliases fn) (htype : isTypeExpr prog fn = true)
    (hT : prog.info.typeOf fn = some T) (hC : goTypeToC T = .ok cType) (h : formatExpr prog aliases (.call fn [x]) = .ok s) :
    (∃ inner, formatExpr prog aliases x = .ok inner ∧ s = castText cType inner) ↔
      SpelledAs fn cType := by
  rcases text_of_call h with ⟨c, x', inner, hx', hconv, hinner, rfl⟩ | ⟨hconv, hform, hrest⟩ |
      ⟨hconv, hbpf, f, as, hf, has, rfl⟩
  · cases hx'
    constructor
    · rintro ⟨inner', hinner', heq⟩
      rw [hinner] at hinner'
      cases hinner'
      left
      rw [hconv, castText_inj heq]
    · rintro (hc | ⟨pos, id, rfl, -⟩)
      · rw [hconv] at hc
        cases hc
        exact ⟨inner, hinner, rfl⟩
      · cases hconv
  · refine iff_of_false ?_ ?_
    · rintro ⟨inner, hinner, heq⟩
      rcases hrest with ⟨x', hx', hs⟩ | ⟨f, hf, hsugar⟩ | ⟨c, rest, hs, hc⟩
      · cases hx'
        rw [hinner] at hs
        cases hs
        -- a call that prints its argument alone is shorter than the cast
        have hlen := congrArg List.length heq
        simp [castText] at hlen
        omega
      · exact hfacts.sugar htype f hf hsugar
      · rw [hs] at heq
        exact hc (List.cons.inj heq).1
    · rintro (hc | ⟨pos, id, rfl, -⟩)
      · rw [hconv] at hc
        cases hc
      · exact hform (callForm_parens pos (.ident id) _)
  · rw [nodeTrees] at has
    obtain ⟨a, as', ha, has', rfl⟩ := sequence_ok_cons.mp has
    cases has'
    have hx : formatExpr prog aliases x = .ok (render a) := by
      rw [formatExpr_eq, show exprTree prog aliases x = .ok a from ha]
      rfl
    have hargs : renderArgs [a] = render a := rfl
    rw [hargs]
    have hcallee := render_typeExpr hfacts htype hT hC hbpf hf
    constructor
    · rintro ⟨inner, hinner, heq⟩
      rw [hx] at hinner
      cases hinner
      refine .inr (hcallee.mp ?_)
      have heq' : render f ++ ("(" ++ render a ++ ")") =
          "(" ++ cType ++ ")" ++ ("(" ++ render a ++ ")") := by
        simpa [castText] using heq
      exact List.append_cancel_right heq'
    · rintro (hc | hspelled)
      · rw [hconv] at hc
        cases hc
      · refine ⟨render a, hx, ?_⟩
        rw [hcallee.mpr hspelled]
        simp [castText]

/-- **A conversion is printed as a cast to its C type exactly when it is spelled so that the
table has it, and a call of a function is not printed as a cast exactly when the function is
not named like a type.** -/
theorem conversion_cast_iff {args : List Expr} {s : Text} (hfacts : CalleeFacts prog aliases fn)
    (h : formatExpr prog aliases (.call fn args) = .ok s) :
    (∀ x T cType, args = [x] → isTypeExpr prog fn = true → prog.info.typeOf fn = some T →
        T ≠ .basic .unsafePointer → goTypeToC T = .ok cType →
        ((∃ inner, formatExpr prog aliases x = .ok inner ∧ s = castText cType inner) ↔
          SpelledAs fn cType)) ∧
      ∀ id, userCallee prog fn = some id → (¬ LooksLikeCast s ↔ NotTypeNamed fn) := by
  refine ⟨?_, ?_⟩
  · rintro x T cType rfl htype hT - hC
    exact cast_iff_spelledAs hfacts htype hT hC h
  · intro id hid
    exact looksLikeCast_userCall hfacts hid h

end

/-! ## A type under its other name -/

/-- `byte` and `uint8` are types, `bpf` is the package, and every other identifier is a
variable. -/
def byteInfo : Info where
  uses := fun id =>
    if id.name = "byte" ∨ id.name = "uint8" ∨ id.name = "XdpAction" then
      some ⟨⟨id.name, 0⟩, .typeName, .basic .uint8⟩
    else if id.name = "bpf" then some ⟨⟨"bpf", 1⟩, .pkgName bpfPkgPath, .basic .invalid⟩
    else some ⟨⟨id.name, 1⟩, .var, .basic .uint32⟩
  defs := []
  typeOf := fun e =>
    match e with
    | .ident id =>
        if id.name = "byte" ∨ id.name = "uint8" then some (.basic .uint8)
        else if id.name = "bpf" then some (.basic .invalid)
        else some (.basic .uint32)
    | .selector _ _ => some (.named ⟨some bpfPkgPath, "XdpAction"⟩ [])
    | _ => some (.basic .uint32)
  underlying := fun _ _ => .basic .int32

/-- `byte(x)` and `bpf.XdpAction(x)` are printed as calls. -/
theorem byteConversion_called :
    (formatExpr (emptyProgram byteInfo) [] (.call (.ident ⟨"byte", 10⟩) [var 'x' 15]) =
        .ok "byte(x)" ∧
      isTypeExpr (emptyProgram byteInfo) (.ident ⟨"byte", 10⟩) = true ∧
      goTypeToC (.basic .uint8) = .ok "__u8" ∧
      ¬ ∃ inner, formatExpr (emptyProgram byteInfo) [] (var 'x' 15) = .ok inner ∧
        "byte(x)" = castText "__u8" inner) ∧
    (formatExpr (emptyProgram byteInfo) []
        (.call (.selector (.ident ⟨"bpf", 10⟩) ⟨"XdpAction", 14⟩) [var 'x' 24]) =
        .ok "bpf_xdp_action(x)" ∧
      isTypeExpr (emptyProgram byteInfo)
        (.selector (.ident ⟨"bpf", 10⟩) ⟨"XdpAction", 14⟩) = true ∧
      goTypeToC (.named ⟨some bpfPkgPath, "XdpAction"⟩ []) = .ok "int" ∧
      ¬ ∃ inner, formatExpr (emptyProgram byteInfo) [] (var 'x' 24) = .ok inner ∧
        "bpf_xdp_action(x)" = castText "int" inner) := by
  refine ⟨⟨rfl, rfl, rfl, ?_⟩, ⟨rfl, rfl, rfl, ?_⟩⟩
  · rintro ⟨inner, -, h⟩
    cases (List.cons.inj h).1
  · rintro ⟨inner, -, h⟩
    cases (List.cons.inj h).1

/-- `uint8(x)` is printed as a cast. -/
theorem uint8Conversion_cast :
    ∃ inner, formatExpr (emptyProgram byteInfo) [] (var 'x' 16) = .ok inner ∧
      "(__u8)(x)" = castText "__u8" inner := by
  have hfacts : CalleeFacts (emptyProgram byteInfo) [] (.ident ⟨"uint8", 10⟩) := by
    refine ⟨?_, ?_, fun _ _ _ _ => rfl, ?_, fun _ f hf => by cases hf⟩
    · intro id hid
      simp only [inspectExpr, List.mem_singleton, Node.expr.injEq, Expr.ident.injEq] at hid
      subst hid
      exact ⟨by decide, by simp⟩
    · intro n targs hn
      cases hn
    · intro id obj path huses hkind
      by_cases hname : id.name = "bpf"
      · right
        show (if id.name = "byte" ∨ id.name = "uint8" then some (GoType.basic .uint8)
          else if id.name = "bpf" then some (.basic .invalid) else some (.basic .uint32)) = _
        rw [hname, if_neg (by decide), if_pos rfl]
      · have hobj : obj.kind = .typeName ∨ obj.kind = .var := by
          change (if id.name = "byte" ∨ id.name = "uint8" ∨ id.name = "XdpAction" then _
            else if id.name = "bpf" then _ else _) = some obj at huses
          rw [if_neg hname] at huses
          split at huses
          · cases huses
            exact .inl rfl
          · cases huses
            exact .inr rfl
        rw [hkind] at hobj
        simp at hobj
  exact ((conversion_cast_iff hfacts rfl).1 (var 'x' 16) (.basic .uint8) "__u8" rfl rfl rfl
    (by simp) rfl).mpr (.inl rfl)

end Gobee
