/-
# The text of a program whose imports are renamed

Two runs of `Emit`, on a program and on the program with its imports renamed, go through the
same steps.  The texts they write agree as long as no printed expression shows the name of
an import; and where one does, the text becomes as long as the new name.

* `Grown` : a text stays the same, or becomes long;
* `grown_exprTree` : **the text of an expression stays the same, unless a printed expression
  shows the name of an import.**
-/
import Gobee.ImportNames

namespace Gobee

open CSyntax
open CSyntax.CExpr (render)

/-! ## Texts that stay the same or become long -/

/-- The second text is the first one if the condition holds, and long otherwise. -/
structure Grown (L : Nat) (c : Prop) (s s' : Text) : Prop where
  same : c → s' = s
  long : ¬ c → L ≤ s'.length

section

variable {L : Nat} {c d : Prop} {s s' t t' : Text}

theorem Grown.refl (s : Text) : Grown L True s s := ⟨fun _ => rfl, fun h => absurd trivial h⟩

theorem Grown.of_iff (h : Grown L c s s') (hcd : d ↔ c) : Grown L d s s' :=
  ⟨fun hd => h.same (hcd.mp hd), fun hd => h.long fun hc => hd (hcd.mpr hc)⟩

theorem Grown.append (hs : Grown L c s s') (ht : Grown L d t t') :
    Grown L (c ∧ d) (s ++ t) (s' ++ t') := by
  refine ⟨fun h => by rw [hs.same h.1, ht.same h.2], fun h => ?_⟩
  rw [List.length_append]
  by_cases hc : c
  · have hlong := ht.long fun hd => h ⟨hc, hd⟩
    omega
  · have hlong := hs.long hc
    omega

theorem Grown.after (pre : Text) (h : Grown L c s s') : Grown L c (pre ++ s) (pre ++ s') :=
  ((Grown.refl pre).append h).of_iff (iff_of_eq (true_and c)).symm

theorem Grown.before (post : Text) (h : Grown L c s s') : Grown L c (s ++ post) (s' ++ post) :=
  (h.append (Grown.refl post)).of_iff (iff_of_eq (and_true c)).symm

/-- The same for lists of texts. -/
structure AllGrown (L : Nat) (c : Prop) (ss ss' : List Text) : Prop where
  same : c → ss' = ss
  long : ¬ c → ∃ s' ∈ ss', L ≤ s'.length

theorem AllGrown.nil : AllGrown L True [] [] := ⟨fun _ => rfl, fun h => absurd trivial h⟩

theorem AllGrown.cons {ss ss' : List Text} (hs : Grown L c s s') (hss : AllGrown L d ss ss') :
    AllGrown L (c ∧ d) (s :: ss) (s' :: ss') := by
  refine ⟨fun h => by rw [hs.same h.1, hss.same h.2], fun h => ?_⟩
  by_cases hc : c
  · obtain ⟨u, hu, hlong⟩ := hss.long fun hd => h ⟨hc, hd⟩
    exact ⟨u, List.mem_cons_of_mem _ hu, hlong⟩
  · exact ⟨s', List.mem_cons_self, hs.long hc⟩

theorem AllGrown.of_iff {ss ss' : List Text} (h : AllGrown L c ss ss') (hcd : d ↔ c) :
    AllGrown L d ss ss' :=
  ⟨fun hd => h.same (hcd.mp hd), fun hd => h.long fun hc => hd (hcd.mpr hc)⟩

theorem length_le_join {sep : Text} {ss : List Text} (hs : s ∈ ss) :
    s.length ≤ (join sep ss).length := by
  induction ss with
  | nil => cases hs
  | cons a rest ih =>
      cases rest with
      | nil =>
          rw [List.mem_singleton.mp hs]
          rfl
      | cons b rest =>
          rw [join, List.length_append, List.length_append]
          rcases List.mem_cons.mp hs with rfl | hs
          · omega
          · have hle := ih hs
            omega

theorem AllGrown.join {sep : Text} {ss ss' : List Text} (h : AllGrown L c ss ss') :
    Grown L c (join sep ss) (Gobee.join sep ss') := by
  refine ⟨fun hc => by rw [h.same hc], fun hc => ?_⟩
  obtain ⟨u, hu, hlong⟩ := h.long hc
  exact le_trans hlong (length_le_join hu)

/-- The texts of two lists of the same length, one by one. -/
theorem AllGrown.of_get {C : Nat → Prop} {ss ss' : List Text} (hlen : ss'.length = ss.length)
    (hget : ∀ i (hi : i < ss.length) (hi' : i < ss'.length), Grown L (C i) ss[i] ss'[i]) :
    AllGrown L (∀ i < ss.length, C i) ss ss' := by
  refine ⟨fun hC => List.ext_getElem hlen fun i hi' hi => (hget i hi hi').same (hC i hi), ?_⟩
  intro hC
  obtain ⟨i, hi, hCi⟩ := not_forall₂.mp hC
  have hi' : i < ss'.length := hlen ▸ hi
  exact ⟨ss'[i], List.getElem_mem hi', (hget i hi hi').long hCi⟩

end

/-! ## Names -/

/-- The aliases of the renamed program. -/
def movedAliases (move : Pos → Pos) (aliases : Aliases) : Aliases :=
  aliases.map fun a => (a.1.moved move, a.2)

/-- The names of the renamed program. -/
def Names.moved (move : Pos → Pos) (n : Names) : Names := ⟨movedAliases move n.aliases, n.tmpSeq⟩

/-- No import has an alias. -/
def AliasesApart (prog : Program) (aliases : Aliases) : Prop :=
  ∀ a ∈ aliases, ∀ id p, importOf prog id = some p → a.1.pos ≠ p.1.pos

theorem lookup_of_pos {aliases : Aliases} {d : Ident} (h : ∀ a ∈ aliases, a.1.pos ≠ d.pos) :
    aliases.lookup d = none := by
  rw [List.lookup_eq_none_iff]
  intro a ha
  rw [bne_iff_ne]
  intro heq
  exact h a ha (by rw [heq])

theorem moved_injective {move : Pos → Pos} (hmove : Function.Injective move) :
    Function.Injective (Ident.moved move) := by
  intro a b h
  obtain ⟨hname, hpos⟩ := Ident.mk.inj h
  cases a
  cases b
  rw [Ident.mk.injEq]
  exact ⟨hname, hmove hpos⟩

theorem lookup_moved {move : Pos → Pos} (hmove : Function.Injective move) (aliases : Aliases)
    (d : Ident) : (movedAliases move aliases).lookup (d.moved move) = aliases.lookup d := by
  induction aliases with
  | nil => rfl
  | cons a rest ih =>
      have hcons : movedAliases move (a :: rest) =
          (a.1.moved move, a.2) :: movedAliases move rest := rfl
      rw [hcons, List.lookup_cons, List.lookup_cons, ih,
        (moved_injective hmove).beq_eq]

/-- The program and the renamed one, whose imports have long names (or any names, if no
length is asked for). -/
structure Lockstep (tables : UnicodeTables) (ren : Ident → Text) (move : Pos → Pos) (L : Nat)
    (prog prog' : Program) : Prop where
  renamed : ImportsRenamed tables ren move prog prog'
  facts : ImportFacts prog
  long : ∀ id p, .expr (.ident id) ∈ sourceNodes prog → importOf prog id = some p →
    L ≤ (ren p.1).length
  /-- the spelling `unsafe` is not asked for -/
  bound : L = 0 ∨ 6 < L

/-! ## Identifiers -/

section

variable {tables : UnicodeTables} {ren : Ident → Text} {move : Pos → Pos} {L : Nat}
  {prog prog' : Program} {aliases : Aliases}

theorem formatIdent_import {id : Ident} {p : Ident × Text} (hid : importOf prog id = some p)
    (halias : aliases.lookup p.1 = none) : formatIdent prog aliases id = id.name := by
  obtain ⟨t, huses⟩ := importOf_eq_some.mp hid
  unfold formatIdent
  rw [huses]
  dsimp only
  rw [halias]

theorem formatIdent_renamed (h : ImportsRenamed tables ren move prog prog') {id : Ident}
    (hmem : .expr (.ident id) ∈ sourceNodes prog) (hid : importOf prog id = none) :
    formatIdent prog' (movedAliases move aliases) ((importRenaming prog ren move).ident id) =
      formatIdent prog aliases id := by
  have hname := @name_renamed ren move _ _ hid
  unfold formatIdent
  rw [h.uses id hmem]
  cases huses : prog.info.uses id with
  | none => exact hname
  | some obj =>
      obtain ⟨d, kind, t⟩ := obj
      rw [Option.map_some]
      cases kind with
      | pkgName path =>
          rw [(importOf_eq_some (p := (d, path))).mpr ⟨t, huses⟩] at hid
          cases hid
      | const val =>
          simp only [Obj.renamed, lookup_moved h.apart]
      | _ =>
          simp only [Obj.renamed, lookup_moved h.apart, hname]

/-- The text of an identifier. -/
theorem grown_ident (hl : Lockstep tables ren move L prog prog')
    (haliases : AliasesApart prog aliases) {id : Ident}
    (hmem : .expr (.ident id) ∈ sourceNodes prog) :
    Grown L (importOf prog id = none) (formatIdent prog aliases id)
      (formatIdent prog' (movedAliases move aliases)
        ((importRenaming prog ren move).ident id)) := by
  refine ⟨formatIdent_renamed hl.renamed hmem, fun hid => ?_⟩
  obtain ⟨p, hp⟩ := Option.ne_none_iff_exists'.mp hid
  have hp' := importOf_renamed hl.renamed hmem
  rw [hp, Option.map_some] at hp'
  rw [formatIdent_import hp', name_import hp]
  · exact hl.long id p hmem hp
  · refine lookup_of_pos fun a ha => ?_
    obtain ⟨b, hb, rfl⟩ := List.mem_map.mp ha
    exact fun hpos => haliases b hb id p hp (hl.renamed.apart hpos)

theorem importFree_cons {e : Expr} {es : List Expr} :
    ImportFree prog (e :: es) ↔ showsImport prog e = false ∧ ImportFree prog es :=
  List.forall_mem_cons

theorem importFree_append {es ds : List Expr} :
    ImportFree prog (es ++ ds) ↔ ImportFree prog es ∧ ImportFree prog ds :=
  List.forall_mem_append

theorem importFree_nil : ImportFree prog [] ↔ True := ⟨fun _ => trivial, fun _ _ h => nomatch h⟩

theorem memberAccess_renamed (h : ImportsRenamed tables ren move prog prog')
    (hfacts : ImportFacts prog) {x : Expr} {sel : Ident}
    (hmem : .expr (.selector x sel) ∈ sourceNodes prog) :
    memberAccess prog' (x.rename (importRenaming prog ren move))
        ((importRenaming prog ren move).ident sel) = memberAccess prog x sel := by
  unfold memberAccess bpfFieldNameTag structFields
  rw [h.typeOf x (operand_mem hmem), name_renamed (hfacts.selected _ _ hmem), h.underlying]

/-! ## Calls -/

/-- The texts of the arguments, one by one. -/
def ArgsGrown (L : Nat) (C : Nat → Prop) (args args' : List (Result CTree)) : Prop :=
  ∀ i a a', argTree args i = .ok a → argTree args' i = .ok a' →
    Grown L (C i) (render a) (render a')

section

variable {C : Nat → Prop} {args args' : List (Result CTree)} {as as' : List CTree}

theorem grown_part (hargs : ArgsGrown L C args args') {part : ArgPart} {a a' : CTree}
    (ha : part.tree args = .ok a) (ha' : (part.moved move).tree args' = .ok a') :
    Grown L (∀ i, part.index = some i → C i) (render a) (render a') := by
  have hwrap : ∀ {i : Nat} {wrap : CTree → CTree} {pre post : Text},
      (∀ t, render (wrap t) = pre ++ render t ++ post) → (argTree args i).map wrap = .ok a →
      (argTree args' i).map wrap = .ok a' → Grown L (C i) (render a) (render a') := by
    intro i wrap pre post hrender hr hr'
    cases hi : argTree args i with
    | error e => rw [hi] at hr; cases hr
    | ok b =>
        cases hi' : argTree args' i with
        | error e => rw [hi'] at hr'; cases hr'
        | ok b' =>
            rw [hi] at hr
            rw [hi'] at hr'
            cases hr
            cases hr'
            rw [hrender, hrender]
            exact ((hargs i b b' hi hi').after pre).before post
  cases part with
  | word w =>
      cases ha
      cases ha'
      exact (Grown.refl _).of_iff (by simp [ArgPart.index])
  | addr id =>
      cases ha
      cases ha'
      exact (Grown.refl _).of_iff (by simp [ArgPart.index])
  | arg i => exact (hargs i a a' ha ha').of_iff (by simp [ArgPart.index])
  | sizeofArg i =>
      exact (hwrap render_sizeofDeref ha ha').of_iff (by simp [ArgPart.index])
  | castArg ty i =>
      have hcast : ∀ t : CTree, render (.cast ty t) =
          ("(" ++ typeText ty ++ ")" : Text) ++ render t ++ [] :=
        fun t => by rw [render, List.append_nil]
      exact (hwrap hcast ha ha').of_iff (by simp [ArgPart.index])

theorem allGrown_parts (hargs : ArgsGrown L C args args') {parts : List ArgPart}
    (has : sequence (parts.map (ArgPart.tree args)) = .ok as)
    (has' : sequence ((parts.map (ArgPart.moved move)).map (ArgPart.tree args')) = .ok as') :
    AllGrown L (∀ part ∈ parts, ∀ i, part.index = some i → C i) (as.map render)
      (as'.map render) := by
  induction parts generalizing as as' with
  | nil =>
      cases has
      cases has'
      exact AllGrown.nil.of_iff (by simp)
  | cons part parts ih =>
      obtain ⟨a, bs, ha, hbs, rfl⟩ := sequence_ok_cons.mp has
      obtain ⟨a', bs', ha', hbs', rfl⟩ := sequence_ok_cons.mp has'
      exact (AllGrown.cons (grown_part hargs ha ha') (ih hbs hbs')).of_iff List.forall_mem_cons

theorem allGrown_args (hargs : ArgsGrown L C args args') (hlen : args'.length = args.length)
    (has : sequence args = .ok as) (has' : sequence args' = .ok as') :
    AllGrown L (∀ i < args.length, C i) (as.map render) (as'.map render) := by
  rw [sequence_ok_iff] at has has'
  subst has has'
  rw [List.length_map, List.length_map] at hlen
  have hget : ∀ i (hi : i < (as.map render).length) (hi' : i < (as'.map render).length),
      Grown L (C i) (as.map render)[i] (as'.map render)[i] := by
    intro i hi hi'
    rw [List.length_map] at hi hi'
    rw [List.getElem_map, List.getElem_map]
    exact hargs i _ _ (by simp [argTree, hi]) (by simp [argTree, hi'])
  have hall := AllGrown.of_get (by rw [List.length_map, List.length_map, hlen]) hget
  rw [List.length_map] at hall ⊢
  exact hall

theorem grown_call {f f' : CTree} {c d : Prop} (hf : Grown L c (render f) (render f'))
    (has : AllGrown L d (as.map render) (as'.map render)) :
    Grown L (c ∧ d) (render (.call f as)) (render (.call f' as')) := by
  rw [render, render, renderArgs_eq_join, renderArgs_eq_join]
  exact ((hf.before _).append has.join).before _

theorem importFree_printedParts {form : CallForm} {fn : List Expr} {each : List (List Expr)} :
    ImportFree prog (form.printedParts fn each) ↔
      ImportFree prog (match form with
        | .user => fn
        | _ => []) ∧
      ∀ i ∈ form.used each.length, ImportFree prog ((each[i]?).getD []) := by
  unfold CallForm.printedParts
  rw [importFree_append]
  refine and_congr_right fun _ => ?_
  unfold ImportFree
  rw [List.forall_mem_flatMap]

/-- The text of a call in its form. -/
theorem grown_form {form : CallForm} {fnTree fnTree' : Result CTree} {fn : List Expr}
    {each : List (List Expr)} {t t' : CTree}
    (hfn : ∀ f f', fnTree = .ok f → fnTree' = .ok f' →
      Grown L (ImportFree prog fn) (render f) (render f'))
    (hargs : ArgsGrown L (fun i => ImportFree prog ((each[i]?).getD [])) args args')
    (hlen : args'.length = args.length) (heach : each.length = args.length)
    (ht : form.Prints fnTree args t) (ht' : (form.moved move).Prints fnTree' args' t') :
    Grown L (ImportFree prog (form.printedParts fn each)) (render t) (render t') := by
  cases form with
  | cast cType =>
      obtain ⟨a, rfl, rfl⟩ := ht
      obtain ⟨a', rfl, rfl⟩ := ht'
      have ha := hargs 0 a a' rfl rfl
      rw [render, render, render, render]
      refine (((ha.after _).before _).after _).of_iff ?_
      simp [importFree_printedParts, importFree_nil, CallForm.used]
  | bare =>
      have ha := hargs 0 t t' (by rw [show args = [.ok t] from ht]; rfl)
        (by rw [show args' = [.ok t'] from ht']; rfl)
      refine ha.of_iff ?_
      simp [importFree_printedParts, importFree_nil, CallForm.used]
  | sugar u =>
      cases ht
      cases ht'
      refine (Grown.refl _).of_iff ?_
      simp [importFree_printedParts, importFree_nil, CallForm.used]
  | helper w parts =>
      obtain ⟨as, has, rfl⟩ := ht
      obtain ⟨as', has', rfl⟩ := ht'
      refine (grown_call (Grown.refl w) (allGrown_parts hargs has has')).of_iff ?_
      simp only [importFree_printedParts, importFree_nil, CallForm.used, List.mem_filterMap,
        forall_exists_index, and_imp, true_and]
      exact ⟨fun h part hpart i hi => h i part hpart hi, fun h i part hpart hi => h part hpart i hi⟩
  | user =>
      obtain ⟨f, as, hf, has, rfl⟩ := ht
      obtain ⟨f', as', hf', has', rfl⟩ := ht'
      refine (grown_call (hfn f f' hf hf') (allGrown_args hargs hlen has has')).of_iff ?_
      rw [importFree_printedParts, heach]
      simp only [CallForm.used, List.mem_range]

/-! ## Conversions with `Pointer` -/

theorem long_of_pointer (hl : Lockstep tables ren move L prog prog')
    (haliases : AliasesApart prog aliases) {pkg sel : Ident} {p : Ident × Text} {args : List Expr}
    (hmem : .expr (.call (.selector (.ident pkg) sel) args) ∈ sourceNodes prog)
    (hpkg : importOf prog pkg = some p) (hsel : sel.name = ("Pointer" : Text)) {t' : CTree}
    (ht' : exprTree prog' (movedAliases move aliases)
      ((Expr.call (.selector (.ident pkg) sel) args).rename (importRenaming prog ren move)) =
        .ok t') : L ≤ (render t').length := by
  obtain ⟨hp, -⟩ := hl.facts.pointer pkg sel args p hmem hsel hpkg
  have hmemSel := callee_mem hmem
  have hmemPkg := operand_mem hmemSel
  have hpkg' := importOf_renamed hl.renamed hmemPkg
  rw [hpkg, Option.map_some] at hpkg'
  have htype' := hl.facts.untyped pkg p hpkg
  rw [← hl.renamed.typeOf _ hmemPkg] at htype'
  have hname : L ≤ (ren p.1).length := hl.long pkg p hmemPkg hpkg
  rcases hl.bound with rfl | hbound
  · exact Nat.zero_le _
  -- the new name is too long to be taken for `unsafe`
  have hunsafe : isUnsafePointer ((Expr.selector (.ident pkg) sel).rename
      (importRenaming prog ren move)) = false := by
    rw [Expr.rename, Expr.rename, isUnsafePointer, name_import hpkg, Bool.and_eq_false_iff]
    refine .inr ?_
    rw [beq_eq_false_iff_ne]
    intro heq
    rw [heq] at hname
    exact absurd hname (by simp; omega)
  have hprints := callTree_prints (show callTree prog'
    (.selector (.ident ((importRenaming prog ren move).ident pkg))
      ((importRenaming prog ren move).ident sel)) _ _ = .ok t' from ht')
  rw [callForm_package hpkg' hp htype', show isUnsafePointer (.selector (.ident
    ((importRenaming prog ren move).ident pkg)) ((importRenaming prog ren move).ident sel)) = false
    from hunsafe] at hprints
  obtain ⟨f, as, hf, -, rfl⟩ := hprints
  rcases selectorTree_ok hf with ⟨c, hc, -⟩ | ⟨-, b, hb, rfl⟩
  · rw [bpfConstant, Expr.rename, isBpfPackage_other hpkg' hp] at hc
    cases hc
  · cases hb
    have hident := (grown_ident hl haliases hmemPkg).long (by rw [hpkg]; exact Option.some_ne_none p)
    rw [render, render_memberTree, render_identTree]
    simp only [List.length_append]
    omega

/-! ## Expressions -/

theorem showsImport_of_ident {id : Ident} :
    showsImport prog (.ident id) = false ↔ importOf prog id = none := by
  rw [showsImport, Option.isSome_eq_false_iff, Option.isNone_iff_eq_none]

end

end

mutual
/-- **The text of an expression stays the same, unless a printed expression shows the name of
an import.** -/
theorem grown_exprTree {tables : UnicodeTables} {ren : Ident → Text} {move : Pos → Pos} {L : Nat}
    {prog prog' : Program} {aliases : Aliases} (hl : Lockstep tables ren move L prog prog')
    (haliases : AliasesApart prog aliases) : ∀ (e : Expr) {t t' : CTree},
    .expr e ∈ sourceNodes prog → exprTree prog aliases e = .ok t →
    exprTree prog' (movedAliases move aliases) (e.rename (importRenaming prog ren move)) = .ok t' →
    Grown L (ImportFree prog (printed prog e)) (render t) (render t')
  | .basicLit pos kind value, t, t', hmem, ht, ht' => by
      cases ht
      cases ht'
      exact (Grown.refl _).of_iff (by simp [printed, ImportFree, showsImport])
  | .ident id, t, t', hmem, ht, ht' => by
      cases ht
      cases ht'
      rw [render_identTree, render_identTree]
      refine (grown_ident hl haliases hmem).of_iff ?_
      rw [printed, importFree_cons, importFree_nil, and_true, showsImport_of_ident]
  | .selector x sel, t, t', hmem, ht, ht' => by
      have hconst := bpfConstant_renamed hl.renamed hl.facts hmem
      have haccess := memberAccess_renamed hl.renamed hl.facts hmem
      rw [printed]
      rcases selectorTree_ok ht with ⟨c, hc, rfl⟩ | ⟨hc, b, hb, rfl⟩
      · rcases selectorTree_ok ht' with ⟨c', hc', rfl⟩ | ⟨hc', -⟩
        · rw [hconst, hc] at hc'
          cases hc'
          exact (Grown.refl _).of_iff (by simp [hc, ImportFree, showsImport])
        · rw [hconst, hc] at hc'
          cases hc'
      · rcases selectorTree_ok ht' with ⟨c', hc', -⟩ | ⟨-, b', hb', rfl⟩
        · rw [hconst, hc] at hc'
          cases hc'
        · have hx := grown_exprTree hl haliases x (operand_mem hmem) hb hb'
          rw [haccess, render_memberTree, render_memberTree]
          refine ((hx.before _).before _).of_iff ?_
          simp [hc, importFree_cons, showsImport]
  | .unary pos op x, t, t', hmem, ht, ht' => by
      obtain ⟨inner, hinner, ht⟩ := bind_ok ht
      obtain ⟨inner', hinner', ht'⟩ := bind_ok ht'
      have hx := grown_exprTree hl haliases x
        (below hmem (List.mem_cons_of_mem _ (self_mem_inspectExpr x))) hinner hinner'
      cases hop : unaryText op with
      | none => rw [hop] at ht; cases ht
      | some c =>
          rw [hop] at ht ht'
          cases ht
          cases ht'
          exact (hx.after c).of_iff (by simp [printed, importFree_cons, showsImport])
  | .binary x op y, t, t', hmem, ht, ht' => by
      obtain ⟨l, hleft, ht⟩ := bind_ok ht
      obtain ⟨r, hright, ht⟩ := bind_ok ht
      obtain ⟨l', hleft', ht'⟩ := bind_ok ht'
      obtain ⟨r', hright', ht'⟩ := bind_ok ht'
      cases ht
      cases ht'
      have hx := grown_exprTree hl haliases x (below hmem (List.mem_cons_of_mem _
        (List.mem_append_left _ (self_mem_inspectExpr x)))) hleft hleft'
      have hy := grown_exprTree hl haliases y (below hmem (List.mem_cons_of_mem _
        (List.mem_append_right _ (self_mem_inspectExpr y)))) hright hright'
      rw [render, render]
      refine ((((hx.before _).before _).before _).append hy).of_iff ?_
      simp [printed, importFree_cons, importFree_append, showsImport]
  | .call fn args, t, t', hmem, ht, ht' => by
      cases hshows : showsImport prog (.call fn args) with
      | true =>
          -- a conversion with `Pointer`: the second text has the new name in it
          obtain ⟨pkg, sel, p, rfl, hpkg, hsel⟩ := showsImport_call hshows
          refine ⟨fun hfree => ?_, fun _ => long_of_pointer hl haliases hmem hpkg hsel ht'⟩
          rw [printed, importFree_cons, hshows] at hfree
          cases hfree.1
      | false =>
          -- every other call has the same form in both programs
          have hprints := callTree_prints ht
          have hprints' := callTree_prints (show callTree prog'
            (fn.rename (importRenaming prog ren move)) _ _ = .ok t' from ht')
          rw [length_nodeTrees] at hprints hprints'
          rw [renameExprs_eq, List.length_map,
            callForm_renamed hl.renamed hl.facts hmem hshows] at hprints'
          have hfn := fun f f' hf hf' =>
            @grown_exprTree _ _ _ _ _ _ _ hl haliases fn f f' (callee_mem hmem) hf hf'
          have hargs := grown_nodeTrees hl haliases args fun arg harg => arg_mem hmem harg
          rw [renameExprs_eq] at hargs
          refine (grown_form hfn hargs ?_ ?_ hprints hprints').of_iff ?_
          · rw [length_nodeTrees, length_nodeTrees, List.length_map]
          · rw [length_printedEach, length_nodeTrees]
          · rw [printed, importFree_cons, hshows]
            simp
  | .paren pos x, t, t', hmem, ht, ht' => by
      obtain ⟨inner, hinner, ht⟩ := bind_ok ht
      obtain ⟨inner', hinner', ht'⟩ := bind_ok ht'
      cases ht
      cases ht'
      have hx := grown_exprTree hl haliases x
        (below hmem (List.mem_cons_of_mem _ (self_mem_inspectExpr x))) hinner hinner'
      rw [render, render]
      exact ((hx.after _).before _).of_iff (by simp [printed, importFree_cons, showsImport])
  | .index x i, t, t', hmem, ht, ht' => by
      obtain ⟨l, hleft, ht⟩ := bind_ok ht
      obtain ⟨r, hright, ht⟩ := bind_ok ht
      obtain ⟨l', hleft', ht'⟩ := bind_ok ht'
      obtain ⟨r', hright', ht'⟩ := bind_ok ht'
      cases ht
      cases ht'
      have hx := grown_exprTree hl haliases x (below hmem (List.mem_cons_of_mem _
        (List.mem_append_left _ (self_mem_inspectExpr x)))) hleft hleft'
      have hi := grown_exprTree hl haliases i (below hmem (List.mem_cons_of_mem _
        (List.mem_append_right _ (self_mem_inspectExpr i)))) hright hright'
      rw [render, render]
      refine (((hx.before _).append hi).before _).of_iff ?_
      simp [printed, importFree_cons, importFree_append, showsImport]
  | .star pos x, t, t', hmem, ht, ht' => by
      obtain ⟨inner, hinner, ht⟩ := bind_ok ht
      obtain ⟨inner', hinner', ht'⟩ := bind_ok ht'
      cases ht
      cases ht'
      have hx := grown_exprTree hl haliases x
        (below hmem (List.mem_cons_of_mem _ (self_mem_inspectExpr x))) hinner hinner'
      rw [render, render]
      exact (hx.after _).of_iff (by simp [printed, importFree_cons, showsImport])
  | .other kind pos children, t, t', hmem, ht, ht' => by cases ht

theorem grown_nodeTrees {tables : UnicodeTables} {ren : Ident → Text} {move : Pos → Pos} {L : Nat}
    {prog prog' : Program} {aliases : Aliases} (hl : Lockstep tables ren move L prog prog')
    (haliases : AliasesApart prog aliases) : ∀ es : List Expr,
    (∀ e ∈ es, .expr e ∈ sourceNodes prog) →
    ArgsGrown L (fun i => ImportFree prog (((printedEach prog es)[i]?).getD []))
      (nodeTrees prog aliases es)
      (nodeTrees prog' (movedAliases move aliases) (renameExprs (importRenaming prog ren move) es))
  | [], _, i, a, a', ha, _ => by cases ha
  | e :: rest, hmem, 0, a, a', ha, ha' =>
      grown_exprTree hl haliases e (hmem e List.mem_cons_self) ha ha'
  | e :: rest, hmem, i + 1, a, a', ha, ha' =>
      grown_nodeTrees hl haliases rest (fun e' he' => hmem e' (List.mem_cons_of_mem _ he')) i a a'
        ha ha'
end

end Gobee
