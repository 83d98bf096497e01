/-
# Emitting a program whose imports are renamed

Statements print expressions between words of their own, so what holds of the texts of
expressions holds of what they write.

* `grown_stmtTree` : **what a statement writes stays the same, unless a printed expression
  shows the name of an import.**
-/
import Gobee.ImportText

namespace Gobee

open CSyntax EmitM
open CSyntax.CExpr (render)

/-! ## What is written -/

/-- The action changes the text. -/
def Act.isText : Act → Bool
  | .recordPos _ => false
  | _ => true

/-- The length of the text of an action, without its newline. -/
def Act.size : Act → Nat
  | .writef s => s.length
  | .writeln s => s.length
  | .writeRaw s => s.length
  | _ => 0

/-- The second list of actions writes what the first one does if the condition holds, and a
long text otherwise. -/
structure ActsGrown (L : Nat) (c : Prop) (as as' : List Act) : Prop where
  same : c → as'.filter Act.isText = as.filter Act.isText
  long : ¬ c → L ≤ (as'.map Act.size).sum

section

variable {L : Nat} {c d : Prop} {as as' bs bs' : List Act}

theorem ActsGrown.refl (as : List Act) : ActsGrown L True as as :=
  ⟨fun _ => rfl, fun h => absurd trivial h⟩

theorem ActsGrown.of_iff (h : ActsGrown L c as as') (hcd : d ↔ c) : ActsGrown L d as as' :=
  ⟨fun hd => h.same (hcd.mp hd), fun hd => h.long fun hc => hd (hcd.mpr hc)⟩

theorem ActsGrown.append (has : ActsGrown L c as as') (hbs : ActsGrown L d bs bs') :
    ActsGrown L (c ∧ d) (as ++ bs) (as' ++ bs') := by
  refine ⟨fun h => by rw [List.filter_append, List.filter_append, has.same h.1, hbs.same h.2], ?_⟩
  intro h
  rw [List.map_append, List.sum_append]
  by_cases hc : c
  · have hlong := hbs.long fun hd => h ⟨hc, hd⟩
    omega
  · have hlong := has.long hc
    omega

theorem ActsGrown.after (pre : List Act) (h : ActsGrown L c as as') :
    ActsGrown L c (pre ++ as) (pre ++ as') :=
  ((ActsGrown.refl pre).append h).of_iff (iff_of_eq (true_and c)).symm

theorem ActsGrown.before (post : List Act) (h : ActsGrown L c as as') :
    ActsGrown L c (as ++ post) (as' ++ post) :=
  (h.append (ActsGrown.refl post)).of_iff (iff_of_eq (and_true c)).symm

/-- The positions are not part of the text. -/
theorem ActsGrown.record_left (p : Pos) (h : ActsGrown L c as as') :
    ActsGrown L c (.recordPos p :: as) as' := ⟨fun hc => h.same hc, h.long⟩

theorem ActsGrown.record_right (p : Pos) (h : ActsGrown L c as as') :
    ActsGrown L c as (.recordPos p :: as') := by
  refine ⟨fun hc => h.same hc, fun hc => ?_⟩
  rw [List.map_cons, List.sum_cons]
  exact le_trans (h.long hc) (Nat.le_add_left _ _)

theorem ActsGrown.record (p q : Pos) (h : ActsGrown L c as as') :
    ActsGrown L c (.recordPos p :: as) (.recordPos q :: as') := (h.record_left p).record_right q

theorem ActsGrown.writef {s s' : Text} (h : Grown L c s s') :
    ActsGrown L c [.writef s] [.writef s'] := by
  refine ⟨fun hc => by rw [h.same hc], fun hc => ?_⟩
  exact h.long hc

end

/-- No printed node shows the name of an import. -/
def NodesFree (prog : Program) (nds : List PNode) : Prop :=
  ∀ e, .expr e ∈ nds → showsImport prog e = false

section

variable {prog : Program}

theorem nodesFree_nil : NodesFree prog [] ↔ True := ⟨fun _ => trivial, fun _ _ h => nomatch h⟩

theorem nodesFree_append {nds nds' : List PNode} :
    NodesFree prog (nds ++ nds') ↔ NodesFree prog nds ∧ NodesFree prog nds' := by
  unfold NodesFree
  simp only [List.mem_append, or_imp, forall_and]

theorem nodesFree_expr {e : Expr} :
    NodesFree prog (exprNodes prog e) ↔ ImportFree prog (printed prog e) := by
  unfold NodesFree ImportFree exprNodes
  simp

theorem nodesFree_cons {α : Type} {x : α} {xs : List α} {nodes : α → List PNode} :
    NodesFree prog ((x :: xs).flatMap nodes) ↔
      NodesFree prog (nodes x) ∧ NodesFree prog (xs.flatMap nodes) := by
  rw [List.flatMap_cons, nodesFree_append]

end

/-! ## Lines -/

/-- The texts of two lines. -/
structure LineGrown (L : Nat) (c : Prop) (l l' : CLine) : Prop where
  text : Grown L c l.text l'.text
  bare : l = .ret none ↔ l' = .ret none

section

variable {tables : UnicodeTables} {ren : Ident → Text} {move : Pos → Pos} {L : Nat}
  {prog prog' : Program} {n : Names} {c d : Prop}

theorem LineGrown.of_iff {l l' : CLine} (h : LineGrown L c l l') (hcd : d ↔ c) :
    LineGrown L d l l' := ⟨h.text.of_iff hcd, h.bare⟩

theorem acts_of_ne {l : CLine} (h : l ≠ .ret none) :
    l.acts = [.writeIndent, .writef (l.text ++ ";\n")] := by
  cases l with
  | ret x =>
      cases x with
      | none => exact absurd rfl h
      | some x => rfl
  | _ => rfl

theorem LineGrown.acts {l l' : CLine} (h : LineGrown L c l l') : ActsGrown L c l.acts l'.acts := by
  -- a bare `return` is written by `writeln`, every other line by `writef`
  by_cases hl : l = .ret none
  · have hl' := h.bare.mp hl
    subst hl hl'
    refine ⟨fun _ => rfl, fun hc => le_trans (h.text.long hc) ?_⟩
    decide
  · rw [acts_of_ne hl, acts_of_ne fun hl' => hl (h.bare.mpr hl')]
    exact (ActsGrown.writef (h.text.before _)).after [.writeIndent]

theorem grown_treeOf (hl : Lockstep tables ren move L prog prog')
    (haliases : AliasesApart prog n.aliases) {e : Expr} {t t' : CTree}
    (hmem : .expr e ∈ sourceNodes prog) (ht : treeOf prog n e = some t)
    (ht' : treeOf prog' (n.moved move) (e.rename (importRenaming prog ren move)) = some t') :
    Grown L (NodesFree prog (exprNodes prog e)) (render t) (render t') :=
  (grown_exprTree hl haliases e hmem (exprTree_of_treeOf ht) (exprTree_of_treeOf ht')).of_iff
    nodesFree_expr

theorem grown_decl {cType w : Text} {id id' : Ident} {t t' : CTree}
    (h : Grown L c (render t) (render t')) :
    LineGrown L c (.decl cType w id (some t)) (.decl cType w id' (some t')) :=
  ⟨h.after _, by simp⟩

theorem cTypeOf_renamed (h : ImportsRenamed tables ren move prog prog') {id : Ident}
    (hmem : .expr (.ident id) ∈ sourceNodes prog) :
    cTypeOf prog' ((importRenaming prog ren move).ident id) = cTypeOf prog id := by
  rw [cTypeOf, typeOfIdent_renamed h hmem, cTypeOf]

/-- The lines of a specification. -/
theorem grown_specLines (hl : Lockstep tables ren move L prog prog')
    (haliases : AliasesApart prog n.aliases) {ids : List Ident} :
    ∀ {values : List Expr} {ls ls' : List CLine},
      (∀ id ∈ ids, .expr (.ident id) ∈ sourceNodes prog ∧ importOf prog id = none) →
      (∀ e ∈ values, .expr e ∈ sourceNodes prog) →
      specLines prog n ids values = some ls →
      specLines prog' (n.moved move) (ids.map (importRenaming prog ren move).ident)
        (values.map (Expr.rename (importRenaming prog ren move))) = some ls' →
      ActsGrown L (NodesFree prog (exprsNodes prog (values.take ids.length)))
        (ls.flatMap CLine.acts) (ls'.flatMap CLine.acts) := by
  induction ids with
  | nil =>
      intro values ls ls' hids hvalues hls hls'
      cases hls
      cases hls'
      exact (ActsGrown.refl _).of_iff nodesFree_nil
  | cons id ids ih =>
      intro values ls ls' hids hvalues hls hls'
      obtain ⟨⟨hmem, hid⟩, hids⟩ := List.forall_mem_cons.mp hids
      rw [List.map_cons] at hls'
      obtain ⟨cType, hcType, hls⟩ := Option.bind_eq_some_iff.mp hls
      obtain ⟨init, hinit, hls⟩ := Option.bind_eq_some_iff.mp hls
      obtain ⟨rest, hrest, hls⟩ := Option.bind_eq_some_iff.mp hls
      obtain ⟨cType', hcType', hls'⟩ := Option.bind_eq_some_iff.mp hls'
      obtain ⟨init', hinit', hls'⟩ := Option.bind_eq_some_iff.mp hls'
      obtain ⟨rest', hrest', hls'⟩ := Option.bind_eq_some_iff.mp hls'
      cases hls
      cases hls'
      rw [cTypeOf_renamed hl.renamed hmem, hcType] at hcType'
      cases hcType'
      rw [name_renamed hid, List.flatMap_cons, List.flatMap_cons, List.length_cons]
      cases values with
      | nil =>
          cases hinit
          cases hinit'
          have hih := @ih [] _ _ hids (fun e he => nomatch he) hrest hrest'
          rw [List.take_nil] at hih ⊢
          exact hih.after _
      | cons v values =>
          obtain ⟨hv, hvalues⟩ := List.forall_mem_cons.mp hvalues
          obtain ⟨t, ht, rfl⟩ := Option.map_eq_some_iff.mp hinit
          obtain ⟨t', ht', rfl⟩ := Option.map_eq_some_iff.mp hinit'
          have hih := ih hids hvalues hrest hrest'
          refine ((grown_decl (grown_treeOf hl haliases hv ht ht')).acts.append hih).of_iff ?_
          rw [List.take_succ_cons, exprsNodes, nodesFree_cons]
          rfl

theorem grown_specsLines (hl : Lockstep tables ren move L prog prog')
    (haliases : AliasesApart prog n.aliases) {specs : List ValueSpec} :
    ∀ {ls ls' : List CLine},
      (∀ nd ∈ inspectSpecs specs, nd ∈ sourceNodes prog) →
      (∀ spec ∈ specs, ∀ id ∈ spec.names, importOf prog id = none) →
      specsLines prog n specs = some ls →
      specsLines prog' (n.moved move) (renameSpecs (importRenaming prog ren move) specs) =
        some ls' →
      ActsGrown L (NodesFree prog (specs.flatMap (specNodes prog)))
        (ls.flatMap CLine.acts) (ls'.flatMap CLine.acts) := by
  induction specs with
  | nil =>
      intro ls ls' hmem hnames hls hls'
      cases hls
      cases hls'
      exact (ActsGrown.refl _).of_iff nodesFree_nil
  | cons spec specs ih =>
      intro ls ls' hmem hnames hls hls'
      obtain ⟨ls₁, hls₁, hls⟩ := Option.bind_eq_some_iff.mp hls
      obtain ⟨ls₂, hls₂, hls⟩ := Option.bind_eq_some_iff.mp hls
      obtain ⟨ls₁', hls₁', hls'⟩ := Option.bind_eq_some_iff.mp hls'
      obtain ⟨ls₂', hls₂', hls'⟩ := Option.bind_eq_some_iff.mp hls'
      cases hls
      cases hls'
      rw [names_rename, values_rename] at hls₁'
      have hspec := grown_specLines hl haliases
        (fun id hid => ⟨hmem _ (mem_inspectSpecs List.mem_cons_self hid),
          hnames spec List.mem_cons_self id hid⟩)
        (fun e he => hmem _ (mem_inspectSpecs_of_value List.mem_cons_self he)) hls₁ hls₁'
      have hrest := ih (fun nd hnd => hmem nd (List.mem_append_right _ hnd))
        (fun s hs => hnames s (List.mem_cons_of_mem _ hs)) hls₂ hls₂'
      rw [List.flatMap_append, List.flatMap_append]
      exact (hspec.append hrest).of_iff nodesFree_cons

theorem singleAssignLine_of_ne {l r : Expr} {tok : AssignTok} (htok : tok ≠ .define) :
    singleAssignLine prog n l tok r = (treeOf prog n l).bind fun lhs =>
      (treeOf prog n r).bind fun rhs => (assignText tok).bind fun op =>
        some (.assign lhs op rhs) := by
  cases tok <;> first | exact absurd rfl htok | rfl

/-- The line of a single assignment. -/
theorem grown_singleAssign (hl : Lockstep tables ren move L prog prog')
    (haliases : AliasesApart prog n.aliases) {l r : Expr} {tok : AssignTok} {line line' : CLine}
    (hleft : .expr l ∈ sourceNodes prog) (hright : .expr r ∈ sourceNodes prog)
    (hnames : ∀ id, l = .ident id → importOf prog id = none)
    (hline : singleAssignLine prog n l tok r = some line)
    (hline' : singleAssignLine prog' (n.moved move) (l.rename (importRenaming prog ren move)) tok
      (r.rename (importRenaming prog ren move)) = some line') :
    LineGrown L (NodesFree prog (assignNodes prog [l] tok [r])) line line' := by
  rw [assignNodes]
  by_cases htok : tok = .define
  · subst htok
    obtain ⟨lhs, -, hline⟩ := Option.bind_eq_some_iff.mp hline
    obtain ⟨rhs, hrhs, hline⟩ := Option.bind_eq_some_iff.mp hline
    obtain ⟨id, hid, hline⟩ := Option.bind_eq_some_iff.mp hline
    obtain ⟨cType, hcType, hline⟩ := Option.bind_eq_some_iff.mp hline
    obtain ⟨lhs', -, hline'⟩ := Option.bind_eq_some_iff.mp hline'
    obtain ⟨rhs', hrhs', hline'⟩ := Option.bind_eq_some_iff.mp hline'
    obtain ⟨id', hid', hline'⟩ := Option.bind_eq_some_iff.mp hline'
    obtain ⟨cType', hcType', hline'⟩ := Option.bind_eq_some_iff.mp hline'
    cases hline
    cases hline'
    rw [identOf_renamed, hid] at hid'
    cases hid'
    obtain rfl := identOf_eq_some hid
    rw [cTypeOf_renamed hl.renamed hleft, hcType] at hcType'
    cases hcType'
    rw [name_renamed (hnames id rfl), if_pos rfl]
    exact grown_decl (grown_treeOf hl haliases hright hrhs hrhs')
  · rw [singleAssignLine_of_ne htok] at hline hline'
    obtain ⟨lhs, hlhs, hline⟩ := Option.bind_eq_some_iff.mp hline
    obtain ⟨rhs, hrhs, hline⟩ := Option.bind_eq_some_iff.mp hline
    obtain ⟨op, hop, hline⟩ := Option.bind_eq_some_iff.mp hline
    obtain ⟨lhs', hlhs', hline'⟩ := Option.bind_eq_some_iff.mp hline'
    obtain ⟨rhs', hrhs', hline'⟩ := Option.bind_eq_some_iff.mp hline'
    obtain ⟨op', hop', hline'⟩ := Option.bind_eq_some_iff.mp hline'
    rw [hop] at hop'
    cases hop'
    cases hline
    cases hline'
    have hl' := grown_treeOf hl haliases hleft hlhs hlhs'
    have hr' := grown_treeOf hl haliases hright hrhs hrhs'
    rw [if_neg htok]
    refine LineGrown.of_iff ⟨?_, by simp⟩ nodesFree_append
    rw [CLine.text_assign, CLine.text_assign]
    exact (((hl'.before _).before _).before _).append hr'

/-- A clause of a `for`. -/
theorem grown_forClause (hl : Lockstep tables ren move L prog prog')
    (haliases : AliasesApart prog n.aliases) {s : Stmt} {line line' : CLine}
    (hmem : .stmt s ∈ sourceNodes prog) (hline : forClause prog n s = some line)
    (hline' : forClause prog' (n.moved move) (s.rename (importRenaming prog ren move)) =
      some line') :
    Grown L (NodesFree prog (clauseNodes prog s)) line.text line'.text := by
  unfold forClause at hline
  split at hline
  · rename_i l tok r
    have hleft := lhs_mem hmem (List.mem_singleton_self l)
    have hright := rhs_mem hmem (List.mem_singleton_self r)
    obtain ⟨rhs, hrhs, hline⟩ := Option.bind_eq_some_iff.mp hline
    obtain ⟨rhs', hrhs', hline'⟩ := Option.bind_eq_some_iff.mp hline'
    have hr' := grown_treeOf hl haliases hright hrhs hrhs'
    rw [clauseNodes]
    by_cases htok : tok = .define
    · rw [if_pos htok] at hline hline' ⊢
      obtain ⟨id, hid, hline⟩ := Option.bind_eq_some_iff.mp hline
      obtain ⟨cType, hcType, hline⟩ := Option.bind_eq_some_iff.mp hline
      obtain ⟨id', hid', hline'⟩ := Option.bind_eq_some_iff.mp hline'
      obtain ⟨cType', hcType', hline'⟩ := Option.bind_eq_some_iff.mp hline'
      cases hline
      cases hline'
      rw [identOf_renamed, hid] at hid'
      cases hid'
      obtain rfl := identOf_eq_some hid
      rw [cTypeOf_renamed hl.renamed hleft, hcType] at hcType'
      cases hcType'
      rw [name_renamed (hl.facts.assigned _ _ _ _ hmem (List.mem_singleton_self _))]
      exact (grown_decl hr').text
    · rw [if_neg htok] at hline hline' ⊢
      obtain ⟨lhs, hlhs, hline⟩ := Option.bind_eq_some_iff.mp hline
      obtain ⟨lhs', hlhs', hline'⟩ := Option.bind_eq_some_iff.mp hline'
      cases hline
      cases hline'
      have hl' := grown_treeOf hl haliases hleft hlhs hlhs'
      rw [CLine.text_assign, CLine.text_assign]
      exact ((((hl'.before _).before _).before _).append hr').of_iff nodesFree_append
  · rename_i x inc
    obtain ⟨t, ht, heq⟩ := Option.map_eq_some_iff.mp hline
    obtain ⟨t', ht', heq'⟩ := Option.map_eq_some_iff.mp hline'
    cases heq
    cases heq'
    have hx := grown_treeOf hl haliases
      (below hmem (List.mem_cons_of_mem _ (self_mem_inspectExpr x))) ht ht'
    exact hx.before _
  · cases hline

/-! ## Comma-ok statements -/

theorem lhsName_renamed {id : Ident} (hid : importOf prog id = none) (kind : Text) :
    lhsName (n.moved move) ((importRenaming prog ren move).ident id) kind =
      ((lhsName n id kind).1, (lhsName n id kind).2.moved move) := by
  unfold lhsName
  rw [name_renamed hid]
  split_ifs <;> rfl

theorem aliased_renamed (hl : Lockstep tables ren move L prog prog') {id : Ident}
    (hmem : .expr (.ident id) ∈ sourceNodes prog) (cName : Text) :
    aliased prog' (n.moved move) ((importRenaming prog ren move).ident id) cName =
      (aliased prog n id cName).moved move := by
  unfold aliased
  rw [hl.renamed.defs id hmem]
  cases hobj : prog.info.defsAt id with
  | none => rfl
  | some obj =>
      obtain ⟨hkind, -⟩ := hl.facts.outside id obj hmem hobj
      obtain ⟨d, kind, t⟩ := obj
      cases kind with
      | pkgName path => exact absurd rfl (hkind path)
      | _ => rfl

theorem apart_aliased (hl : Lockstep tables ren move L prog prog')
    (haliases : AliasesApart prog n.aliases) {id : Ident}
    (hmem : .expr (.ident id) ∈ sourceNodes prog) (cName : Text) :
    AliasesApart prog (aliased prog n id cName).aliases := by
  unfold aliased
  cases hobj : prog.info.defsAt id with
  | none => exact haliases
  | some obj =>
      refine List.forall_mem_cons.mpr ⟨?_, haliases⟩
      exact (hl.facts.outside id obj hmem hobj).2

theorem showsImport_of_method {view : GoType → GoType} {fn : Expr} {args : List Expr} {m : Method}
    (hfacts : ImportFacts prog) (hview : ∀ kind, view (.basic kind) = .basic kind)
    (hm : methodOf prog view fn = some m) : showsImport prog (.call fn args) = false := by
  cases hshows : showsImport prog (.call fn args) with
  | false => rfl
  | true =>
      obtain ⟨pkg, sel, p, rfl, hpkg, -⟩ := showsImport_call hshows
      rw [methodOf_package hview (hfacts.untyped pkg p hpkg)] at hm
      cases hm

/-- The call of a method with one argument. -/
theorem grown_soleCall (hl : Lockstep tables ren move L prog prog')
    (haliases : AliasesApart prog n.aliases) {fn : Expr} {args : List Expr} {w : Text}
    {parts : List ArgPart} {a a' t t' : CTree}
    (hmem : .expr (.call fn args) ∈ sourceNodes prog)
    (hshows : showsImport prog (.call fn args) = false)
    (hform : callForm prog fn 1 = .helper w parts)
    (ha : soleTree prog n args = some a)
    (ha' : soleTree prog' (n.moved move) (renameExprs (importRenaming prog ren move) args) =
      some a')
    (ht : (CallForm.helper w parts).Prints (.error .panic) [.ok a] t)
    (ht' : ((CallForm.helper w parts).moved move).Prints (.error .panic) [.ok a'] t') :
    Grown L (NodesFree prog (exprNodes prog (.call fn args))) (render t) (render t') := by
  rcases args with _ | ⟨arg, _ | ⟨arg', rest⟩⟩
  · cases ha
  · have harg := grown_exprTree hl haliases arg (arg_mem hmem List.mem_cons_self)
      (exprTree_of_treeOf ha) (exprTree_of_treeOf ha')
    have hargs : ArgsGrown L
        (fun i => ImportFree prog (((printedEach prog [arg])[i]?).getD [])) [.ok a] [.ok a'] := by
      intro i b b' hb hb'
      cases i with
      | zero =>
          cases hb
          cases hb'
          exact harg
      | succ i => cases hb
    have hfn : ∀ f f', (.error .panic : Result CTree) = .ok f →
        (.error .panic : Result CTree) = .ok f' →
        Grown L (ImportFree prog (printed prog fn)) (render f) (render f') :=
      fun f f' hf => nomatch hf
    refine (grown_form hfn hargs rfl rfl ht ht').of_iff ?_
    rw [nodesFree_expr, printed, importFree_cons, hshows, List.length_singleton, hform]
    simp
  · cases ha

theorem mapLookupCall_method {fn : Expr} {buf : Ident} {valType : GoType}
    (h : mapLookupCall prog fn = some (buf, valType)) : ∃ m, methodOf prog id fn = some m := by
  unfold mapLookupCall mapMethodCall at h
  cases hm : methodOf prog id fn with
  | none => rw [hm] at h; cases h
  | some m => exact ⟨m, rfl⟩

theorem storageGetCall_method {fn : Expr} {buf : Ident} {valType : GoType} {getFn : Text}
    (h : storageGetCall prog fn = some (buf, valType, getFn)) :
    ∃ m, methodOf prog stripPointer fn = some m := by
  unfold storageGetCall storageMapInfo at h
  cases hm : methodOf prog stripPointer fn with
  | none => rw [hm] at h; cases h
  | some m => exact ⟨m, rfl⟩

/-- The call of a comma-ok statement. -/
theorem grown_commaOkCall (hl : Lockstep tables ren move L prog prog')
    (haliases : AliasesApart prog n.aliases) {fn : Expr} {args : List Expr} {c c' : CommaOkCall}
    (hmem : .expr (.call fn args) ∈ sourceNodes prog)
    (hc : commaOkCall prog n fn args = some c)
    (hc' : commaOkCall prog' (n.moved move) (fn.rename (importRenaming prog ren move))
      (renameExprs (importRenaming prog ren move) args) = some c') :
    c'.valC = c.valC ∧ c'.kind = c.kind ∧
      Grown L (NodesFree prog (commaOkNodes prog (.call fn args))) (render c.call)
        (render c'.call) := by
  have hfn := callee_mem hmem
  unfold commaOkCall at hc hc'
  unfold commaOkNodes
  rw [mapLookupCall_renamed hl.renamed hl.facts hfn,
    ringbufReserveCall_renamed hl.renamed hl.facts hfn,
    storageGetCall_renamed hl.renamed hl.facts hfn] at hc'
  -- lookup, reserve and storage are tried in this order in both runs
  split at hc
  · rename_i buf valType hlookup
    rw [hlookup, Option.map_some] at hc'
    obtain ⟨valC, hvalC, hc⟩ := Option.bind_eq_some_iff.mp hc
    obtain ⟨key, hkey, hc⟩ := Option.bind_eq_some_iff.mp hc
    obtain ⟨valC', hvalC', hc'⟩ := Option.bind_eq_some_iff.mp hc'
    obtain ⟨key', hkey', hc'⟩ := Option.bind_eq_some_iff.mp hc'
    rw [id_eq, hvalC] at hvalC'
    cases hvalC'
    cases hc
    cases hc'
    obtain ⟨m, hm⟩ := mapLookupCall_method hlookup
    refine ⟨rfl, rfl, ?_⟩
    simp only [hlookup]
    exact grown_soleCall hl haliases hmem (showsImport_of_method hl.facts (fun _ => rfl) hm)
      (mapLookupCall_form hlookup) hkey hkey' ⟨_, rfl, rfl⟩ ⟨_, rfl, rfl⟩
  · rename_i hlookup
    rw [hlookup, Option.map_none] at hc'
    split at hc
    · rename_i buf valType hreserve
      rw [hreserve, Option.map_some] at hc'
      obtain ⟨valC, hvalC, hc⟩ := Option.bind_eq_some_iff.mp hc
      obtain ⟨valC', hvalC', hc'⟩ := Option.bind_eq_some_iff.mp hc'
      rw [id_eq, hvalC] at hvalC'
      cases hvalC'
      cases hc
      cases hc'
      refine ⟨rfl, rfl, ?_⟩
      simp only [hlookup, hreserve]
      refine (Grown.refl _).of_iff ?_
      unfold NodesFree
      simp
    · rename_i hreserve
      rw [hreserve, Option.map_none] at hc'
      split at hc
      · rename_i buf valType getFn hget
        rw [hget, Option.map_some] at hc'
        obtain ⟨valC, hvalC, hc⟩ := Option.bind_eq_some_iff.mp hc
        obtain ⟨obj, hobj, hc⟩ := Option.bind_eq_some_iff.mp hc
        obtain ⟨valC', hvalC', hc'⟩ := Option.bind_eq_some_iff.mp hc'
        obtain ⟨obj', hobj', hc'⟩ := Option.bind_eq_some_iff.mp hc'
        rw [hvalC] at hvalC'
        cases hvalC'
        cases hc
        cases hc'
        obtain ⟨m, hm⟩ := storageGetCall_method hget
        refine ⟨rfl, rfl, ?_⟩
        simp only [hlookup, hreserve]
        exact grown_soleCall hl haliases hmem (showsImport_of_method hl.facts (fun _ => rfl) hm)
          (storageGetCall_form hget) hobj hobj' ⟨_, rfl, rfl⟩ ⟨_, rfl, rfl⟩
      · cases hc

/-! ## Statements -/

/-- Two steps end with the same names, and with texts that stay the same or become long. -/
structure RunGrown (move : Pos → Pos) (L : Nat) (prog : Program) (c : Prop) (n n' : Names)
    (as as' : List Act) : Prop where
  names : n' = n.moved move
  apart : AliasesApart prog n.aliases
  acts : ActsGrown L c as as'

theorem RunGrown.of_iff {n' : Names} {as as' : List Act} (h : RunGrown move L prog c n n' as as')
    (hcd : d ↔ c) : RunGrown move L prog d n n' as as' := ⟨h.names, h.apart, h.acts.of_iff hcd⟩

theorem grown_commaOkLine (hl : Lockstep tables ren move L prog prog')
    (haliases : AliasesApart prog n.aliases) {v ok r : Expr} {q q' : CLine × Names}
    (hmem : .stmt (.assign [v, ok] .define [r]) ∈ sourceNodes prog)
    (hq : commaOkLine prog n v ok r = some q)
    (hq' : commaOkLine prog' (n.moved move) (v.rename (importRenaming prog ren move))
      (ok.rename (importRenaming prog ren move)) (r.rename (importRenaming prog ren move)) =
        some q') :
    RunGrown move L prog (NodesFree prog (commaOkNodes prog r)) q.2 q'.2 q.1.acts q'.1.acts := by
  cases r with
  | call fn args =>
      obtain ⟨c, hc, hq⟩ := Option.bind_eq_some_iff.mp hq
      obtain ⟨vId, hv, hq⟩ := Option.bind_eq_some_iff.mp hq
      obtain ⟨okId, hok, hq⟩ := Option.bind_eq_some_iff.mp hq
      obtain ⟨c', hc', hq'⟩ := Option.bind_eq_some_iff.mp hq'
      obtain ⟨vId', hv', hq'⟩ := Option.bind_eq_some_iff.mp hq'
      obtain ⟨okId', hok', hq'⟩ := Option.bind_eq_some_iff.mp hq'
      rw [identOf_renamed, hv] at hv'
      rw [identOf_renamed, hok] at hok'
      cases hv'
      cases hok'
      obtain rfl := identOf_eq_some hv
      obtain rfl := identOf_eq_some hok
      cases hq
      cases hq'
      obtain ⟨hvalC, hkind, hcall⟩ := grown_commaOkCall hl haliases
        (rhs_mem hmem (List.mem_singleton_self _)) hc hc'
      have hokMem : .expr (.ident okId) ∈ sourceNodes prog := lhs_mem hmem (by simp)
      have hvId := hl.facts.assigned _ _ _ vId hmem (by simp)
      have hnames : AliasesApart prog (lhsName n vId c.kind).2.aliases := by
        unfold lhsName
        split_ifs <;> exact haliases
      rw [hvalC, hkind, lhsName_renamed hvId]
      exact ⟨aliased_renamed hl hokMem _, apart_aliased hl hnames hokMem _, (grown_decl hcall).acts⟩
  | _ => cases hq

theorem grown_assignLine (hl : Lockstep tables ren move L prog prog')
    (haliases : AliasesApart prog n.aliases) {lhs rhs : List Expr} {tok : AssignTok}
    {q q' : CLine × Names} (hmem : .stmt (.assign lhs tok rhs) ∈ sourceNodes prog)
    (hq : assignLine prog n lhs tok rhs = some q)
    (hq' : assignLine prog' (n.moved move) (renameExprs (importRenaming prog ren move) lhs) tok
      (renameExprs (importRenaming prog ren move) rhs) = some q') :
    RunGrown move L prog (NodesFree prog (assignNodes prog lhs tok rhs)) q.2 q'.2 q.1.acts
      q'.1.acts := by
  unfold assignLine at hq
  split at hq
  · rename_i v ok r
    split_ifs at hq with htok
    subst htok
    exact grown_commaOkLine hl haliases hmem hq hq'
  · rename_i l r
    obtain ⟨line, hline, rfl⟩ := Option.map_eq_some_iff.mp hq
    obtain ⟨line', hline', rfl⟩ := Option.map_eq_some_iff.mp hq'
    have hnames : ∀ id, l = .ident id → importOf prog id = none := by
      rintro id rfl
      exact hl.facts.assigned _ _ _ id hmem (List.mem_singleton_self _)
    exact ⟨rfl, haliases, (grown_singleAssign hl haliases
      (lhs_mem hmem (List.mem_singleton_self l)) (rhs_mem hmem (List.mem_singleton_self r)) hnames
      hline hline').acts⟩
  · cases hq

theorem grown_returnLine (hl : Lockstep tables ren move L prog prog')
    (haliases : AliasesApart prog n.aliases) {results : List Expr} {line line' : CLine}
    (hmem : ∀ e ∈ results, .expr e ∈ sourceNodes prog)
    (hline : returnLine prog n results = some line)
    (hline' : returnLine prog' (n.moved move)
      (renameExprs (importRenaming prog ren move) results) = some line') :
    ActsGrown L (NodesFree prog (exprsNodes prog results)) line.acts line'.acts := by
  rcases results with _ | ⟨x, _ | ⟨y, rest⟩⟩
  · cases hline
    cases hline'
    exact (ActsGrown.refl _).of_iff nodesFree_nil
  · obtain ⟨t, ht, rfl⟩ := Option.map_eq_some_iff.mp hline
    obtain ⟨t', ht', rfl⟩ := Option.map_eq_some_iff.mp hline'
    have hx := grown_treeOf hl haliases (hmem x List.mem_cons_self) ht ht'
    have hret : LineGrown L (NodesFree prog (exprNodes prog x)) (.ret (some t)) (.ret (some t')) :=
      ⟨hx.after _, by simp⟩
    refine hret.acts.of_iff ?_
    rw [exprsNodes, nodesFree_cons]
    exact and_iff_left (nodesFree_nil.mpr trivial)
  · cases hline

end

mutual
/-- **What a statement writes stays the same, unless a printed expression shows the name of an
import.** -/
theorem grown_stmtTree {tables : UnicodeTables} {ren : Ident → Text} {move : Pos → Pos} {L : Nat}
    {prog prog' : Program} (hl : Lockstep tables ren move L prog prog') :
    ∀ (s : Stmt) {n : Names} {r r' : CStmt × Names}, AliasesApart prog n.aliases →
      .stmt s ∈ sourceNodes prog → stmtTree prog s n = some r →
      stmtTree prog' (s.rename (importRenaming prog ren move)) (n.moved move) = some r' →
      RunGrown move L prog (NodesFree prog (stmtNodes prog s)) r.2 r'.2 r.1.acts r'.1.acts
  | .decl pos tok specs, n, r, r', haliases, hmem, hr, hr' => by
      rw [stmtTree] at hr
      rw [Stmt.rename, stmtTree] at hr'
      split_ifs at hr with htok
      rw [if_pos htok] at hr'
      obtain ⟨ls, hls, rfl⟩ := Option.map_eq_some_iff.mp hr
      obtain ⟨ls', hls', rfl⟩ := Option.map_eq_some_iff.mp hr'
      have hlines := grown_specsLines hl haliases
        (fun nd hnd => below hmem (List.mem_cons_of_mem _ hnd))
        (fun spec hspec id hid => hl.facts.declared _ _ _ _ _ hmem hspec hid) hls hls'
      exact ⟨rfl, haliases, hlines.record _ _⟩
  | .assign lhs tok rhs, n, r, r', haliases, hmem, hr, hr' => by
      obtain ⟨q, hq, rfl⟩ := Option.map_eq_some_iff.mp hr
      obtain ⟨q', hq', rfl⟩ := Option.map_eq_some_iff.mp hr'
      obtain ⟨hnames, hapart, hacts⟩ := grown_assignLine hl haliases hmem hq hq'
      refine ⟨hnames, hapart, ?_⟩
      rw [CStmt.acts, CStmt.acts, List.flatMap_singleton, List.flatMap_singleton]
      exact hacts.record _ _
  | .ifs pos init cond body els, n, r, r', haliases, hmem, hr, hr' => by
      obtain ⟨hcondMem, hbodyMem, helsMem⟩ := ifs_mem hmem
      obtain ⟨-, c, b, n₁, e, hc, hb, he, hacts⟩ := stmtTree_ifs hr
      obtain ⟨-, c', b', n₁', e', hc', hb', he', hacts'⟩ := stmtTree_ifs hr'
      have hcond := grown_treeOf hl haliases hcondMem hc hc'
      -- the `else` branch starts with the names that the body leaves
      obtain ⟨rfl, hapart, hbody⟩ := grown_blockTree hl body haliases hbodyMem hb hb'
      obtain ⟨hnames, hapart', hels⟩ := grown_elseTree hl els hapart helsMem he he'
      refine ⟨hnames, hapart', ?_⟩
      have hhead := (ActsGrown.writef ((hcond.after "if (").before ") \x7b\n")).after [.writeIndent]
      have htail := (hbody.after [.indent]).append (hels.after [.dedent, .writeIndent])
      have hall := ((hhead.append htail).record pos ((importRenaming prog ren move).pos pos)).of_iff
        (d := NodesFree prog (stmtNodes prog (.ifs pos init cond body els)))
        (by rw [stmtNodes, nodesFree_append, nodesFree_append])
      rw [hacts, hacts', CStmt.acts, CStmt.acts]
      simpa only [List.cons_append, List.nil_append, List.append_assoc] using hall
  | .ret pos results, n, r, r', haliases, hmem, hr, hr' => by
      obtain ⟨line, hline, rfl⟩ := Option.map_eq_some_iff.mp hr
      obtain ⟨line', hline', rfl⟩ := Option.map_eq_some_iff.mp hr'
      refine ⟨rfl, haliases, ?_⟩
      rw [CStmt.acts, CStmt.acts, List.flatMap_singleton, List.flatMap_singleton]
      exact (grown_returnLine hl haliases (fun e he =>
        below hmem (List.mem_cons_of_mem _ (mem_inspectExprs he))) hline hline').record _ _
  | .expr x, n, r, r', haliases, hmem, hr, hr' => by
      obtain ⟨t, ht, rfl⟩ := Option.map_eq_some_iff.mp hr
      obtain ⟨t', ht', rfl⟩ := Option.map_eq_some_iff.mp hr'
      have hx := grown_treeOf hl haliases
        (below hmem (List.mem_cons_of_mem _ (self_mem_inspectExpr x))) ht ht'
      have hline : LineGrown L (NodesFree prog (exprNodes prog x)) (.expr t) (.expr t') :=
        ⟨hx, by simp⟩
      refine ⟨rfl, haliases, ?_⟩
      rw [CStmt.acts, CStmt.acts, List.flatMap_singleton, List.flatMap_singleton]
      exact hline.acts.record _ _
  | .fors pos init cond post body, n, r, r', haliases, hmem, hr, hr' => by
      obtain ⟨hinitMem, hcondMem, hpostMem, hbodyMem⟩ := fors_mem hmem
      obtain ⟨i, c, p, initL, condT, postL, b, rfl, rfl, rfl, hi, hc, hp, hb, hacts⟩ :=
        stmtTree_fors hr
      obtain ⟨i', c', p', initL', condT', postL', b', hi', hc', hp', hi₂, hc₂, hp₂, hb₂, hacts'⟩ :=
        stmtTree_fors hr'
      cases hi'
      cases hc'
      cases hp'
      have hinit := grown_forClause hl haliases (hinitMem i rfl) hi hi₂
      have hcond := grown_treeOf hl haliases (hcondMem c rfl) hc hc₂
      have hpost := grown_forClause hl haliases (hpostMem p rfl) hp hp₂
      obtain ⟨hnames, hapart, hbody⟩ := grown_blockTree hl body haliases hbodyMem hb hb₂
      refine ⟨hnames, hapart, ?_⟩
      have htext := ((((((hinit.after "for (").before "; ").append hcond).before "; ").append
        hpost).before ") \x7b\n")
      have hhead := (ActsGrown.writef htext).after [.writeIndent]
      have htail := (hbody.after [.indent]).before [.dedent, .writeIndent, .writeln "\x7d"]
      have hall := ((hhead.append htail).record pos ((importRenaming prog ren move).pos pos)).of_iff
        (d := NodesFree prog (stmtNodes prog (.fors pos (some i) (some c) (some p) body)))
        (by
          simp only [stmtNodes, nodesFree_append, clauseNodes?, exprsNodes, Option.toList_some,
            List.flatMap_singleton, and_assoc])
      rw [hacts, hacts', CStmt.acts, CStmt.acts]
      simpa only [List.cons_append, List.nil_append, List.append_assoc] using hall
  | .block pos list, n, r, r', haliases, hmem, hr, hr' => by
      obtain ⟨b, hb, hacts⟩ := stmtTree_block hr
      obtain ⟨b', hb', hacts'⟩ := stmtTree_block hr'
      obtain ⟨hnames, hapart, hbody⟩ := grown_blockTree hl list haliases (block_mem hmem) hb hb'
      refine ⟨hnames, hapart, ?_⟩
      have hbraces := (hbody.after [.writeIndent, .writeln "\x7b", .indent]).before
        [.dedent, .writeIndent, .writeln "\x7d"]
      have hall := hbraces.record pos ((importRenaming prog ren move).pos pos)
      rw [hacts, hacts', CStmt.acts, CStmt.acts, stmtNodes]
      simpa only [List.cons_append, List.nil_append, List.append_assoc] using hall
  | .incDec x inc, n, r, r', haliases, hmem, hr, hr' => by
      obtain ⟨t, ht, rfl⟩ := Option.map_eq_some_iff.mp hr
      obtain ⟨t', ht', rfl⟩ := Option.map_eq_some_iff.mp hr'
      have hx := grown_treeOf hl haliases
        (below hmem (List.mem_cons_of_mem _ (self_mem_inspectExpr x))) ht ht'
      have hline : LineGrown L (NodesFree prog (exprNodes prog x)) (.step t (incDecText inc))
          (.step t' (incDecText inc)) := ⟨hx.before _, by simp⟩
      refine ⟨rfl, haliases, ?_⟩
      rw [CStmt.acts, CStmt.acts, List.flatMap_singleton, List.flatMap_singleton]
      exact hline.acts.record _ _
  | .other kind pos children, n, r, r', haliases, hmem, hr, hr' => by cases hr

theorem grown_blockTree {tables : UnicodeTables} {ren : Ident → Text} {move : Pos → Pos} {L : Nat}
    {prog prog' : Program} (hl : Lockstep tables ren move L prog prog') :
    ∀ (list : List Stmt) {n : Names} {r r' : List CStmt × Names}, AliasesApart prog n.aliases →
      (∀ s ∈ list, .stmt s ∈ sourceNodes prog) → blockTree prog list n = some r →
      blockTree prog' (renameStmts (importRenaming prog ren move) list) (n.moved move) = some r' →
      RunGrown move L prog (NodesFree prog (blockNodes prog list)) r.2 r'.2 (blockActs r.1)
        (blockActs r'.1)
  | [], n, r, r', haliases, hmem, hr, hr' => by
      cases hr
      cases hr'
      exact ⟨rfl, haliases, (ActsGrown.refl _).of_iff nodesFree_nil⟩
  | s :: rest, n, r, r', haliases, hmem, hr, hr' => by
      obtain ⟨hs, hrest⟩ := List.forall_mem_cons.mp hmem
      obtain ⟨c, n₁, cs, hc, hcs, hacts⟩ := blockTree_cons hr
      obtain ⟨c', n₁', cs', hc', hcs', hacts'⟩ := blockTree_cons hr'
      obtain ⟨rfl, hapart, hhead⟩ := grown_stmtTree hl s haliases hs hc hc'
      obtain ⟨hnames, hapart', htail⟩ := grown_blockTree hl rest hapart hrest hcs hcs'
      refine ⟨hnames, hapart', ?_⟩
      rw [hacts, hacts', blockActs, blockActs]
      exact (hhead.append htail).of_iff nodesFree_append

theorem grown_elseTree {tables : UnicodeTables} {ren : Ident → Text} {move : Pos → Pos} {L : Nat}
    {prog prog' : Program} (hl : Lockstep tables ren move L prog prog') :
    ∀ (els : Option Stmt) {n : Names} {r r' : CElse × Names}, AliasesApart prog n.aliases →
      (∀ s, els = some s → .stmt s ∈ sourceNodes prog) → elseTree prog els n = some r →
      elseTree prog' (renameStmt? (importRenaming prog ren move) els) (n.moved move) = some r' →
      RunGrown move L prog (NodesFree prog (elseNodes prog els)) r.2 r'.2 r.1.acts r'.1.acts
  | none, n, r, r', haliases, hmem, hr, hr' => by
      cases hr
      cases hr'
      exact ⟨rfl, haliases, (ActsGrown.refl _).of_iff nodesFree_nil⟩
  | some (.ifs pos init cond body els), n, r, r', haliases, hmem, hr, hr' => by
      obtain ⟨hcondMem, hbodyMem, -⟩ := ifs_mem (hmem _ rfl)
      obtain ⟨c, b, hc, hb, hacts⟩ := elseTree_ifs hr
      obtain ⟨c', b', hc', hb', hacts'⟩ := elseTree_ifs hr'
      have hcond := grown_treeOf hl haliases hcondMem hc hc'
      obtain ⟨hnames, hapart, hbody⟩ := grown_blockTree hl body haliases hbodyMem hb hb'
      refine ⟨hnames, hapart, ?_⟩
      have hhead := (ActsGrown.writef ((hcond.after "if (").before ") \x7b\n")).after
        [.writef "\x7d else "]
      have htail := (hbody.after [.indent]).before [.dedent, .writeIndent, .writeln "\x7d"]
      have hall := (hhead.append htail).of_iff
        (d := NodesFree prog (elseNodes prog (some (.ifs pos init cond body els))))
        (by rw [elseNodes, nodesFree_append])
      rw [hacts, hacts', CElse.acts, CElse.acts]
      simpa only [List.cons_append, List.nil_append, List.append_assoc] using hall
  | some (.block pos list), n, r, r', haliases, hmem, hr, hr' => by
      obtain ⟨b, hb, hacts⟩ := elseTree_block hr
      obtain ⟨b', hb', hacts'⟩ := elseTree_block hr'
      obtain ⟨hnames, hapart, hbody⟩ :=
        grown_blockTree hl list haliases (block_mem (hmem _ rfl)) hb hb'
      refine ⟨hnames, hapart, ?_⟩
      have hall := (hbody.after [.writef "\x7d else \x7b\n", .indent]).before
        [.dedent, .writeIndent, .writeln "\x7d"]
      rw [hacts, hacts', CElse.acts, CElse.acts, elseNodes]
      simpa only [List.cons_append, List.nil_append, List.append_assoc] using hall
  | some (.decl _ _ _), _, _, _, _, _, hr, _ => by cases hr
  | some (.assign _ _ _), _, _, _, _, _, hr, _ => by cases hr
  | some (.ret _ _), _, _, _, _, _, hr, _ => by cases hr
  | some (.expr _), _, _, _, _, _, hr, _ => by cases hr
  | some (.fors _ _ _ _ _), _, _, _, _, _, hr, _ => by cases hr
  | some (.incDec _ _), _, _, _, _, _, hr, _ => by cases hr
  | some (.other _ _ _), _, _, _, _, _, hr, _ => by cases hr
end

end Gobee
