/-
# The alias table along a function

The emitter keeps one alias table for the whole file, filled by every comma-ok statement
that declares its second result.  Because no identifier declares two variables, the table
says at every point of the source exactly what the scope says: a second result stands for
its pointer, and nothing else has an alias.

* `keeps_block` : **along a block the alias table agrees with the scope**;
* `visitOk_funcWalks` : so it does at the points of all emitted functions.
-/
import Gobee.Scopes

namespace Gobee

/-! ## The invariant -/

/-- The C name that stands for the variable of an entry. -/
def Entry.aliasName : Entry → Option Text
  | .ok _ ptr => some ptr.name
  | _ => none

/-- What is declared at some points. -/
def declaredAt (vs : List Visit) : List Entry := vs.flatMap Visit.declared

/-- The shape of a scope whose entries are among those declared so far. -/
structure ScopeOk (D : List Entry) (scope : Scope) : Prop where
  sub : ∀ e ∈ scope, e ∈ D
  /-- a second result is in scope together with its pointer -/
  ptr : ∀ {id ptr}, .ok id ptr ∈ scope → ptr.ok = some id ∧ ∃ new, .var ptr new ∈ scope
  ok : ∀ {d new id}, .var d new ∈ scope → d.ok = some id → .ok id d ∈ scope
  /-- only a blank variable is declared under another name -/
  named : ∀ {d new}, .var d new ∈ scope → d.id.name ≠ ['_'] → d.name = d.id.name

/-- The alias table says what the scope says. -/
structure AliasOk (D : List Entry) (scope : Scope) (aliases : Aliases) : Prop where
  keys : ∀ p ∈ aliases, p.1 ∈ D.map Entry.id
  agrees : ∀ e ∈ scope, aliases.lookup e.id = e.aliasName

/-- A point at which scope and alias table agree. -/
structure VisitOk (D : List Entry) (v : Visit) : Prop where
  scope : ScopeOk D v.scope
  go : ∀ e ∈ v.go, e ∈ v.scope
  table : AliasOk D v.go v.aliases

section

variable {D D' : List Entry} {S S' : Scope} {a : Aliases}

theorem ScopeOk.mono (h : ScopeOk D S) (hD : ∀ e ∈ D, e ∈ D') : ScopeOk D' S :=
  ⟨fun e he => hD e (h.sub e he), h.ptr, h.ok, h.named⟩

theorem AliasOk.mono (h : AliasOk D S a) (hD : ∀ e ∈ D, e ∈ D') : AliasOk D' S a := by
  refine ⟨fun p hp => ?_, h.agrees⟩
  obtain ⟨e, he, heq⟩ := List.mem_map.mp (h.keys p hp)
  exact List.mem_map.mpr ⟨e, hD e he, heq⟩

theorem AliasOk.subset (h : AliasOk D S a) (hS : ∀ e ∈ S', e ∈ S) : AliasOk D S' a :=
  ⟨h.keys, fun e he => h.agrees e (hS e he)⟩

theorem VisitOk.mono {v : Visit} (h : VisitOk D v) (hD : ∀ e ∈ D, e ∈ D') : VisitOk D' v :=
  ⟨h.scope.mono hD, h.go, h.table.mono hD⟩

/-- What is not declared has no alias. -/
theorem AliasOk.lookup_eq_none (h : AliasOk D S a) {id : Ident} (hid : id ∉ D.map Entry.id) :
    a.lookup id = none := by
  cases hl : a.lookup id with
  | none => rfl
  | some w =>
      obtain ⟨l₁, l₂, ha, -⟩ := List.lookup_eq_some_iff.mp hl
      have hmem : (id, w) ∈ a := by
        rw [ha]
        simp
      exact absurd (h.keys _ hmem) hid

/-- Two entries for one identifier are the same. -/
theorem entry_unique (hnodup : (D.map Entry.id).Nodup) {e e' : Entry} (he : e ∈ D)
    (he' : e' ∈ D) (hid : e.id = e'.id) : e = e' :=
  List.inj_on_of_nodup_map hnodup he he' hid

end

/-- The points keep the invariant between the scopes `S` and `S'` and the names `n` and
`n'`. -/
structure Keeps (S : Scope) (n : Names) (vs : List Visit) (n' : Names) (S' : Scope) :
    Prop where
  sub : ∀ e ∈ S, e ∈ S'
  step : ∀ D, ScopeOk D S → AliasOk D S n.aliases → ((D ++ declaredAt vs).map Entry.id).Nodup →
    (∀ v ∈ vs, VisitOk (D ++ declaredAt vs) v) ∧ ScopeOk (D ++ declaredAt vs) S' ∧
      AliasOk (D ++ declaredAt vs) S' n'.aliases

section

variable {S S' S₁ S₂ : Scope} {n n' n₁ n₂ : Names} {vs ws : List Visit}

@[simp] theorem declaredAt_nil : declaredAt [] = [] := rfl

@[simp] theorem declaredAt_append (vs ws : List Visit) :
    declaredAt (vs ++ ws) = declaredAt vs ++ declaredAt ws := List.flatMap_append

theorem declaredAt_singleton (v : Visit) : declaredAt [v] = v.declared := by
  simp [declaredAt]

theorem keeps_nil : Keeps S n [] n S := by
  refine ⟨fun e he => he, fun D hscope halias hnodup => ?_⟩
  rw [declaredAt_nil, List.append_nil]
  exact ⟨by simp, hscope, halias⟩

/-- One piece after another. -/
theorem Keeps.append (hv : Keeps S n vs n₁ S₁) (hw : Keeps S₁ n₁ ws n₂ S₂) :
    Keeps S n (vs ++ ws) n₂ S₂ := by
  refine ⟨fun e he => hw.sub e (hv.sub e he), fun D hscope halias hnodup => ?_⟩
  rw [declaredAt_append, ← List.append_assoc] at hnodup ⊢
  have hnodup₁ : ((D ++ declaredAt vs).map Entry.id).Nodup := by
    rw [List.map_append] at hnodup
    exact hnodup.of_append_left
  obtain ⟨hvs, hS₁, hA₁⟩ := hv.step D hscope halias hnodup₁
  obtain ⟨hws, hS₂, hA₂⟩ := hw.step _ hS₁ hA₁ hnodup
  refine ⟨?_, hS₂, hA₂⟩
  intro v hmem
  rcases List.mem_append.mp hmem with hmem | hmem
  · exact (hvs v hmem).mono fun e he => List.mem_append_left _ he
  · exact hws v hmem

/-- The end of a block. -/
theorem Keeps.close (h : Keeps S n vs n' S') : Keeps S n vs n' S := by
  refine ⟨fun e he => he, fun D hscope halias hnodup => ?_⟩
  obtain ⟨hvs, -, hA⟩ := h.step D hscope halias hnodup
  exact ⟨hvs, hscope.mono fun e he => List.mem_append_left _ he, hA.subset h.sub⟩

/-- Points that are printed under the names before a block and reached after it. -/
theorem Keeps.later (hv : Keeps S n vs n' S₁) (hw : Keeps S n ws n S₂) :
    Keeps S n (vs ++ ws) n' S := by
  refine ⟨fun e he => he, fun D hscope halias hnodup => ?_⟩
  rw [declaredAt_append] at hnodup ⊢
  have hsub : ∀ {X : List Entry}, X.Sublist (declaredAt vs ++ declaredAt ws) →
      ((D ++ X).map Entry.id).Nodup := fun hX =>
    hnodup.sublist ((List.Sublist.append_left hX D).map Entry.id)
  have hleft : ∀ e ∈ D ++ declaredAt vs, e ∈ D ++ (declaredAt vs ++ declaredAt ws) := by
    intro e he
    rw [← List.append_assoc]
    exact List.mem_append_left _ he
  have hright : ∀ e ∈ D ++ declaredAt ws, e ∈ D ++ (declaredAt vs ++ declaredAt ws) := by
    intro e he
    simp only [List.mem_append] at he ⊢
    exact he.imp id .inr
  obtain ⟨hvs, -, hA⟩ := hv.step D hscope halias (hsub (List.sublist_append_left _ _))
  obtain ⟨hws, -, -⟩ := hw.step D hscope halias (hsub (List.sublist_append_right _ _))
  refine ⟨?_, hscope.mono fun e he => List.mem_append_left _ he, (hA.subset hv.sub).mono hleft⟩
  intro v hmem
  rcases List.mem_append.mp hmem with hmem | hmem
  · exact (hvs v hmem).mono hleft
  · exact (hws v hmem).mono hright

/-- A freshly declared identifier. -/
theorem not_mem_of_nodup {D E : List Entry} (h : ((D ++ E).map Entry.id).Nodup) {e : Entry}
    (he : e ∈ E) : e.id ∉ D.map Entry.id := by
  rw [List.map_append] at h
  intro hmem
  exact List.disjoint_of_nodup_append h hmem (List.mem_map_of_mem he)

/-- Entries that stand for themselves. -/
def Plain : Entry → Prop
  | .var d _ => d.ok = none ∧ (d.id.name ≠ ['_'] → d.name = d.id.name)
  | .ok _ _ => False
  | .bare _ => True

theorem Plain.aliasName {e : Entry} (h : Plain e) : e.aliasName = none := by
  cases e with
  | ok id ptr => cases h
  | _ => rfl

/-- The scope after a point that declares only entries that stand for themselves. -/
theorem ScopeOk.plain {D E : List Entry} (h : ScopeOk D S) (hplain : ∀ e ∈ E, Plain e) :
    ScopeOk (D ++ E) (E ++ S) := by
  have hcases : ∀ {e}, e ∈ E ++ S → Plain e ∨ e ∈ S := fun he =>
    (List.mem_append.mp he).imp (hplain _) id
  refine ⟨fun e he => ?_, fun hmem => ?_, fun hmem hok => ?_, fun hmem => ?_⟩
  · rcases List.mem_append.mp he with he | he
    · exact List.mem_append_right _ he
    · exact List.mem_append_left _ (h.sub e he)
  · rcases hcases hmem with hp | hS
    · cases hp
    · obtain ⟨hok, new, hnew⟩ := h.ptr hS
      exact ⟨hok, new, List.mem_append_right _ hnew⟩
  · rcases hcases hmem with hp | hS
    · rw [hp.1] at hok
      cases hok
    · exact List.mem_append_right _ (h.ok hS hok)
  · rcases hcases hmem with hp | hS
    · exact hp.2
    · exact h.named hS

theorem AliasOk.plain {D E : List Entry} {a : Aliases} (h : AliasOk D S a)
    (hnodup : ((D ++ E).map Entry.id).Nodup) (hplain : ∀ e ∈ E, Plain e) :
    AliasOk (D ++ E) (E ++ S) a := by
  refine ⟨(h.mono fun e he => List.mem_append_left _ he).keys, fun e he => ?_⟩
  rcases List.mem_append.mp he with he | he
  · rw [(hplain e he).aliasName]
    exact h.lookup_eq_none (not_mem_of_nodup hnodup he)
  · exact h.agrees e he

/-- A point that declares only entries that stand for themselves. -/
theorem keeps_plain {v : Visit} (henter : v.enter = S) (hgo : ∀ e ∈ v.go, e ∈ v.scope)
    (haliases : v.aliases = n.aliases) (hplain : ∀ e ∈ v.declared, Plain e) :
    Keeps S n [v] n v.scope := by
  have hv : v.scope = v.declared ++ S := by rw [Visit.scope, henter]
  refine ⟨fun e he => ?_, fun D hscope halias hnodup => ?_⟩
  · rw [hv]
    exact List.mem_append_right _ he
  · rw [declaredAt_singleton] at hnodup ⊢
    have hscope' := hscope.plain hplain
    have halias' := halias.plain hnodup hplain
    rw [← hv] at hscope' halias'
    refine ⟨?_, hscope', halias'⟩
    intro w hw
    rw [List.mem_singleton.mp hw]
    refine ⟨hscope', hgo, ?_⟩
    rw [haliases]
    exact halias'.subset hgo

/-- A point that declares nothing. -/
theorem keeps_visit (step : GoStep) : Keeps S n [plainVisit n S step] n S :=
  keeps_plain rfl (fun _ he => he) rfl (by simp [plainVisit])

theorem plain_ordinary (id : Ident) : Plain (.ordinary id) := ⟨rfl, fun _ => rfl⟩

theorem keeps_define (id : Ident) (r : Expr) :
    Keeps S n [defineVisit n S id r] n (.ordinary id :: S) := by
  refine keeps_plain rfl (fun _ he => List.mem_cons_of_mem _ he) rfl ?_
  intro e he
  rw [List.mem_singleton.mp he]
  exact plain_ordinary id

theorem keeps_spec {go : Scope} : ∀ (ids : List Ident) (values : List Expr) {cur : Scope},
    (∀ e ∈ go, e ∈ cur) →
      Keeps cur n (specVisits go n.aliases ids values cur) n (specScope ids cur)
  | [], values, cur, hgo => keeps_nil
  | id :: ids, values, cur, hgo => by
      have hfirst : Keeps cur n
          [⟨go, cur, [.ordinary id], n.aliases, .declare id values.head?⟩] n
          (.ordinary id :: cur) := by
        refine keeps_plain rfl (fun e he => List.mem_cons_of_mem _ (hgo e he)) rfl ?_
        intro e he
        rw [List.mem_singleton.mp he]
        exact plain_ordinary id
      have hrest := keeps_spec ids values.tail fun e he => List.mem_cons_of_mem (.ordinary id) (hgo e he)
      exact hfirst.append hrest

theorem keeps_specs : ∀ (specs : List ValueSpec) {cur : Scope},
    Keeps cur n (specsVisits n.aliases specs cur) n (specsScope specs cur)
  | [], _ => keeps_nil
  | spec :: rest, _ => (keeps_spec spec.names spec.values fun _ he => he).append (keeps_specs rest)

/-- The dropped init clause of an `else if` declares variables without a C declaration. -/
theorem plain_initEntries {prog : Program} {init : Option Stmt} :
    ∀ e ∈ initEntries prog init, Plain e := by
  intro e he
  unfold initEntries at he
  split at he
  · obtain ⟨id, -, hid⟩ := List.mem_filterMap.mp he
    obtain ⟨id', -, rfl⟩ := Option.map_eq_some_iff.mp hid
    trivial
  · cases he

theorem Keeps.names (h : Keeps S n vs n₁ S') (hnames : n₁.aliases = n₂.aliases) :
    Keeps S n vs n₂ S' := by
  refine ⟨h.sub, ?_⟩
  rw [← hnames]
  exact h.step

theorem lhsName_aliases (id : Ident) (kind : Text) : (lhsName n id kind).2.aliases = n.aliases := by
  unfold lhsName
  split_ifs <;> rfl

theorem lhsName_eq {id : Ident} {kind : Text} (h : id.name ≠ ['_']) :
    (lhsName n id kind).1 = id.name := by
  rw [lhsName, if_pos h]

/-- `Defs` maps an identifier to the object that it declares. -/
def DefsOk (prog : Program) : Prop :=
  ∀ id obj, prog.info.defsAt id = some obj → obj.decl = id

section

variable {prog : Program} {v ok : Ident} {fn : Expr}

theorem commaOk_redeclared (h : prog.info.defsAt ok = none) :
    commaOkEntries prog n v ok fn =
        [.var (commaOkDecl prog n v ok fn) (prog.info.defsAt v).isSome] ∧
      (commaOkDecl prog n v ok fn).ok = none ∧
      (commaOkNames prog n v ok fn).aliases = n.aliases := by
  have hnew : newIdent prog ok = none := by
    rw [newIdent, h]
    rfl
  refine ⟨by rw [commaOkEntries, hnew]; rfl, hnew, ?_⟩
  simp only [commaOkNames, aliased, h, lhsName_aliases]

theorem commaOk_declared {obj : Obj} (h : prog.info.defsAt ok = some obj) (hdecl : obj.decl = ok) :
    commaOkEntries prog n v ok fn =
        [.ok ok (commaOkDecl prog n v ok fn),
          .var (commaOkDecl prog n v ok fn) (prog.info.defsAt v).isSome] ∧
      (commaOkDecl prog n v ok fn).ok = some ok ∧
      (commaOkNames prog n v ok fn).aliases =
        (ok, (commaOkDecl prog n v ok fn).name) :: n.aliases := by
  have hnew : newIdent prog ok = some ok := by
    rw [newIdent, h]
    rfl
  refine ⟨by rw [commaOkEntries, hnew]; rfl, hnew, ?_⟩
  simp only [commaOkNames, aliased, h, hdecl, lhsName_aliases]
  rfl

/-- The scope after a comma-ok statement that declares its second result. -/
theorem ScopeOk.commaOk {D : List Entry} {ptr : CDecl} {id : Ident} {new : Bool}
    (h : ScopeOk D S) (hptr : ptr.ok = some id)
    (hnamed : ptr.id.name ≠ ['_'] → ptr.name = ptr.id.name) :
    ScopeOk (D ++ [.ok id ptr, .var ptr new]) ([.ok id ptr, .var ptr new] ++ S) := by
  refine ⟨fun e he => ?_, fun hmem => ?_, fun hmem hok => ?_, fun hmem => ?_⟩
  · rcases List.mem_append.mp he with he | he
    · exact List.mem_append_right _ he
    · exact List.mem_append_left _ (h.sub e he)
  · rcases List.mem_append.mp hmem with hmem | hmem
    · simp only [List.mem_cons, List.not_mem_nil, or_false, reduceCtorEq, Entry.ok.injEq] at hmem
      rw [hmem.1, hmem.2]
      exact ⟨hptr, new, by simp⟩
    · obtain ⟨hok, new', hnew⟩ := h.ptr hmem
      exact ⟨hok, new', List.mem_append_right _ hnew⟩
  · rcases List.mem_append.mp hmem with hmem | hmem
    · simp only [List.mem_cons, List.not_mem_nil, or_false, reduceCtorEq, false_or,
        Entry.var.injEq] at hmem
      rw [hmem.1, hptr] at hok
      rw [hmem.1, Option.some.inj hok]
      exact List.mem_cons_self
    · exact List.mem_append_right _ (h.ok hmem hok)
  · rcases List.mem_append.mp hmem with hmem | hmem
    · simp only [List.mem_cons, List.not_mem_nil, or_false, reduceCtorEq, false_or,
        Entry.var.injEq] at hmem
      rw [hmem.1]
      exact hnamed
    · exact h.named hmem

theorem AliasOk.commaOk {D : List Entry} {a : Aliases} {ptr : CDecl} {id : Ident} {new : Bool}
    (h : AliasOk D S a) (hscope : ScopeOk D S)
    (hnodup : ((D ++ [Entry.ok id ptr, .var ptr new]).map Entry.id).Nodup) :
    AliasOk (D ++ [.ok id ptr, .var ptr new]) ([.ok id ptr, .var ptr new] ++ S)
      ((id, ptr.name) :: a) := by
  have hid : id ∉ D.map Entry.id := not_mem_of_nodup hnodup List.mem_cons_self
  have hne : id ≠ ptr.id := by
    rw [List.map_append] at hnodup
    have hpair := hnodup.of_append_right
    intro heq
    simp [Entry.id, heq] at hpair
  have hother : ∀ k, k ≠ id → List.lookup k ((id, ptr.name) :: a) = a.lookup k := by
    intro k hk
    rw [List.lookup_cons, beq_eq_false_iff_ne.mpr hk]
  refine ⟨?_, ?_⟩
  · intro p hp
    rcases List.mem_cons.mp hp with rfl | hp
    · simp [Entry.id]
    · exact (h.mono fun e he => List.mem_append_left _ he).keys p hp
  · intro e he
    rcases List.mem_append.mp he with he | he
    · simp only [List.mem_cons, List.not_mem_nil, or_false] at he
      rcases he with rfl | rfl
      · exact List.lookup_cons_self
      · show List.lookup ptr.id _ = none
        rw [hother _ hne.symm]
        exact h.lookup_eq_none (not_mem_of_nodup hnodup (List.mem_cons_of_mem _ List.mem_cons_self))
    · have hmem : e.id ∈ D.map Entry.id := List.mem_map_of_mem (hscope.sub e he)
      rw [hother]
      · exact h.agrees e he
      · intro heq
        rw [heq] at hmem
        exact hid hmem

/-- A comma-ok statement keeps the table in step with the scope. -/
theorem keeps_commaOk (args : List Expr) (hdefs : DefsOk prog) :
    Keeps S n [⟨S, S, commaOkEntries prog n v ok fn, n.aliases, .commaOk v ok fn args⟩]
      (commaOkNames prog n v ok fn) (commaOkEntries prog n v ok fn ++ S) := by
  have hnamed : v.name ≠ ['_'] → (commaOkDecl prog n v ok fn).name = v.name := lhsName_eq
  cases hok : prog.info.defsAt ok with
  | none =>
      obtain ⟨hentries, hptr, haliases⟩ := @commaOk_redeclared n prog v ok fn hok
      refine Keeps.names ?_ haliases.symm
      refine keeps_plain rfl (fun e he => List.mem_append_right _ he) rfl ?_
      intro e he
      rw [hentries, List.mem_singleton] at he
      rw [he]
      exact ⟨hptr, hnamed⟩
  | some obj =>
      obtain ⟨hentries, hptr, haliases⟩ := @commaOk_declared n prog v ok fn obj hok (hdefs ok obj hok)
      rw [hentries]
      refine ⟨fun e he => List.mem_append_right _ he, fun D hscope halias hnodup => ?_⟩
      rw [declaredAt_singleton] at hnodup ⊢
      have hscope' := @ScopeOk.commaOk S D (commaOkDecl prog n v ok fn) ok
        (prog.info.defsAt v).isSome hscope hptr hnamed
      have halias' := halias.commaOk hscope hnodup
      rw [← haliases] at halias'
      refine ⟨?_, hscope', halias'⟩
      intro w hw
      rw [List.mem_singleton.mp hw]
      exact ⟨hscope', fun e he => List.mem_append_right _ he,
        halias.mono fun e he => List.mem_append_left _ he⟩

end

/-! ## Statements -/

/-- A walk keeps the invariant. -/
def Walk.Keeps (w : Walk) (S : Scope) (n : Names) : Prop :=
  Gobee.Keeps S n w.course.items w.names w.scope

theorem keeps_oneWalk {v : Visit} (h : Keeps S n [v] n' v.scope) :
    (oneWalk n' v).Keeps S n := by
  unfold Walk.Keeps oneWalk
  rw [Course.items_ofList]
  exact h

theorem keeps_skip : (Walk.mk .skip n S).Keeps S n := keeps_nil

theorem keeps_single (l : Expr) (tok : AssignTok) (r : Expr) :
    (visitWalk n S (singleVisit n S l tok r)).Keeps S n := by
  unfold singleVisit
  split_ifs
  · cases identOf l with
    | none => exact keeps_skip
    | some id => exact keeps_oneWalk (keeps_define id r)
  · exact keeps_oneWalk (keeps_visit (.assign l tok r))

theorem keeps_clause (s : Stmt) :
    (clauseWalk n S s).Keeps S n ∧ (clauseWalk n S s).names = n := by
  have hnames : ∀ o : Option Visit, (visitWalk n S o).names = n := by
    intro o
    cases o <;> rfl
  unfold clauseWalk
  split
  · exact ⟨keeps_single _ _ _, hnames _⟩
  · exact ⟨keeps_oneWalk (keeps_visit _), rfl⟩
  · exact ⟨keeps_skip, rfl⟩

section

variable {prog : Program}

theorem keeps_assign (hdefs : DefsOk prog) (lhs : List Expr) (tok : AssignTok) (rhs : List Expr) :
    (assignWalk prog n S lhs tok rhs).Keeps S n := by
  unfold assignWalk
  split
  · unfold commaOkWalk
    split
    · exact keeps_oneWalk (keeps_commaOk _ hdefs)
    · exact keeps_skip
  · exact keeps_single _ _ _
  · exact keeps_skip

mutual
theorem keeps_stmt (hdefs : DefsOk prog) : ∀ (s : Stmt) (n : Names) (S : Scope),
    (stmtWalk prog s n S).Keeps S n
  | .decl pos tok specs, n, S => by
      unfold Walk.Keeps stmtWalk
      rw [Course.items_ofList]
      exact keeps_specs specs
  | .assign lhs tok rhs, n, S => keeps_assign hdefs lhs tok rhs
  | .ifs pos init cond body els, n, S => by
      have hbody := (keeps_block hdefs body n S).close
      have helse := keeps_else hdefs els (blockWalk prog body n S).names S
      exact (keeps_visit (.cond cond)).append (hbody.append helse)
  | .ret pos results, n, S => by
      unfold Walk.Keeps stmtWalk
      rw [Course.items, Course.items_ofList]
      exact (keeps_visit _).append keeps_nil
  | .expr x, n, S => keeps_oneWalk (keeps_visit _)
  | .fors pos init cond post body, n, S => by
      rcases init with _ | i
      · exact keeps_skip
      · rcases cond with _ | c
        · exact keeps_skip
        · rcases post with _ | p
          · exact keeps_skip
          · obtain ⟨hinit, hnames⟩ := @keeps_clause S n i
            unfold Walk.Keeps at hinit
            rw [hnames] at hinit
            obtain ⟨hpost, hnames'⟩ := @keeps_clause (clauseWalk n S i).scope n p
            unfold Walk.Keeps at hpost
            rw [hnames'] at hpost
            have hbody := keeps_block hdefs body n (clauseWalk n S i).scope
            have hloop := (keeps_visit (.cond c)).append (hbody.later hpost)
            exact (hinit.append hloop).close
  | .block pos list, n, S => (keeps_block hdefs list n S).close
  | .incDec x inc, n, S => keeps_oneWalk (keeps_visit _)
  | .other kind pos children, n, S => keeps_skip

/-- **Along a block the alias table agrees with the scope.** -/
theorem keeps_block (hdefs : DefsOk prog) : ∀ (list : List Stmt) (n : Names) (S : Scope),
    (blockWalk prog list n S).Keeps S n
  | [], n, S => keeps_nil
  | s :: rest, n, S => by
      have hs := keeps_stmt hdefs s n S
      have hrest := keeps_block hdefs rest (stmtWalk prog s n S).names (stmtWalk prog s n S).scope
      exact Gobee.Keeps.append hs hrest

theorem keeps_else (hdefs : DefsOk prog) : ∀ (els : Option Stmt) (n : Names) (S : Scope),
    Gobee.Keeps S n (elseWalk prog els n S).course.items (elseWalk prog els n S).names S
  | none, n, S => keeps_nil
  | some (.ifs pos init cond body els), n, S => by
      have hcond : Gobee.Keeps S n
          [⟨initEntries prog init ++ S, S, initEntries prog init, n.aliases, .cond cond⟩] n
          (initEntries prog init ++ S) :=
        keeps_plain rfl (fun e he => he) rfl plain_initEntries
      have hbody := keeps_block hdefs body n (initEntries prog init ++ S)
      exact (hcond.append (Gobee.Keeps.append hbody keeps_nil)).close
  | some (.block pos list), n, S => (keeps_block hdefs list n S).close
  | some (.decl _ _ _), _, _ => keeps_nil
  | some (.assign _ _ _), _, _ => keeps_nil
  | some (.ret _ _), _, _ => keeps_nil
  | some (.expr _), _, _ => keeps_nil
  | some (.fors _ _ _ _ _), _, _ => keeps_nil
  | some (.incDec _ _), _, _ => keeps_nil
  | some (.other _ _ _), _, _ => keeps_nil
end

end

end

/-! ## Functions -/

/-- The names of a parameter or result list. -/
def fieldIds (fields : Option FieldList) : List Ident := (fieldsOf fields).flatMap Field.names

/-- The C parameters of a function. -/
def paramDecls (fd : FuncDecl) : List CDecl :=
  (fieldIds fd.params).map fun id => ⟨id.name, id, none⟩

/-- The scope at the start of a function: a receiver or a result has no C declaration. -/
def entryScope (fd : FuncDecl) : Scope :=
  (fieldIds fd.params).map .ordinary ++ (fieldIds fd.recv ++ fieldIds fd.results).map .bare

/-- The statements of a function. -/
def bodyOf (fd : FuncDecl) : List Stmt := (fd.body.map Body.list).getD []

/-- The walk along a function. -/
def funcWalk (prog : Program) (fd : FuncDecl) (n : Names) : Walk :=
  blockWalk prog (bodyOf fd) n (entryScope fd)

/-- The walks along some functions, with the names of the emitter handed on. -/
def funcWalks (prog : Program) : List FuncDecl → Names → List (FuncDecl × Walk)
  | [], _ => []
  | fd :: rest, n =>
      (fd, funcWalk prog fd n) :: funcWalks prog rest (funcWalk prog fd n).names

/-- What some functions declare. -/
def boundBy (ws : List (FuncDecl × Walk)) : List Entry :=
  ws.flatMap fun w => entryScope w.1 ++ declaredAt w.2.course.items

/-- The walks along all emitted functions. -/
def programWalks (prog : Program) : List (FuncDecl × Walk) :=
  funcWalks prog (emittedFuncs prog) ⟨[], 0⟩

section

variable {prog : Program}

theorem decls_entryScope (fd : FuncDecl) : decls (entryScope fd) = paramDecls fd := by
  have hbare : ∀ ids : List Ident, decls (ids.map .bare) = [] := by
    intro ids
    induction ids with
    | nil => rfl
    | cons id ids ih => exact ih
  have hvar : ∀ ids : List Ident, decls (ids.map .ordinary) =
      ids.map fun id => ⟨id.name, id, none⟩ := by
    intro ids
    induction ids with
    | nil => rfl
    | cons id ids ih =>
        rw [List.map_cons, List.map_cons, ← ih]
        rfl
  rw [entryScope, decls_append, hbare, hvar, List.append_nil]
  rfl

theorem plain_entryScope (fd : FuncDecl) : ∀ e ∈ entryScope fd, Plain e := by
  intro e he
  rcases List.mem_append.mp he with he | he
  · obtain ⟨id, -, rfl⟩ := List.mem_map.mp he
    exact plain_ordinary id
  · obtain ⟨id, -, rfl⟩ := List.mem_map.mp he
    trivial

theorem map_fst_funcWalks (fds : List FuncDecl) (n : Names) :
    (funcWalks prog fds n).map Prod.fst = fds := by
  induction fds generalizing n with
  | nil => rfl
  | cons fd rest ih => rw [funcWalks, List.map_cons, ih]

/-- The emitted functions and the walks along them agree. -/
theorem rel_funcWalks : ∀ {fds : List FuncDecl} {n n' : Names} {trees : List (List CStmt)},
    functionTrees prog fds n = some (trees, n') →
      List.Forall₂ (fun w cs => Course.Rel (Shows prog) w.2.course
        (blockCourse prog cs (paramDecls w.1)).1) (funcWalks prog fds n) trees
  | [], n, n', trees, h => by
      cases h
      exact .nil
  | fd :: rest, n, n', trees, h => by
      obtain ⟨body, cs, n₁, css, hbody, hcs, hcss, rfl⟩ := functionTrees_cons.mp h
      have hwalk := rel_blockWalk prog body.list (entryScope fd) hcs
      have heq : funcWalk prog fd n = blockWalk prog body.list n (entryScope fd) := by
        rw [funcWalk, bodyOf, hbody]
        rfl
      rw [decls_entryScope, ← heq] at hwalk
      refine .cons hwalk.course ?_
      rw [hwalk.names]
      exact rel_funcWalks hcss

/-- At every point of every function the alias table agrees with the scope. -/
theorem visitOk_funcWalks (hdefs : DefsOk prog) :
    ∀ {fds : List FuncDecl} {n : Names} {D : List Entry}, AliasOk D [] n.aliases →
      ((D ++ boundBy (funcWalks prog fds n)).map Entry.id).Nodup →
        ∀ w ∈ funcWalks prog fds n, ∀ v ∈ w.2.course.items,
          VisitOk (D ++ boundBy (funcWalks prog fds n)) v
  | [], n, D, halias, hnodup, w, hw => by cases hw
  | fd :: rest, n, D, halias, hnodup, w, hw => by
      have hbound : D ++ boundBy (funcWalks prog (fd :: rest) n) =
          (D ++ entryScope fd ++ declaredAt (funcWalk prog fd n).course.items) ++
            boundBy (funcWalks prog rest (funcWalk prog fd n).names) := by
        simp [funcWalks, boundBy]
      rw [hbound] at hnodup ⊢
      have hnodup₁ := hnodup
      rw [List.map_append] at hnodup₁
      have hnodup₂ := hnodup₁.of_append_left
      have hnodup₃ := hnodup₂
      rw [List.map_append] at hnodup₃
      have hscope : ScopeOk D [] := ⟨by simp, by simp, by simp, by simp⟩
      have hentry := hscope.plain (plain_entryScope fd)
      have hentry' := halias.plain hnodup₃.of_append_left (plain_entryScope fd)
      rw [List.append_nil] at hentry hentry'
      obtain ⟨hvisits, -, hafter⟩ :=
        (keeps_block hdefs (bodyOf fd) n (entryScope fd)).step _ hentry hentry' hnodup₂
      rcases List.mem_cons.mp hw with rfl | hw
      · intro v hv
        exact (hvisits v hv).mono fun e he => List.mem_append_left _ he
      · exact visitOk_funcWalks hdefs (hafter.subset (by simp)) hnodup w hw

end

end Gobee
