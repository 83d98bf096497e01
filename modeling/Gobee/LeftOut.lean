/-
# What of a function body is left out

Not every part of a Go function is emitted: `writeIfStmt` drops the init clause and the
else of an `else if`, and some forms of call leave out an argument, such as the context of
a redirect.  This module lists the nodes of the parts that are left out.

* `accounted_functions` : **every call in an emitted body is printed, or reserves a record, or
  stands in a part that is left out.**
-/
import Gobee.Functions

namespace Gobee

/-! ## The parts that are left out -/

mutual
/-- The nodes of an expression that are left out. -/
def exprLeftOut (prog : Program) : Expr → List Node
  | .selector x sel =>
      if (bpfConstant prog x sel).isSome then inspectExpr x else exprLeftOut prog x
  | .unary _ _ x => exprLeftOut prog x
  | .binary x _ y => exprLeftOut prog x ++ exprLeftOut prog y
  | .call fn args =>
      (match callForm prog fn args.length with
        | .user => exprLeftOut prog fn
        -- the name of a helper replaces the callee
        | _ => inspectExpr fn) ++
      argsLeftOut prog ((callForm prog fn args.length).used args.length) 0 args
  | .paren _ x => exprLeftOut prog x
  | .index x i => exprLeftOut prog x ++ exprLeftOut prog i
  | .star _ x => exprLeftOut prog x
  | _ => []

/-- The nodes of some arguments that are left out, where only those at the positions `used`
are printed; `i` is the position of the first. -/
def argsLeftOut (prog : Program) (used : List Nat) : Nat → List Expr → List Node
  | _, [] => []
  | i, e :: rest =>
      (if i ∈ used then exprLeftOut prog e else inspectExpr e) ++
        argsLeftOut prog used (i + 1) rest
end

/-- The nodes of some printed expressions that are left out. -/
def exprsLeftOut (prog : Program) (es : List Expr) : List Node := es.flatMap (exprLeftOut prog)

/-- The nodes left out of the right side of a comma-ok statement. -/
def commaOkLeftOut (prog : Program) (rhs : Expr) : List Node :=
  match rhs with
  | .call fn args =>
      match mapLookupCall prog fn, ringbufReserveCall prog fn with
      | none, some _ => inspectExpr fn ++ inspectExprs args
      | _, _ => exprLeftOut prog (.call fn args)
  | _ => []

/-- The nodes left out of an assignment. -/
def assignLeftOut (prog : Program) (lhs : List Expr) (rhs : List Expr) : List Node :=
  match lhs, rhs with
  | [_, _], [r] => commaOkLeftOut prog r
  | [l], [r] => exprLeftOut prog l ++ exprLeftOut prog r
  | _, _ => []

/-- The nodes left out of a clause of a `for`. -/
def clauseLeftOut (prog : Program) : Stmt → List Node
  | .assign [l] _ [r] => exprLeftOut prog l ++ exprLeftOut prog r
  | .incDec x _ => exprLeftOut prog x
  | _ => []

/-- The nodes left out of an optional clause of a `for`. -/
def clauseLeftOut? (prog : Program) : Option Stmt → List Node
  | some s => clauseLeftOut prog s
  | none => []

/-- The nodes left out of a specification: its type is printed from what the type checker
says. -/
def specLeftOut (prog : Program) : ValueSpec → List Node
  | .mk names type values =>
      inspectExpr? type ++ (exprsLeftOut prog (values.take names.length) ++
        inspectExprs (values.drop names.length))

mutual
/-- The nodes left out of a statement. -/
def stmtLeftOut (prog : Program) : Stmt → List Node
  | .decl _ _ specs => specs.flatMap (specLeftOut prog)
  | .assign lhs _ rhs => assignLeftOut prog lhs rhs
  | .ifs _ _ cond body els =>
      exprLeftOut prog cond ++ (blockLeftOut prog body ++ elseLeftOut prog els)
  | .ret _ results => exprsLeftOut prog results
  | .expr x => exprLeftOut prog x
  | .fors _ init cond post body =>
      clauseLeftOut? prog init ++ (exprsLeftOut prog cond.toList ++
        (clauseLeftOut? prog post ++ blockLeftOut prog body))
  | .block _ list => blockLeftOut prog list
  | .incDec x _ => exprLeftOut prog x
  | .other _ _ _ => []

/-- The nodes left out of a list of statements. -/
def blockLeftOut (prog : Program) : List Stmt → List Node
  | [] => []
  | s :: rest => stmtLeftOut prog s ++ blockLeftOut prog rest

/-- The nodes left out of an else clause. -/
def elseLeftOut (prog : Program) : Option Stmt → List Node
  -- `else if init; cond { body } else { els }` is emitted without `init` and `els`
  | some (.ifs _ init cond body els) =>
      inspectStmt? init ++ (exprLeftOut prog cond ++ (blockLeftOut prog body ++ inspectStmt? els))
  | some (.block _ list) => blockLeftOut prog list
  | _ => []
end

/-- The nodes left out of a function. -/
def funcLeftOut (prog : Program) (fd : FuncDecl) : List Node :=
  match fd.body with
  | none => []
  | some body => blockLeftOut prog body.list

/-! ## What is left out stands in the syntax tree -/

section

variable {prog : Program} {nd : Node}

mutual
theorem exprLeftOut_inspect : ∀ {e : Expr}, nd ∈ exprLeftOut prog e → nd ∈ inspectExpr e
  | .basicLit _ _ _, h | .ident _, h | .other _ _ _, h => by cases h
  | .selector x sel, h => by
      rw [exprLeftOut] at h
      have hx : nd ∈ inspectExpr x := by
        split_ifs at h
        · exact h
        · exact exprLeftOut_inspect h
      simp [inspectExpr, hx]
  | .unary _ _ x, h | .paren _ x, h | .star _ x, h =>
      List.mem_cons_of_mem _ (exprLeftOut_inspect (e := x) h)
  | .binary x _ y, h | .index x y, h => by
      rw [exprLeftOut, List.mem_append] at h
      exact List.mem_cons_of_mem _
        (List.mem_append.mpr (h.imp exprLeftOut_inspect exprLeftOut_inspect))
  | .call fn args, h => by
      rw [exprLeftOut, List.mem_append] at h
      refine List.mem_cons_of_mem _ (List.mem_append.mpr (h.imp (fun h => ?_) argsLeftOut_inspect))
      split at h
      · exact exprLeftOut_inspect h
      · exact h

theorem argsLeftOut_inspect : ∀ {es : List Expr} {used : List Nat} {k : Nat},
    nd ∈ argsLeftOut prog used k es → nd ∈ inspectExprs es
  | [], used, k, h => by cases h
  | e :: rest, used, k, h => by
      rw [argsLeftOut, List.mem_append] at h
      rw [inspectExprs, List.mem_append]
      refine h.imp (fun h => ?_) argsLeftOut_inspect
      split_ifs at h
      · exact exprLeftOut_inspect h
      · exact h
end

theorem exprsLeftOut_inspect {es : List Expr} (h : nd ∈ exprsLeftOut prog es) :
    nd ∈ inspectExprs es := by
  obtain ⟨e, he, h⟩ := List.mem_flatMap.mp h
  rw [inspectExprs_eq_flatMap]
  exact List.mem_flatMap.mpr ⟨e, he, exprLeftOut_inspect h⟩

theorem commaOkLeftOut_inspect {e : Expr} (h : nd ∈ commaOkLeftOut prog e) :
    nd ∈ inspectExpr e := by
  unfold commaOkLeftOut at h
  split at h
  · split at h
    · exact List.mem_cons_of_mem _ h
    · exact exprLeftOut_inspect h
  · cases h

theorem assignLeftOut_inspect {lhs rhs : List Expr} {tok : AssignTok}
    (h : nd ∈ assignLeftOut prog lhs rhs) : nd ∈ inspectStmt (.assign lhs tok rhs) := by
  unfold assignLeftOut at h
  split at h
  · simp [inspectStmt, inspectExprs, commaOkLeftOut_inspect h]
  · rcases List.mem_append.mp h with h | h
    · simp [inspectStmt, inspectExprs, exprLeftOut_inspect h]
    · simp [inspectStmt, inspectExprs, exprLeftOut_inspect h]
  · cases h

theorem clauseLeftOut_inspect {s : Stmt} (h : nd ∈ clauseLeftOut prog s) : nd ∈ inspectStmt s := by
  unfold clauseLeftOut at h
  split at h
  · exact assignLeftOut_inspect h
  · exact List.mem_cons_of_mem _ (exprLeftOut_inspect h)
  · cases h

theorem clauseLeftOut?_inspect {s : Option Stmt} (h : nd ∈ clauseLeftOut? prog s) :
    nd ∈ inspectStmt? s := by
  cases s with
  | none => cases h
  | some s => exact clauseLeftOut_inspect h

theorem specLeftOut_inspect {spec : ValueSpec} (h : nd ∈ specLeftOut prog spec) :
    nd ∈ inspectSpec spec := by
  obtain ⟨names, type, values⟩ := spec
  have hsub : ∀ {es : List Expr}, es ⊆ values → nd ∈ inspectExprs es → nd ∈ inspectExprs values := by
    intro es hes h
    rw [inspectExprs_eq_flatMap] at h ⊢
    obtain ⟨e, he, h⟩ := List.mem_flatMap.mp h
    exact List.mem_flatMap.mpr ⟨e, hes he, h⟩
  rw [specLeftOut, List.mem_append, List.mem_append] at h
  rw [inspectSpec, List.append_assoc, List.mem_append, List.mem_append]
  rcases h with h | h | h
  · exact .inr (.inl h)
  · exact .inr (.inr (hsub (List.take_subset _ _) (exprsLeftOut_inspect h)))
  · exact .inr (.inr (hsub (List.drop_subset _ _) h))

theorem specsLeftOut_inspect {specs : List ValueSpec} (h : nd ∈ specs.flatMap (specLeftOut prog)) :
    nd ∈ inspectSpecs specs := by
  induction specs with
  | nil => cases h
  | cons spec rest ih =>
      rw [List.flatMap_cons, List.mem_append] at h
      rw [inspectSpecs, List.mem_append]
      exact h.imp specLeftOut_inspect ih

mutual
theorem stmtLeftOut_inspect : ∀ {s : Stmt}, nd ∈ stmtLeftOut prog s → nd ∈ inspectStmt s
  | .decl _ _ specs, h => List.mem_cons_of_mem _ (specsLeftOut_inspect h)
  | .assign lhs tok rhs, h => assignLeftOut_inspect h
  | .ifs _ init cond body els, h => by
      rw [stmtLeftOut, List.mem_append, List.mem_append] at h
      rcases h with h | h | h
      · simp [inspectStmt, exprLeftOut_inspect h]
      · simp [inspectStmt, blockLeftOut_inspect h]
      · simp [inspectStmt, elseLeftOut_inspect h]
  | .ret _ results, h => List.mem_cons_of_mem _ (exprsLeftOut_inspect h)
  | .expr x, h => List.mem_cons_of_mem _ (exprLeftOut_inspect h)
  | .fors _ init cond post body, h => by
      rw [stmtLeftOut, List.mem_append, List.mem_append, List.mem_append] at h
      rcases h with h | h | h | h
      · simp [inspectStmt, clauseLeftOut?_inspect h]
      · have hcond : nd ∈ inspectExpr? cond := by
          cases cond with
          | none => cases h
          | some c =>
              have hc := exprsLeftOut_inspect h
              simpa [inspectExprs, inspectExpr?] using hc
        simp [inspectStmt, hcond]
      · simp [inspectStmt, clauseLeftOut?_inspect h]
      · simp [inspectStmt, blockLeftOut_inspect h]
  | .block _ list, h => List.mem_cons_of_mem _ (blockLeftOut_inspect h)
  | .incDec x _, h => List.mem_cons_of_mem _ (exprLeftOut_inspect h)
  | .other _ _ _, h => by cases h

/-- What is left out of a block stands in it. -/
theorem blockLeftOut_inspect : ∀ {list : List Stmt}, nd ∈ blockLeftOut prog list →
    nd ∈ inspectStmts list
  | [], h => by cases h
  | s :: rest, h => by
      rw [blockLeftOut, List.mem_append] at h
      rw [inspectStmts, List.mem_append]
      exact h.imp stmtLeftOut_inspect blockLeftOut_inspect

theorem elseLeftOut_inspect : ∀ {els : Option Stmt}, nd ∈ elseLeftOut prog els →
    nd ∈ inspectStmt? els
  | none, h => by cases h
  | some (.ifs _ init cond body els), h => by
      rw [elseLeftOut, List.mem_append, List.mem_append, List.mem_append] at h
      rcases h with h | h | h | h
      · simp [inspectStmt?, inspectStmt, h]
      · simp [inspectStmt?, inspectStmt, exprLeftOut_inspect h]
      · simp [inspectStmt?, inspectStmt, blockLeftOut_inspect h]
      · simp [inspectStmt?, inspectStmt, h]
  | some (.block _ list), h => List.mem_cons_of_mem _ (blockLeftOut_inspect h)
  | some (.decl _ _ _), h | some (.assign _ _ _), h | some (.ret _ _), h | some (.expr _), h
  | some (.fors _ _ _ _ _), h | some (.incDec _ _), h | some (.other _ _ _), h => by cases h
end

end

/-! ## Calls are printed or left out -/

section

variable {prog : Program} {aliases : Aliases} {fn : Expr} {args : List Expr}

/-- A call in a call is printed or left out, if this holds for the callee and for the
arguments. -/
theorem call_call {fn' : Expr} {args' : List Expr} {t : CTree}
    (hfn : ∀ f, exprTree prog aliases fn' = .ok f → .expr (.call fn args) ∈ inspectExpr fn' →
      .call fn args ∈ printed prog fn' ∨ .expr (.call fn args) ∈ exprLeftOut prog fn')
    (hargs : ∀ {used : List Nat} {k : Nat},
      (∀ i, k + i ∈ used → ∃ a, argTree (nodeTrees prog aliases args') i = .ok a) →
      .expr (.call fn args) ∈ inspectExprs args' →
      (∃ i, k + i ∈ used ∧ .call fn args ∈ ((printedEach prog args')[i]?).getD []) ∨
        .expr (.call fn args) ∈ argsLeftOut prog used k args')
    (hprints : (callForm prog fn' args'.length).Prints (exprTree prog aliases fn')
      (nodeTrees prog aliases args') t)
    (h : .expr (.call fn args) ∈ inspectExpr (.call fn' args')) :
    .call fn args ∈ printed prog (.call fn' args') ∨
      .expr (.call fn args) ∈ exprLeftOut prog (.call fn' args') := by
  rw [printed, exprLeftOut]
  rcases List.mem_cons.mp h with h | h
  · cases h
    exact .inl List.mem_cons_self
  · rcases List.mem_append.mp h with h | h
    · split
      · rename_i hform
        rw [hform] at hprints
        obtain ⟨f, as, hf, -, -⟩ := hprints
        refine (hfn f hf h).imp (fun h => List.mem_cons_of_mem _ ?_) (List.mem_append_left _)
        exact List.mem_append_left _ (by rwa [hform])
      · exact .inr (List.mem_append_left _ h)
    · have hused : ∀ i, 0 + i ∈ (callForm prog fn' args'.length).used args'.length →
          ∃ a, argTree (nodeTrees prog aliases args') i = .ok a :=
        fun i hi => argTree_of_used hprints (by rwa [Nat.zero_add] at hi)
      refine (hargs hused h).imp (fun ⟨i, hi, h⟩ => List.mem_cons_of_mem _ ?_)
        (List.mem_append_right _)
      refine List.mem_append_right _ (List.mem_flatMap.mpr ⟨i, ?_, h⟩)
      rwa [length_printedEach, ← Nat.zero_add i]

mutual
/-- A call in a printed expression is printed or left out. -/
theorem call_expr : ∀ {e : Expr} {t : CTree}, exprTree prog aliases e = .ok t →
    .expr (.call fn args) ∈ inspectExpr e →
    .call fn args ∈ printed prog e ∨ .expr (.call fn args) ∈ exprLeftOut prog e
  | .basicLit _ _ _, t, _, h | .ident _, t, _, h => by cases List.mem_singleton.mp h
  | .selector x sel, t, ht, h => by
      rcases List.mem_cons.mp h with h | h
      · cases h
      · rcases List.mem_append.mp h with h | h
        · rw [printed, exprLeftOut]
          -- a folded constant prints no part of its operand
          rcases selectorTree_ok ht with ⟨c, hc, -⟩ | ⟨hc, b, hb, -⟩
          · rw [hc]
            exact .inr h
          · rw [hc]
            exact (call_expr hb h).imp_left (List.mem_cons_of_mem _)
        · cases List.mem_singleton.mp h
  | .unary _ _ x, t, ht, h => by
      obtain ⟨inner, hinner, -⟩ := bind_ok ht
      rcases List.mem_cons.mp h with h | h
      · cases h
      · exact (call_expr hinner h).imp_left (List.mem_cons_of_mem _)
  | .binary x _ y, t, ht, h => by
      obtain ⟨l, hl, ht⟩ := bind_ok ht
      obtain ⟨r, hr, -⟩ := bind_ok ht
      rw [printed, exprLeftOut]
      rcases List.mem_cons.mp h with h | h
      · cases h
      · rcases List.mem_append.mp h with h | h
        · exact (call_expr hl h).imp (fun h => by simp [h]) (fun h => by simp [h])
        · exact (call_expr hr h).imp (fun h => by simp [h]) (fun h => by simp [h])
  | .call fn' args', t, ht, h => by
      have hprints := callTree_prints ht
      rw [length_nodeTrees] at hprints
      exact call_call (fun f hf => call_expr hf) call_args hprints h
  | .paren _ x, t, ht, h => by
      obtain ⟨inner, hinner, -⟩ := bind_ok ht
      rcases List.mem_cons.mp h with h | h
      · cases h
      · exact (call_expr hinner h).imp_left (List.mem_cons_of_mem _)
  | .index x i, t, ht, h => by
      obtain ⟨base, hbase, ht⟩ := bind_ok ht
      obtain ⟨idx, hidx, -⟩ := bind_ok ht
      rw [printed, exprLeftOut]
      rcases List.mem_cons.mp h with h | h
      · cases h
      · rcases List.mem_append.mp h with h | h
        · exact (call_expr hbase h).imp (fun h => by simp [h]) (fun h => by simp [h])
        · exact (call_expr hidx h).imp (fun h => by simp [h]) (fun h => by simp [h])
  | .star _ x, t, ht, h => by
      obtain ⟨inner, hinner, -⟩ := bind_ok ht
      rcases List.mem_cons.mp h with h | h
      · cases h
      · exact (call_expr hinner h).imp_left (List.mem_cons_of_mem _)
  | .other _ _ _, t, ht, _ => by cases ht

/-- A call in an argument is printed, if the argument is, or left out. -/
theorem call_args : ∀ {es : List Expr} {used : List Nat} {k : Nat},
    (∀ i, k + i ∈ used → ∃ a, argTree (nodeTrees prog aliases es) i = .ok a) →
    .expr (.call fn args) ∈ inspectExprs es →
    (∃ i, k + i ∈ used ∧ .call fn args ∈ ((printedEach prog es)[i]?).getD []) ∨
      .expr (.call fn args) ∈ argsLeftOut prog used k es
  | [], used, k, _, h => by cases h
  | e :: rest, used, k, hused, h => by
      rw [argsLeftOut]
      rcases List.mem_append.mp h with h | h
      · by_cases hk : k ∈ used
        · obtain ⟨a, ha⟩ := hused 0 hk
          rw [if_pos hk]
          exact (call_expr ha h).imp (fun h => ⟨0, hk, h⟩) (List.mem_append_left _)
        · rw [if_neg hk]
          exact .inr (List.mem_append_left _ h)
      · have hrest : ∀ i, k + 1 + i ∈ used → ∃ a, argTree (nodeTrees prog aliases rest) i = .ok a := by
          intro i hi
          exact hused (i + 1) (by rwa [Nat.add_assoc, Nat.add_comm 1] at hi)
        refine (call_args hrest h).imp (fun ⟨i, hi, h⟩ => ⟨i + 1, ?_, h⟩) (List.mem_append_right _)
        rwa [Nat.add_comm i, ← Nat.add_assoc]
end

/-- A call is printed, or reserves a record, or stands in a part that is left out. -/
def Accounted (prog : Program) (nodes : List PNode) (left : List Node) (fn : Expr)
    (args : List Expr) : Prop :=
  .expr (.call fn args) ∈ nodes ∨ .expr (.call fn args) ∈ left ∨
    ∃ buf valType, ringbufReserveCall prog fn = some (buf, valType) ∧
      .reserve buf ((goTypeToC valType).toOption.getD []) ∈ nodes

variable {ms ns : List PNode} {ls rs : List Node}

theorem Accounted.mono (h : Accounted prog ms ls fn args) (hn : ms ⊆ ns) (hl : ls ⊆ rs) :
    Accounted prog ns rs fn args := by
  rcases h with h | h | ⟨buf, valType, hcall, h⟩
  · exact .inl (hn h)
  · exact .inr (.inl (hl h))
  · exact .inr (.inr ⟨buf, valType, hcall, hn h⟩)

theorem Accounted.append_left (h : Accounted prog ms ls fn args) :
    Accounted prog (ms ++ ns) (ls ++ rs) fn args :=
  h.mono (List.subset_append_left _ _) (List.subset_append_left _ _)

theorem Accounted.append_right (h : Accounted prog ns rs fn args) :
    Accounted prog (ms ++ ns) (ls ++ rs) fn args :=
  h.mono (List.subset_append_right _ _) (List.subset_append_right _ _)

theorem Accounted.left (h : .expr (.call fn args) ∈ ls) : Accounted prog ms ls fn args := .inr (.inl h)

theorem accounted_expr {n : Names} {e : Expr} {t : CTree} (ht : treeOf prog n e = some t)
    (h : .expr (.call fn args) ∈ inspectExpr e) :
    Accounted prog (exprNodes prog e) (exprLeftOut prog e) fn args :=
  (call_expr (exprTree_of_treeOf ht) h).imp List.mem_map_of_mem .inl

theorem accounted_exprs {n : Names} : ∀ {es : List Expr}, (∀ e ∈ es, ∃ t, treeOf prog n e = some t) →
    .expr (.call fn args) ∈ inspectExprs es →
    Accounted prog (exprsNodes prog es) (exprsLeftOut prog es) fn args
  | [], _, h => by cases h
  | e :: rest, hes, h => by
      obtain ⟨⟨t, ht⟩, hrest⟩ := List.forall_mem_cons.mp hes
      rcases List.mem_append.mp h with h | h
      · exact (accounted_expr ht h).append_left
      · exact (accounted_exprs hrest h).append_right

/-- The values that are printed have trees. -/
theorem values_ok {n : Names} : ∀ {ids : List Ident} {values : List Expr} {lines : List CLine},
    specLines prog n ids values = some lines →
      ∀ e ∈ values.take ids.length, ∃ t, treeOf prog n e = some t
  | [], values, lines, _ => by simp
  | id :: ids, [], lines, _ => by simp
  | id :: ids, value :: values, lines, hlines => by
      obtain ⟨cType, -, hlines⟩ := Option.bind_eq_some_iff.mp hlines
      obtain ⟨init, hinit, hlines⟩ := Option.bind_eq_some_iff.mp hlines
      obtain ⟨rest, hrest, -⟩ := Option.bind_eq_some_iff.mp hlines
      obtain ⟨t, ht, -⟩ := Option.map_eq_some_iff.mp hinit
      rw [List.length_cons, List.take_succ_cons]
      exact List.forall_mem_cons.mpr ⟨⟨t, ht⟩, values_ok hrest⟩

theorem accounted_spec {n : Names} {spec : ValueSpec} {lines : List CLine}
    (hlines : specLines prog n spec.names spec.values = some lines)
    (h : .expr (.call fn args) ∈ inspectSpec spec) :
    Accounted prog (specNodes prog spec) (specLeftOut prog spec) fn args := by
  obtain ⟨names, type, values⟩ := spec
  rw [inspectSpec, List.append_assoc, List.mem_append, List.mem_append] at h
  rcases h with h | h | h
  · obtain ⟨id, -, hid⟩ := List.mem_map.mp h
    cases hid
  · exact .left (List.mem_append_left _ h)
  · rw [← List.take_append_drop names.length values, inspectExprs_eq_flatMap, List.flatMap_append,
      ← inspectExprs_eq_flatMap, ← inspectExprs_eq_flatMap] at h
    rcases List.mem_append.mp h with h | h
    · exact (accounted_exprs (values_ok hlines) h).mono (List.Subset.refl _)
        fun nd hnd => List.mem_append_right _ (List.mem_append_left _ hnd)
    · exact .left (List.mem_append_right _ (List.mem_append_right _ h))

theorem accounted_specs {n : Names} : ∀ {specs : List ValueSpec} {lines : List CLine},
    specsLines prog n specs = some lines → .expr (.call fn args) ∈ inspectSpecs specs →
    Accounted prog (specs.flatMap (specNodes prog)) (specs.flatMap (specLeftOut prog)) fn args
  | [], lines, _, h => by cases h
  | spec :: rest, lines, hlines, h => by
      obtain ⟨ls₁, hls₁, hlines⟩ := Option.bind_eq_some_iff.mp hlines
      obtain ⟨ls₂, hls₂, -⟩ := Option.bind_eq_some_iff.mp hlines
      rcases List.mem_append.mp h with h | h
      · exact (accounted_spec hls₁ h).append_left
      · exact (accounted_specs hls₂ h).append_right

/-- A call in an identifier is none. -/
theorem call_identOf {e : Expr} {id : Ident} (hid : identOf e = some id) :
    .expr (.call fn args) ∉ inspectExpr e := by
  rw [identOf_eq_some hid]
  intro h
  cases List.mem_singleton.mp h

theorem commaOkLeftOut_call (h : mapLookupCall prog fn = none → ringbufReserveCall prog fn = none) :
    commaOkLeftOut prog (.call fn args) = exprLeftOut prog (.call fn args) := by
  rw [commaOkLeftOut]
  split
  · rename_i hlookup hreserve
    rw [h hlookup] at hreserve
    cases hreserve
  · rfl

theorem accounted_commaOkCall {n : Names} {fn' : Expr} {args' : List Expr} {c : CommaOkCall}
    (hc : commaOkCall prog n fn' args' = some c)
    (h : .expr (.call fn args) ∈ inspectExpr (.call fn' args')) :
    Accounted prog (commaOkNodes prog (.call fn' args')) (commaOkLeftOut prog (.call fn' args'))
      fn args := by
  rcases commaOkCall_cases hc with ⟨buf, valType, hlookup, hreserve, -⟩ | ⟨hplain, hprints⟩
  · rw [commaOkNodes, commaOkLeftOut, hlookup, hreserve]
    rcases List.mem_cons.mp h with h | h
    · cases h
      exact .inr (.inr ⟨buf, valType, hreserve, List.mem_singleton_self _⟩)
    · exact .left h
  · rw [commaOkNodes_call hplain, commaOkLeftOut_call hplain]
    exact (call_call (fun f hf => call_expr hf) call_args hprints h).imp List.mem_map_of_mem .inl

theorem accounted_assign {n n' : Names} {lhs rhs : List Expr} {tok : AssignTok} {line : CLine}
    (hline : assignLine prog n lhs tok rhs = some (line, n'))
    (h : .expr (.call fn args) ∈ inspectStmt (.assign lhs tok rhs)) :
    Accounted prog (assignNodes prog lhs tok rhs) (assignLeftOut prog lhs rhs) fn args := by
  have h : .expr (.call fn args) ∈ inspectExprs lhs ∨ .expr (.call fn args) ∈ inspectExprs rhs := by
    simpa [inspectStmt] using h
  unfold assignLine at hline
  split at hline
  · rename_i v ok r
    split_ifs at hline with htok
    unfold commaOkLine at hline
    split at hline
    · rename_i fn' args'
      obtain ⟨c, hc, hline⟩ := Option.bind_eq_some_iff.mp hline
      obtain ⟨vId, hv, hline⟩ := Option.bind_eq_some_iff.mp hline
      obtain ⟨okId, hok, -⟩ := Option.bind_eq_some_iff.mp hline
      rcases h with h | h
      · rcases List.mem_append.mp h with h | h
        · exact absurd h (call_identOf hv)
        · exact absurd ((List.mem_append.mp h).resolve_right (by simp [inspectExprs]))
            (call_identOf hok)
      · exact accounted_commaOkCall hc ((List.mem_append.mp h).resolve_right (by simp [inspectExprs]))
    · cases hline
  · rename_i l r
    obtain ⟨line', hline', -⟩ := Option.map_eq_some_iff.mp hline
    obtain ⟨lhs, hlhs, hline'⟩ := Option.bind_eq_some_iff.mp hline'
    obtain ⟨rhs, hrhs, hline'⟩ := Option.bind_eq_some_iff.mp hline'
    rw [assignNodes, assignLeftOut]
    rcases h with h | h
    · have h := (List.mem_append.mp h).resolve_right (by simp [inspectExprs])
      split_ifs with htok
      · subst htok
        obtain ⟨id, hid, -⟩ := Option.bind_eq_some_iff.mp hline'
        exact absurd h (call_identOf hid)
      · exact (accounted_expr hlhs h).append_left
    · have h := (List.mem_append.mp h).resolve_right (by simp [inspectExprs])
      split_ifs with htok
      · exact (accounted_expr hrhs h).mono (List.Subset.refl _) (List.subset_append_right _ _)
      · exact (accounted_expr hrhs h).append_right
  · cases hline

theorem accounted_clause {n : Names} {s : Stmt} {line : CLine} (hline : forClause prog n s = some line)
    (h : .expr (.call fn args) ∈ inspectStmt s) :
    Accounted prog (clauseNodes prog s) (clauseLeftOut prog s) fn args := by
  unfold forClause at hline
  split at hline
  · rename_i l tok r
    have h : .expr (.call fn args) ∈ inspectExpr l ∨ .expr (.call fn args) ∈ inspectExpr r := by
      simpa [inspectStmt, inspectExprs] using h
    obtain ⟨rhs, hrhs, hline⟩ := Option.bind_eq_some_iff.mp hline
    rw [clauseNodes, clauseLeftOut]
    split_ifs at hline ⊢ with htok
    · obtain ⟨id, hid, -⟩ := Option.bind_eq_some_iff.mp hline
      refine (accounted_expr hrhs (h.resolve_left (call_identOf hid))).mono (List.Subset.refl _) ?_
      exact List.subset_append_right _ _
    · obtain ⟨lhs, hlhs, -⟩ := Option.bind_eq_some_iff.mp hline
      rcases h with h | h
      · exact (accounted_expr hlhs h).append_left
      · exact (accounted_expr hrhs h).append_right
  · rename_i x inc
    obtain ⟨t, ht, -⟩ := Option.map_eq_some_iff.mp hline
    exact accounted_expr ht (by simpa [inspectStmt] using h)
  · cases hline

theorem accounted_ret {n : Names} {results : List Expr} {line : CLine}
    (hline : returnLine prog n results = some line)
    (h : .expr (.call fn args) ∈ inspectExprs results) :
    Accounted prog (exprsNodes prog results) (exprsLeftOut prog results) fn args := by
  unfold returnLine at hline
  split at hline
  · cases h
  · obtain ⟨t, ht, -⟩ := Option.map_eq_some_iff.mp hline
    exact accounted_exprs (List.forall_mem_singleton.mpr ⟨t, ht⟩) h
  · cases hline

mutual
/-- A call in an emitted statement is printed, or reserves a record, or is left out. -/
theorem accounted_stmt : ∀ {s : Stmt} {n n' : Names} {c : CStmt}, stmtTree prog s n = some (c, n') →
    .expr (.call fn args) ∈ inspectStmt s →
    Accounted prog (stmtNodes prog s) (stmtLeftOut prog s) fn args
  | .decl pos tok specs, n, n', c, hc, h => by
      rw [stmtTree] at hc
      split_ifs at hc
      obtain ⟨ls, hls, -⟩ := Option.map_eq_some_iff.mp hc
      exact accounted_specs hls (by simpa [inspectStmt] using h)
  | .assign lhs tok rhs, n, n', c, hc, h => by
      rw [stmtTree] at hc
      obtain ⟨⟨line, n₁⟩, hline, -⟩ := Option.map_eq_some_iff.mp hc
      exact accounted_assign hline h
  -- an emitted `if` has no init, so its calls are in the condition and the branches
  | .ifs pos init cond body els, n, n', c, hc, h => by
      obtain ⟨hinit, t, b, n₁, e, ht, hb, he, -⟩ := stmtTree_ifs hc
      subst hinit
      have h : .expr (.call fn args) ∈ inspectExpr cond ∨
          .expr (.call fn args) ∈ inspectStmts body ∨ .expr (.call fn args) ∈ inspectStmt? els := by
        simpa [inspectStmt, inspectStmt?, or_assoc] using h
      rw [stmtNodes, stmtLeftOut]
      rcases h with h | h | h
      · exact (accounted_expr ht h).append_left
      · exact (accounted_block hb h).append_left.append_right
      · exact (accounted_else he h).append_right.append_right
  | .ret pos results, n, n', c, hc, h => by
      rw [stmtTree] at hc
      obtain ⟨line, hline, -⟩ := Option.map_eq_some_iff.mp hc
      exact accounted_ret hline (by simpa [inspectStmt] using h)
  | .expr x, n, n', c, hc, h => by
      rw [stmtTree] at hc
      obtain ⟨t, ht, -⟩ := Option.map_eq_some_iff.mp hc
      exact accounted_expr ht (by simpa [inspectStmt] using h)
  | .fors pos init cond post body, n, n', c, hc, h => by
      obtain ⟨i, co, p, initL, condT, postL, b, rfl, rfl, rfl, hi, hcond, hp, hb, -⟩ :=
        stmtTree_fors hc
      have h : .expr (.call fn args) ∈ inspectStmt i ∨ .expr (.call fn args) ∈ inspectExpr co ∨
          .expr (.call fn args) ∈ inspectStmt p ∨ .expr (.call fn args) ∈ inspectStmts body := by
        simpa [inspectStmt, inspectStmt?, inspectExpr?, or_assoc] using h
      rw [stmtNodes, stmtLeftOut]
      rcases h with h | h | h | h
      · exact (accounted_clause hi h).append_left
      · have hexpr := accounted_exprs (List.forall_mem_singleton.mpr ⟨condT, hcond⟩)
          (by simpa [inspectExprs] using h)
        exact hexpr.append_left.append_right
      · exact (accounted_clause hp h).append_left.append_right.append_right
      · exact (accounted_block hb h).append_right.append_right.append_right
  | .block pos list, n, n', c, hc, h => by
      obtain ⟨b, hb, -⟩ := stmtTree_block hc
      exact accounted_block hb (by simpa [inspectStmt] using h)
  | .incDec x inc, n, n', c, hc, h => by
      rw [stmtTree] at hc
      obtain ⟨t, ht, -⟩ := Option.map_eq_some_iff.mp hc
      exact accounted_expr ht (by simpa [inspectStmt] using h)
  | .other kind pos children, n, n', c, hc, h => by cases hc

theorem accounted_block : ∀ {list : List Stmt} {n n' : Names} {cs : List CStmt},
    blockTree prog list n = some (cs, n') → .expr (.call fn args) ∈ inspectStmts list →
    Accounted prog (blockNodes prog list) (blockLeftOut prog list) fn args
  | [], n, n', cs, _, h => by cases h
  | s :: rest, n, n', cs, hcs, h => by
      obtain ⟨c, n₁, cs', hc, hrest, -⟩ := blockTree_cons hcs
      rw [blockNodes, blockLeftOut]
      rcases List.mem_append.mp h with h | h
      · exact (accounted_stmt hc h).append_left
      · exact (accounted_block hrest h).append_right

theorem accounted_else : ∀ {els : Option Stmt} {n n' : Names} {e : CElse},
    elseTree prog els n = some (e, n') → .expr (.call fn args) ∈ inspectStmt? els →
    Accounted prog (elseNodes prog els) (elseLeftOut prog els) fn args
  | none, n, n', e, _, h => by cases h
  | some (.ifs pos init cond body els), n, n', e, he, h => by
      obtain ⟨t, b, ht, hb, -⟩ := elseTree_ifs he
      have h : .expr (.call fn args) ∈ inspectStmt? init ∨ .expr (.call fn args) ∈ inspectExpr cond ∨
          .expr (.call fn args) ∈ inspectStmts body ∨ .expr (.call fn args) ∈ inspectStmt? els := by
        simpa [inspectStmt?, inspectStmt, or_assoc] using h
      rw [elseNodes, elseLeftOut]
      rcases h with h | h | h | h
      · exact .left (List.mem_append_left _ h)
      · exact (accounted_expr ht h).mono (List.subset_append_left _ _) fun nd hnd => by simp [hnd]
      · exact (accounted_block hb h).mono (List.subset_append_right _ _) fun nd hnd => by simp [hnd]
      · exact .left (by simp [h])
  | some (.block pos list), n, n', e, he, h => by
      obtain ⟨b, hb, -⟩ := elseTree_block he
      exact accounted_block hb (by simpa [inspectStmt?, inspectStmt] using h)
  | some (.decl _ _ _), n, n', e, he, _ => by cases he
  | some (.assign _ _ _), n, n', e, he, _ => by cases he
  | some (.ret _ _), n, n', e, he, _ => by cases he
  | some (.expr _), n, n', e, he, _ => by cases he
  | some (.fors _ _ _ _ _), n, n', e, he, _ => by cases he
  | some (.incDec _ _), n, n', e, he, _ => by cases he
  | some (.other _ _ _), n, n', e, he, _ => by cases he
end

/-- What is left out of a function stands in its body. -/
theorem funcLeftOut_nodes {fd : FuncDecl} {nd : Node} (h : nd ∈ funcLeftOut prog fd) :
    nd ∈ fd.nodes := by
  unfold funcLeftOut at h
  unfold FuncDecl.nodes
  cases hbody : fd.body with
  | none =>
      rw [hbody] at h
      cases h
  | some body =>
      rw [hbody] at h
      exact blockLeftOut_inspect h

/-- **Every call in the body of an emitted function is printed, or reserves a record, or is
left out.** -/
theorem accounted_functions : ∀ {fds : List FuncDecl} {n n' : Names} {trees : List (List CStmt)},
    functionTrees prog fds n = some (trees, n') → ∀ fd ∈ fds, .expr (.call fn args) ∈ fd.nodes →
      Accounted prog (funcNodes prog fd) (funcLeftOut prog fd) fn args
  | [], n, n', trees, _, fd, hfd, _ => by cases hfd
  | fd' :: rest, n, n', trees, htrees, fd, hfd, h => by
      obtain ⟨body, cs, n₁, css, hbody, hcs, hcss, -⟩ := functionTrees_cons.mp htrees
      rcases List.mem_cons.mp hfd with rfl | hfd
      · unfold funcNodes funcLeftOut
        unfold FuncDecl.nodes at h
        rw [hbody] at h ⊢
        exact accounted_block hcs h
      · exact accounted_functions hcss fd hfd h

end

end Gobee
