/-
# Runs of scalar functions

The statements of a scalar function are emitted as statements that do the same in C, by
induction on the statements: between two statements the variables of the running C function
are the variables in scope with their values, innermost first, and a block drops what it
declared.

* `emitted_block` : **the statements of a block are emitted, and run alike.**
-/
import Gobee.PrintedBody
import Gobee.ScalarExprs

namespace Gobee

open CSyntax MachineInt Refinement

/-! ## Variables -/

/-- The variables in scope as variables of the running C function. -/
def cellsOf (L : Locals) (σ : GoStore) : Cells :=
  L.map fun p => ⟨p.1.name, p.2, some (σ p.1)⟩

/-- The values are values of the types. -/
def Holding (L : Locals) (σ : GoStore) : Prop := ∀ p ∈ L, p.2.Holds (σ p.1)

/-- The names in scope are names in C, and all of them differ. -/
structure ScalarScope (sigs : Signatures) (L : Locals) : Prop where
  plain : PlainNames sigs L
  distinct : (L.map (·.1.name)).Nodup
  apart : ∀ p ∈ L, ∀ q ∈ sigs, q.1.name ≠ p.1.name

section

variable {sigs : Signatures} {L : Locals} {σ : GoStore}

theorem name_of_mem_cellsOf {c : Cell} (h : c ∈ cellsOf L σ) : ∃ p ∈ L, c.name = p.1.name := by
  obtain ⟨p, hp, rfl⟩ := List.mem_map.mp h
  exact ⟨p, hp, rfl⟩

theorem name_mem {p : Ident × Scalar} (hp : p ∈ L) : p.1.name ∈ L.map (·.1.name) :=
  List.mem_map.mpr ⟨p, hp, rfl⟩

theorem sig_mem {q : Ident × Signature} (hq : q ∈ sigs) : q.1.name ∈ sigs.map (·.1.name) :=
  List.mem_map.mpr ⟨q, hq, rfl⟩

theorem ident_ne_of_fresh {id : Ident} (h : id.name ∉ L.map (·.1.name)) {p : Ident × Scalar}
    (hp : p ∈ L) : p.1 ≠ id := fun heq => h (heq ▸ name_mem hp)

theorem findCell_cellsOf (hL : (L.map (·.1.name)).Nodup) {p : Ident × Scalar} (hp : p ∈ L) :
    findCell (cellsOf L σ) p.1.name = some ⟨p.1.name, p.2, some (σ p.1)⟩ := by
  induction L with
  | nil => cases hp
  | cons q rest ih =>
      rw [List.map_cons, List.nodup_cons] at hL
      rw [cellsOf, List.map_cons]
      rcases List.mem_cons.mp hp with rfl | hp
      · exact List.find?_cons_of_pos (by simp)
      · have hne : q.1.name ≠ p.1.name := fun heq => hL.1 (heq ▸ name_mem hp)
        rw [findCell_cons_of_ne _ hne]
        exact ih hL.2 hp

theorem findCell_eq_none {f : Cells} {w : Text} (h : ∀ c ∈ f, c.name ≠ w) : findCell f w = none := by
  rw [findCell, List.find?_eq_none]
  intro c hc
  simpa using h c hc

/-- The variables in scope are those of the running function. -/
theorem agrees_cellsOf (hL : ScalarScope sigs L) (hσ : Holding L σ) : CellsAgree sigs L σ (cellsOf L σ) where
  var _ hp := findCell_cellsOf hL.distinct hp
  holds := hσ
  func q hq := findCell_eq_none fun c hc => by
    obtain ⟨p, hp, hname⟩ := name_of_mem_cellsOf hc
    rw [hname]
    exact (hL.apart p hp q hq).symm

/-- A variable of another name in front changes nothing. -/
theorem CellsAgree.cons {f : Cells} (h : CellsAgree sigs L σ f) {c : Cell}
    (hc : c.name ∉ namesInUse sigs L) : CellsAgree sigs L σ (c :: f) := by
  rw [namesInUse, List.mem_append, not_or] at hc
  refine ⟨fun p hp => ?_, h.holds, fun q hq => ?_⟩
  · rw [findCell_cons_of_ne f fun heq => hc.2 (heq ▸ name_mem hp)]
    exact h.var p hp
  · rw [findCell_cons_of_ne f fun heq => hc.1 (heq ▸ sig_mem hq)]
    exact h.func q hq

/-- A variable under a new name. -/
theorem ScalarScope.cons (hL : ScalarScope sigs L) {id : Ident} (hplain : plainName id.name = true)
    (hfresh : id.name ∉ namesInUse sigs L) (s : Scalar) : ScalarScope sigs ((id, s) :: L) := by
  rw [namesInUse, List.mem_append, not_or] at hfresh
  refine ⟨⟨?_, hL.plain.func⟩, ?_, ?_⟩
  · exact List.forall_mem_cons.mpr ⟨hplain, hL.plain.var⟩
  · rw [List.map_cons, List.nodup_cons]
    exact ⟨hfresh.2, hL.distinct⟩
  · refine List.forall_mem_cons.mpr ⟨fun q hq heq => hfresh.1 ?_, hL.apart⟩
    exact heq ▸ sig_mem hq

theorem ident_ne_of_name {p q : Ident × Scalar} (h : p.1.name ≠ q.1.name) : p.1 ≠ q.1 :=
  fun heq => h (congrArg Ident.name heq)

/-- A variable that is not in scope is given a value. -/
theorem cellsOf_update_fresh {id : Ident} (h : id.name ∉ L.map (·.1.name)) (n : Int) :
    cellsOf L (Function.update σ id n) = cellsOf L σ := by
  refine List.map_congr_left fun p hp => ?_
  rw [Function.update_of_ne (ident_ne_of_fresh h hp)]

/-- A variable in scope is given a value. -/
theorem setCell_cellsOf (hL : (L.map (·.1.name)).Nodup) {p : Ident × Scalar} (hp : p ∈ L) (n : Int) :
    setCell p.1.name n (cellsOf L σ) = cellsOf L (Function.update σ p.1 n) := by
  induction L with
  | nil => cases hp
  | cons q rest ih =>
      rw [List.map_cons, List.nodup_cons] at hL
      rw [cellsOf, cellsOf, List.map_cons, List.map_cons]
      rcases List.mem_cons.mp hp with rfl | hp
      · rw [setCell, if_pos rfl, Function.update_self]
        exact congrArg _ (cellsOf_update_fresh hL.1 n).symm
      · have hne : q.1.name ≠ p.1.name := fun heq => hL.1 (heq ▸ name_mem hp)
        rw [setCell, if_neg hne, Function.update_of_ne (ident_ne_of_name hne)]
        exact congrArg _ (ih hL.2 hp)

theorem Holding.update (hσ : Holding L σ) (hL : (L.map (·.1.name)).Nodup) {p : Ident × Scalar}
    (hp : p ∈ L) {n : Int} (hn : p.2.Holds n) : Holding L (Function.update σ p.1 n) := by
  intro q hq
  by_cases hqp : q.1 = p.1
  · have heq : q = p := by
      by_contra hne
      have := List.inj_on_of_nodup_map hL hq hp (congrArg Ident.name hqp)
      exact hne this
    rw [heq, Function.update_self]
    exact hn
  · rw [Function.update_of_ne hqp]
    exact hσ q hq

end

/-! ## Ends of statements -/

/-- The variables in scope and those of the running C function between two statements. -/
def Mirrors (L : Locals) (σ : GoStore) (f : Cells) : Prop := Holding L σ ∧ f = cellsOf L σ

/-- The returned values of a function with a result of type `ret`. -/
def RetOf (ret : Option Scalar) : Option Int → Option Typed → Prop
  | none, none => ret = none
  | some n, some x => ∃ s, ret = some s ∧ s.Holds n ∧ convert s x.2 = n
  | _, _ => False

/-- The run of a statement of C does what the one in Go does, with the variables `L` in scope
after it. -/
def RunsAlike (ret : Option Scalar) (L : Locals) (c : Comp (Ends GoStore (Option Int)))
    (d : CEnds) : Prop := Refines (Ends.Rel (Mirrors L) (RetOf ret)) c d

section

variable {prog : Program} {sigs : Signatures} {L : Locals} {goCalls : GoCallees}
  {cCalls : Callees} {ret : Option Scalar} {σ : GoStore}

theorem runsAlike_stored (hσ : Holding L σ) : RunsAlike ret L (stored σ) (.ok (.next (cellsOf L σ))) :=
  .ok ⟨hσ, rfl⟩

/-- The end of a block drops what the block declared. -/
theorem runsAlike_inBlock {added : Locals} {c : Comp (Ends GoStore (Option Int))} {d : CEnds}
    (h : RunsAlike ret (added ++ L) c d) : RunsAlike ret L c (inBlock (cellsOf L σ) d) := by
  rcases c with (_ | _ | _) | τ | r
  · exact h
  · exact trivial
  · rw [show d = .error .cutoff from h]
    rfl
  · obtain ⟨g | r, rfl, hmirrors⟩ := h
    · obtain ⟨hτ, rfl⟩ := hmirrors
      refine ⟨.next (cellsOf L τ), ?_, fun p hp => hτ p (List.mem_append_right _ hp), rfl⟩
      have hlength : (cellsOf L σ).length = (cellsOf L τ).length := by
        rw [cellsOf, cellsOf, List.length_map, List.length_map]
      have happend : cellsOf (added ++ L) τ = cellsOf added τ ++ cellsOf L τ := List.map_append
      show Except.ok (Ends.next (leaveBlock _ _)) = _
      rw [hlength, happend, leaveBlock_append]
    · cases hmirrors
  · obtain ⟨g | r', rfl, hret⟩ := h
    · cases hret
    · exact ⟨.ret r', rfl, hret⟩

/-- A variable in scope is given a value. -/
theorem runsAlike_update (hL : ScalarScope sigs L) (hσ : Holding L σ) {p : Ident × Scalar} (hp : p ∈ L)
    {n : Int} (hn : p.2.Holds n) :
    RunsAlike ret L (stored (Function.update σ p.1 n))
      (.ok (.next (setCell p.1.name n (cellsOf L σ)))) := by
  rw [setCell_cellsOf hL.distinct hp]
  exact runsAlike_stored (hσ.update hL.distinct hp hn)

/-! ## Assignments -/

/-- `x = e`. -/
theorem runsAlike_assign (hL : ScalarScope sigs L) (hσ : Holding L σ) {p : Ident × Scalar} (hp : p ∈ L)
    {e : Expr} {v : GoVal} {x : Typed} (hv : ValueOf prog sigs L e v x)
    (hfits : exprFits prog sigs L p.2 e = true) :
    RunsAlike ret L (stored (Function.update σ p.1 v.2))
      (assignCell (cellsOf L σ) p.1.name ['='] x) := by
  obtain ⟨hn, hx⟩ := hv.convert hfits
  rw [assignCell, findCell_cellsOf hL.distinct hp]
  show RunsAlike ret L _ (.ok (.next (setCell p.1.name (convert p.2 x.2) (cellsOf L σ))))
  rw [hx]
  exact runsAlike_update hL hσ hp hn

/-- The operator of an assignment such as `+=`. -/
theorem assignOp_text {tok : AssignTok} {op : BinaryOp} (h : assignOp tok = some op) :
    assignText tok = some tok.string ∧ compoundOp tok.string = op.string ∧ tok.string ≠ ['='] ∧
      classOf op ≠ some .land ∧ classOf op ≠ some .lor := by
  cases tok <;> cases h <;> exact ⟨rfl, rfl, by decide, by rintro ⟨⟩, by rintro ⟨⟩⟩

/-- An assignment such as `x += e`. -/
theorem runsAlike_compound (hL : ScalarScope sigs L) (hσ : Holding L σ) {id : Ident}
    {p : Ident × Scalar} (hp : localVar prog L id = some p) {op : BinaryOp} {c : OpClass}
    (hop : classOf op = some c) (hand : c ≠ .land) (hor : c ≠ .lor) {tok : Text}
    (htok : compoundOp tok = op.string) (hne : tok ≠ ['=']) {e : Expr} {v : GoVal} {x : Typed}
    (hv : ValueOf prog sigs L e v x)
    (hs : operationTy prog c (.ident id) (some p.2) e (scalarTy prog sigs L e) = some p.2) :
    RunsAlike ret L (goUpdate σ p c v) (assignCell (cellsOf L σ) p.1.name tok x) := by
  obtain ⟨-, -, hmem⟩ := mem_of_localVar hp
  obtain ⟨-, -, hvar⟩ := value_var hL.plain hp (agrees_cellsOf hL hσ)
  rw [goUpdate, assignCell, findCell_cellsOf hL.distinct hmem]
  show RunsAlike ret L _ (if tok = ['='] then _ else
    (orFault (binaryValue (compoundOp tok) (p.2, σ p.1) x)).bind fun r =>
      .ok (.next (setCell p.1.name (convert p.2 r.2) (cellsOf L σ))))
  rw [if_neg hne, htok]
  have htype : some p.2 = scalarTy prog sigs L (.ident id) := hvar.type
  have hs' : operationTy prog c (.ident id) (scalarTy prog sigs L (.ident id)) e
      (scalarTy prog sigs L e) = some p.2 := by
    rw [← htype]
    exact hs
  refine (refines_operate hop hand hor hs' hvar hv).bind fun r z hr => ?_
  rw [hr.2.value, convert_of_holds hr.holds]
  exact runsAlike_update hL hσ hmem hr.holds

/-! ## Lines -/

theorem treeOf_emitted {e : Expr} {t : CTree} (h : Emitted prog sigs L goCalls cCalls e t)
    (k : Nat) : treeOf prog ⟨[], k⟩ e = some t := by
  show (exprTree prog [] e).toOption = some t
  rw [h.tree]
  rfl

/-- The C type of a scalar type. -/
theorem cType_scalar {t : Option GoType} {s : Scalar} (h : scalarType prog t = some s) :
    ∃ cType, goTypeToC? t = .ok cType ∧ cScalar cType = some s := by
  unfold scalarType at h
  split at h
  · next kind =>
      replace h := (Option.filter_eq_some_iff.mp h).1
      cases kind with
      | bool | int8 | int16 | int32 | int64 | uint8 | uint16 | uint32 | uint64 | byte | rune =>
          exact ⟨_, rfl, h⟩
      | _ => cases h
  · cases h

theorem cTypeOf_scalar {id : Ident} {s : Scalar} (h : scalarType prog (typeOfIdent prog id) = some s) :
    ∃ cType, cTypeOf prog id = some cType ∧ cScalar cType = some s := by
  obtain ⟨cType, hc, hscalar⟩ := cType_scalar h
  exact ⟨cType, by rw [cTypeOf, hc]; rfl, hscalar⟩

/-- A declaration of a variable with a value. -/
theorem emitted_declare (hL : ScalarScope sigs L) (hcalls : CallsAgree sigs goCalls cCalls) {id : Ident}
    {e : Expr} {L' : Locals} (h : declareLocal prog sigs L id e = some L') :
    ∃ s cType t, L' = (id, s) :: L ∧ ScalarScope sigs L' ∧ cTypeOf prog id = some cType ∧
      Emitted prog sigs L goCalls cCalls e t ∧
      ∀ ret σ, Holding L σ →
        RunsAlike ret L'
          ((goExpr prog goCalls σ e).bind fun v => stored (Function.update σ id v.2))
          (runLine cCalls (.decl cType id.name id (some t)) (cellsOf L σ)) := by
  obtain ⟨s, hs, hif⟩ := Option.bind_eq_some_iff.mp h
  split_ifs at hif with hcheck
  obtain rfl := Option.some.inj hif
  simp only [Bool.and_eq_true, decide_eq_true_eq] at hcheck
  obtain ⟨⟨hfits, hplain⟩, hfresh⟩ := hcheck
  obtain ⟨cType, hcType, hscalar⟩ := cTypeOf_scalar hs
  obtain ⟨t, ht⟩ := emitted_expr hL.plain hcalls e (isScalar_of_fits hfits)
  have hL' := hL.cons hplain hfresh s
  refine ⟨s, cType, t, rfl, hL', hcType, ht, fun ret σ hσ => ?_⟩
  rw [runLine, hscalar]
  -- the new variable is in scope in its own initialiser, which does not mention it
  have hruns := ht.runs σ (⟨id.name, s, none⟩ :: cellsOf L σ) ((agrees_cellsOf hL hσ).cons hfresh)
  refine hruns.bind fun v x hv => ?_
  obtain ⟨hn, hx⟩ := hv.convert hfits
  have hlist := List.nodup_cons.mp hL'.distinct
  refine .ok ⟨List.forall_mem_cons.mpr ⟨?_, fun p hp => ?_⟩, ?_⟩
  · rw [Function.update_self]
    exact hn
  · rw [Function.update_of_ne (ident_ne_of_fresh hlist.1 hp)]
    exact hσ p hp
  · have hcells : cellsOf L (Function.update σ id v.2) = cellsOf L σ :=
      cellsOf_update_fresh hlist.1 v.2
    rw [hx, ← hcells]
    simp [cellsOf]

theorem checkAssign_cases {id : Ident} {tok : AssignTok} {e : Expr}
    (h : checkAssign prog sigs L id tok e = true) :
    ∃ p, localVar prog L id = some p ∧
      ((tok = .assign ∧ exprFits prog sigs L p.2 e = true) ∨
        ∃ op c, assignOp tok = some op ∧ classOf op = some c ∧
          operationTy prog c (.ident id) (some p.2) e (scalarTy prog sigs L e) = some p.2) := by
  unfold checkAssign at h
  split at h
  · cases h
  · next p hp => exact ⟨p, hp, .inl ⟨rfl, h⟩⟩
  · next hp hclass =>
      obtain ⟨op, hop, hc⟩ := Option.bind_eq_some_iff.mp hclass
      exact ⟨_, hp, .inr ⟨op, _, hop, hc, of_decide_eq_true h⟩⟩
  · cases h

theorem goAssign_compound {id : Ident} {tok : AssignTok} {e : Expr} {p : Ident × Scalar}
    {op : BinaryOp} {c : OpClass} (hp : scalarVar prog id = some p) (hop : assignOp tok = some op)
    (hc : classOf op = some c) (σ : GoStore) :
    goAssign prog goCalls σ id tok e = (goExpr prog goCalls σ e).bind fun v => goUpdate σ p c v := by
  have hclass : assignClass tok = some c := by rw [assignClass, hop, Option.bind_some, hc]
  rw [goAssign, hp, hclass]
  cases tok <;> first | rfl | cases hop

/-- An assignment to a variable in scope. -/
theorem emitted_assign (hL : ScalarScope sigs L) (hcalls : CallsAgree sigs goCalls cCalls) {id : Ident}
    {tok : AssignTok} {e : Expr} (h : checkAssign prog sigs L id tok e = true) :
    ∃ p t, localVar prog L id = some p ∧ assignText tok = some tok.string ∧ tok ≠ .define ∧
      Emitted prog sigs L goCalls cCalls e t ∧
      ∀ ret σ, Holding L σ → RunsAlike ret L (goAssign prog goCalls σ id tok e)
        (runLine cCalls (.assign (.leaf id.name (some id)) tok.string t) (cellsOf L σ)) := by
  obtain ⟨p, hp, ⟨rfl, hfits⟩ | ⟨op, c, hop, hc, hty⟩⟩ := checkAssign_cases h
  · obtain ⟨hvar, hname, hmem⟩ := mem_of_localVar hp
    obtain ⟨t, ht⟩ := emitted_expr hL.plain hcalls e (isScalar_of_fits hfits)
    refine ⟨p, t, hp, rfl, by rintro ⟨⟩, ht, fun ret σ hσ => ?_⟩
    rw [goAssign, hvar, runLine, hname]
    exact (ht.runs σ _ (agrees_cellsOf hL hσ)).bind fun v x hv =>
      runsAlike_assign hL hσ hmem hv hfits
  · obtain ⟨hvar, hname, hmem⟩ := mem_of_localVar hp
    obtain ⟨htext, hcompound, hne, hand, hor⟩ := assignOp_text hop
    have hscalar : isScalar prog sigs L e = true := by
      obtain ⟨-, t, n, -, hn, -⟩ | ⟨u, -, -, he, -⟩ := operationTy_cases hty
      · rw [isScalar, hn, Option.isSome_some, Bool.or_true]
      · exact isScalar_of_fits he
    obtain ⟨t, ht⟩ := emitted_expr hL.plain hcalls e hscalar
    refine ⟨p, t, hp, htext, fun heq => ?_, ht, fun ret σ hσ => ?_⟩
    · rw [heq] at hop
      cases hop
    rw [goAssign_compound hvar hop hc, runLine, hname]
    exact (ht.runs σ _ (agrees_cellsOf hL hσ)).bind fun v x hv =>
      runsAlike_compound hL hσ hp hc (fun heq => hand (heq ▸ hc)) (fun heq => hor (heq ▸ hc))
        hcompound hne hv hty

/-- `x++` and `x--`. -/
theorem emitted_step (hL : ScalarScope sigs L) {id : Ident} (h : checkStep prog L id = true) (inc : Bool) :
    ∃ p, localVar prog L id = some p ∧
      ∀ ret σ, Holding L σ → RunsAlike ret L (goStep prog σ id inc)
        (runLine cCalls (.step (.leaf id.name (some id)) (incDecText inc)) (cellsOf L σ)) := by
  unfold checkStep at h
  split at h
  · next decl t hp =>
      refine ⟨_, hp, fun ret σ hσ => ?_⟩
      obtain ⟨hvar, hname, hmem⟩ := mem_of_localVar hp
      -- the step is an addition or a subtraction of the constant 1
      have hone : ValueOf prog sigs L (.basicLit 0 .int "1") (none, 1) (.int int32, 1) :=
        ⟨rfl, fun _ => rfl, rfl, by decide, by decide⟩
      have hword : t ∈ wordTys := of_decide_eq_true h
      have hty : ∀ o : RingOp, operationTy prog (.ring o) (.ident id) (some (.int t))
          (.basicLit 0 .int "1") (scalarTy prog sigs L (.basicLit 0 .int "1")) =
            some (.int t) := by
        intro o
        have hfits : operandFits prog (.int t) (.basicLit 0 .int "1") none = true := by
          have hall : ∀ u ∈ wordTys, u.Holds ((1 : Nat) : Int) := by decide
          exact decide_eq_true (hall t hword)
        show (if operandFits prog (.int t) (.ident id) (some (.int t)) &&
          operandFits prog (.int t) (.basicLit 0 .int "1") none then
            resultTy (.ring o) (.int t) else none) = _
        rw [hfits, operandFits, decide_eq_true rfl, resultTy, if_pos hword]
        rfl
      rw [goStep, hvar, runLine, hname]
      cases inc with
      | true =>
          exact runsAlike_compound hL hσ hp (show classOf .add = _ from rfl) (by rintro ⟨⟩)
            (by rintro ⟨⟩) rfl (by decide) hone (hty .add)
      | false =>
          exact runsAlike_compound hL hσ hp (show classOf .sub = _ from rfl) (by rintro ⟨⟩)
            (by rintro ⟨⟩) rfl (by decide) hone (hty .sub)
  · cases h

end

/-! ## Statements -/

/-- A piece of a function: C reads its expressions back, and it runs alike from the variables
`L` to the variables `L'`. -/
structure Lowered (sigs : Signatures) (ret : Option Scalar) (L L' : Locals) (trees : List CTree)
    (go : GoStore → Comp (Ends GoStore (Option Int))) (c : Cells → CEnds) : Prop where
  scope : ScalarScope sigs L'
  added : ∃ added, L' = added ++ L
  legible : ∀ t ∈ trees, Legible t
  runs : ∀ σ, Holding L σ → RunsAlike ret L' (go σ) (c (cellsOf L σ))

section

variable {sigs : Signatures} {ret : Option Scalar} {L L' L₁ L₂ : Locals} {ts ts₁ ts₂ : List CTree}
  {go go₁ go₂ : GoStore → Comp (Ends GoStore (Option Int))} {c c₁ c₂ : Cells → CEnds}

theorem Lowered.nothing (hL : ScalarScope sigs L) :
    Lowered sigs ret L L [] stored fun f => .ok (.next f) :=
  ⟨hL, ⟨[], rfl⟩, by simp, fun _ hσ => runsAlike_stored hσ⟩

/-- One piece after another. -/
theorem Lowered.seq (h₁ : Lowered sigs ret L L₁ ts₁ go₁ c₁) (h₂ : Lowered sigs ret L₁ L₂ ts₂ go₂ c₂) :
    Lowered sigs ret L L₂ (ts₁ ++ ts₂) (fun σ => andThen (go₁ σ) go₂) fun f =>
      andThen (c₁ f) c₂ where
  scope := h₂.scope
  added := by
    obtain ⟨a₁, rfl⟩ := h₁.added
    obtain ⟨a₂, rfl⟩ := h₂.added
    exact ⟨a₂ ++ a₁, by rw [List.append_assoc]⟩
  legible := List.forall_mem_append.mpr ⟨h₁.legible, h₂.legible⟩
  runs σ hσ := (h₁.runs σ hσ).andThen fun τ g hg => by
    obtain ⟨hτ, rfl⟩ := hg
    exact h₂.runs τ hτ

/-- A block. -/
theorem Lowered.block (hL : ScalarScope sigs L) (h : Lowered sigs ret L L' ts go c) :
    Lowered sigs ret L L ts go fun f => inBlock f (c f) where
  scope := hL
  added := ⟨[], rfl⟩
  legible := h.legible
  runs σ hσ := by
    obtain ⟨added, rfl⟩ := h.added
    exact runsAlike_inBlock (h.runs σ hσ)

/-- Conditions that have the same value. -/
def TestsAlike (L : Locals) (go : GoStore → Comp Bool) (c : Cells → Comp Bool) : Prop :=
  ∀ σ, Holding L σ → Refines Eq (go σ) (c (cellsOf L σ))

/-- Two branches. -/
theorem Lowered.branch {t : CTree} {test : GoStore → Comp Bool} {cTest : Cells → Comp Bool}
    (ht : Legible t) (htest : TestsAlike L test cTest) (h₁ : Lowered sigs ret L L ts₁ go₁ c₁)
    (h₂ : Lowered sigs ret L L ts₂ go₂ c₂) :
    Lowered sigs ret L L (t :: (ts₁ ++ ts₂))
      (fun σ => (test σ).bind fun b => if b then go₁ σ else go₂ σ) fun f =>
      (cTest f).bind fun b => if b then c₁ f else c₂ f where
  scope := h₁.scope
  added := h₁.added
  legible := List.forall_mem_cons.mpr ⟨ht, List.forall_mem_append.mpr ⟨h₁.legible, h₂.legible⟩⟩
  runs σ hσ := (htest σ hσ).bind fun b b' hb => by
    subst hb
    cases b with
    | true => exact h₁.runs σ hσ
    | false => exact h₂.runs σ hσ

/-- A loop. -/
theorem Lowered.loop {t : CTree} {test : GoStore → Comp Bool} {cTest : Cells → Comp Bool}
    (ht : Legible t) (htest : TestsAlike L test cTest) (hpost : Lowered sigs ret L L ts₁ go₁ c₁)
    (hbody : Lowered sigs ret L L ts₂ go₂ c₂) (fuel : Nat) :
    Lowered sigs ret L L (t :: (ts₁ ++ ts₂)) (loop test go₂ go₁ fuel) (loop cTest c₂ c₁ fuel) where
  scope := hpost.scope
  added := hpost.added
  legible := List.forall_mem_cons.mpr
    ⟨ht, List.forall_mem_append.mpr ⟨hpost.legible, hbody.legible⟩⟩
  runs σ hσ := by
    refine Refines.loop ?_ ?_ ?_ fuel σ _ ⟨hσ, rfl⟩
    · rintro τ _ ⟨hτ, rfl⟩
      exact htest τ hτ
    · rintro τ _ ⟨hτ, rfl⟩
      exact hbody.runs τ hτ
    · rintro τ _ ⟨hτ, rfl⟩
      exact hpost.runs τ hτ

end

section

variable {prog : Program} {sigs : Signatures} {L L' : Locals} {goCalls : GoCallees}
  {cCalls : Callees} {ret : Option Scalar}

/-- A condition. -/
theorem emitted_test (hL : ScalarScope sigs L) (hcalls : CallsAgree sigs goCalls cCalls) {e : Expr}
    (h : scalarTy prog sigs L e = some .bool) :
    ∃ t, Legible t ∧ (∀ k, treeOf prog ⟨[], k⟩ e = some t) ∧
      TestsAlike L (fun σ => goTest prog goCalls σ e) (runTest cCalls · t) := by
  obtain ⟨t, ht⟩ := emitted_expr hL.plain hcalls e (isScalar_of_type h)
  refine ⟨t, ht.legible, treeOf_emitted ht, fun σ hσ => ?_⟩
  refine (ht.runs σ _ (agrees_cellsOf hL hσ)).bind fun v x hv => .ok ?_
  rw [hv.shows.value]

/-- A definition of a variable. -/
theorem clause_define {id : Ident} {e : Expr} {cType : Text} {t : CTree} {k : Nat}
    (hcType : cTypeOf prog id = some cType) (ht : treeOf prog ⟨[], k⟩ e = some t) :
    forClause prog ⟨[], k⟩ (.assign [.ident id] .define [e]) =
        some (.decl cType id.name id (some t)) ∧
      stmtTree prog (.assign [.ident id] .define [e]) ⟨[], k⟩ =
        some (.simple (.assign [.ident id] .define [e]) [.decl cType id.name id (some t)],
          ⟨[], k⟩) := by
  have hid : treeOf prog ⟨[], k⟩ (.ident id) = some (identTree prog [] id) := rfl
  constructor
  · simp only [forClause, ht, identOf, if_true, Option.bind_eq_bind, Option.bind_some, hcType]
    rfl
  · simp only [stmtTree, assignLine, singleAssignLine, hid, ht, identOf, Option.bind_eq_bind,
      Option.bind_some, hcType]
    rfl

/-- An assignment to a variable. -/
theorem clause_assign {x e : Expr} {tok : AssignTok} {l t : CTree} {k : Nat} (hdef : tok ≠ .define)
    (htok : assignText tok = some tok.string) (hx : treeOf prog ⟨[], k⟩ x = some l)
    (ht : treeOf prog ⟨[], k⟩ e = some t) :
    forClause prog ⟨[], k⟩ (.assign [x] tok [e]) = some (.assign l tok.string t) ∧
      stmtTree prog (.assign [x] tok [e]) ⟨[], k⟩ =
        some (.simple (.assign [x] tok [e]) [.assign l tok.string t], ⟨[], k⟩) := by
  constructor
  · simp only [forClause, ht, hx, if_neg hdef]
    rfl
  · simp only [stmtTree, assignLine, singleAssignLine, hx, ht, htok]
    cases tok <;> rfl

/-- A clause of a `for`, or the same statement on its own. -/
theorem emitted_clause (ret : Option Scalar) (hL : ScalarScope sigs L)
    (hcalls : CallsAgree sigs goCalls cCalls) (fuel : Nat) {s : Stmt}
    (h : checkClause prog sigs L s = some L') :
    ∃ line, (∀ k, forClause prog ⟨[], k⟩ s = some line ∧
        stmtTree prog s ⟨[], k⟩ = some (.simple s [line], ⟨[], k⟩)) ∧
      Lowered sigs ret L L' line.trees (goStmt prog goCalls fuel s) (runLine cCalls line) := by
  unfold checkClause at h
  split at h
  -- a short declaration opens a local, any other assignment needs one
  · next id tok e =>
      split_ifs at h with htok hcheck
      · subst htok
        obtain ⟨s, cType, t, rfl, hL', hcType, ht, hruns⟩ := emitted_declare hL hcalls h
        refine ⟨.decl cType id.name id (some t),
          fun k => clause_define hcType (treeOf_emitted ht k), hL', ⟨[(id, s)], rfl⟩,
          by simpa [CLine.trees] using ht.legible, fun σ hσ => ?_⟩
        rw [goStmt, goAssign]
        exact hruns ret σ hσ
      · cases h
        obtain ⟨p, t, hp, htext, hdef, ht, hruns⟩ := emitted_assign hL hcalls hcheck
        have hvar : Emitted prog sigs L goCalls cCalls (.ident id) (.leaf id.name (some id)) :=
          emitted_var hL.plain hp
        refine ⟨.assign (.leaf id.name (some id)) tok.string t,
          fun k => clause_assign hdef htext (treeOf_emitted hvar k) (treeOf_emitted ht k), hL,
          ⟨[], rfl⟩, ?_, fun σ hσ => ?_⟩
        · rw [CLine.trees, List.forall_mem_cons, List.forall_mem_singleton]
          exact ⟨hvar.legible, ht.legible⟩
        · rw [goStmt]
          exact hruns ret σ hσ
  · next id inc =>
      split_ifs at h with hcheck
      cases h
      obtain ⟨p, hp, hruns⟩ := emitted_step hL hcheck inc
      have hvar : Emitted prog sigs L goCalls cCalls (.ident id) (.leaf id.name (some id)) :=
        emitted_var hL.plain hp
      refine ⟨.step (.leaf id.name (some id)) (incDecText inc), fun k => ?_, hL, ⟨[], rfl⟩, ?_,
        fun σ hσ => ?_⟩
      · have htree := treeOf_emitted hvar k
        constructor
        · rw [forClause, htree]
          rfl
        · rw [stmtTree, htree]
          rfl
      · rw [CLine.trees, List.forall_mem_singleton]
        exact hvar.legible
      · rw [goStmt]
        exact hruns ret σ hσ
  · cases h

theorem andThen_next {σ τ : Type} (c : Comp (Ends σ τ)) : andThen c (fun s => .ok (.next s)) = c := by
  rcases c with h | s | r <;> rfl

/-- A statement that is written as one line. -/
theorem Lowered.line {fuel : Nat} {src : Stmt} {line : CLine}
    {go : GoStore → Comp (Ends GoStore (Option Int))}
    (h : Lowered sigs ret L L' line.trees go (runLine cCalls line)) :
    Lowered sigs ret L L' (CStmt.simple src [line]).trees go
      (runStmt cCalls fuel (.simple src [line])) where
  scope := h.scope
  added := h.added
  legible := by
    rw [CStmt.trees, List.flatMap_cons, List.flatMap_nil, List.append_nil]
    exact h.legible
  runs σ hσ := by
    have hline : runStmt cCalls fuel (.simple src [line]) (cellsOf L σ) =
        runLine cCalls line (cellsOf L σ) := andThen_next _
    rw [hline]
    exact h.runs σ hσ

/-- A variable declaration. -/
theorem emitted_decl (hL : ScalarScope sigs L) (hcalls : CallsAgree sigs goCalls cCalls) (fuel : Nat)
    {pos : Pos} {id : Ident} {type : Option Expr} {e : Expr}
    (h : declareLocal prog sigs L id e = some L') :
    ∃ c, (∀ k, stmtTree prog (.decl pos .var [.mk [id] type [e]]) ⟨[], k⟩ = some (c, ⟨[], k⟩)) ∧
      Lowered sigs ret L L' c.trees (goStmt prog goCalls fuel (.decl pos .var [.mk [id] type [e]]))
        (runStmt cCalls fuel c) := by
  obtain ⟨s, cType, t, rfl, hL', hcType, ht, hruns⟩ := emitted_declare hL hcalls h
  refine ⟨.simple (.decl pos .var [.mk [id] type [e]]) [.decl cType id.name id (some t)],
    fun k => ?_, Lowered.line ⟨hL', ⟨[(id, s)], rfl⟩, by simpa [CLine.trees] using ht.legible,
      fun σ hσ => ?_⟩⟩
  · rw [stmtTree, if_pos rfl]
    simp only [specsLines, specLines, initOf, ValueSpec.names, ValueSpec.values, hcType,
      treeOf_emitted ht k]
    rfl
  · have hgo : goStmt prog goCalls fuel (.decl pos .var [.mk [id] type [e]]) σ =
        (goExpr prog goCalls σ e).bind fun v => stored (Function.update σ id v.2) := by
      rw [goStmt, if_pos rfl, goSpecs, goExprs, goExprs]
      · cases goExpr prog goCalls σ e <;> rfl
      · simp
    rw [hgo]
    exact hruns ret σ hσ

/-- A return. -/
theorem emitted_return (hL : ScalarScope sigs L) (hcalls : CallsAgree sigs goCalls cCalls) (fuel : Nat)
    {pos : Pos} {results : List Expr} (h : checkStmt prog sigs ret (.ret pos results) L = some L') :
    ∃ c, (∀ k, stmtTree prog (.ret pos results) ⟨[], k⟩ = some (c, ⟨[], k⟩)) ∧
      Lowered sigs ret L L' c.trees (goStmt prog goCalls fuel (.ret pos results))
        (runStmt cCalls fuel c) := by
  unfold checkStmt at h
  split at h
  · cases h
    refine ⟨.simple (.ret pos []) [.ret none], fun k => rfl, Lowered.line
      ⟨hL, ⟨[], rfl⟩, by simp [CLine.trees], fun σ hσ => ?_⟩⟩
    rw [goStmt, runLine]
    exact .ok rfl
  · next e s =>
      split_ifs at h with hfits
      cases h
      obtain ⟨t, ht⟩ := emitted_expr hL.plain hcalls e (isScalar_of_fits hfits)
      refine ⟨.simple (.ret pos [e]) [.ret (some t)], fun k => ?_, Lowered.line
        ⟨hL, ⟨[], rfl⟩, by simpa [CLine.trees] using ht.legible, fun σ hσ => ?_⟩⟩
      · rw [stmtTree, returnLine, treeOf_emitted ht k]
        rfl
      · rw [goStmt, runLine]
        exact (ht.runs σ _ (agrees_cellsOf hL hσ)).bind fun v x hv =>
          .ok ⟨s, rfl, hv.convert hfits⟩
  · cases h

/-- A call as a statement. -/
theorem emitted_callStmt (hL : ScalarScope sigs L) (hcalls : CallsAgree sigs goCalls cCalls)
    (fuel : Nat) {x : Expr} (h : checkCall prog sigs L x = true) :
    ∃ c, (∀ k, stmtTree prog (.expr x) ⟨[], k⟩ = some (c, ⟨[], k⟩)) ∧
      Lowered sigs ret L L c.trees (goStmt prog goCalls fuel (.expr x)) (runStmt cCalls fuel c) := by
  unfold checkCall at h
  split at h
  · next fn args =>
      rw [Bool.and_eq_true, Option.isNone_iff_eq_none, Option.any_eq_true_iff_get] at h
      obtain ⟨hconv, hsome, hfit⟩ := h
      obtain ⟨p, hp⟩ := Option.isSome_iff_exists.mp hsome
      simp only [hp, Option.get_some] at hfit
      obtain ⟨ts, hts⟩ := emitted_exprs hL.plain hcalls args (isScalar_of_argsFit hfit)
      obtain ⟨htree, -, hlegible, hruns⟩ := emitted_calling hL.plain hcalls hconv hp hfit hts
      refine ⟨.simple (.expr (.call (.ident fn) args)) [.expr (.call (.leaf fn.name (some fn)) ts)],
        fun k => ?_, Lowered.line ⟨hL, ⟨[], rfl⟩, by simpa [CLine.trees] using hlegible,
          fun σ hσ => ?_⟩⟩
      · have htree' : treeOf prog ⟨[], k⟩ (.call (.ident fn) args) =
            some (.call (.leaf fn.name (some fn)) ts) := by
          show (exprTree prog [] _).toOption = _
          rw [htree]
          rfl
        rw [stmtTree, htree']
        rfl
      · obtain ⟨hfunc, hcall⟩ := hruns σ _ (agrees_cellsOf hL hσ)
        have hgo : goStmt prog goCalls fuel (.expr (.call (.ident fn) args)) σ =
            ((goExprs prog goCalls σ args).bind (goApply prog goCalls fn)).bind
              fun _ => stored σ := by
          rw [goStmt, goEffect]
          rcases goExprs prog goCalls σ args with h | vs
          · rfl
          · show ((goApply prog goCalls fn vs).bind _).bind _ = (goApply prog goCalls fn vs).bind _
            cases goApply prog goCalls fn vs <;> rfl
        have hc : runLine cCalls (.expr (.call (.leaf fn.name (some fn)) ts)) (cellsOf L σ) =
            ((runArgs cScalar cCalls (cellsOf L σ) ts).bind (cCalls fn.name)).bind
              fun _ => .ok (.next (cellsOf L σ)) := by
          rw [runLine, runEffect, hfunc, if_neg (by simp)]
          cases (runArgs cScalar cCalls (cellsOf L σ) ts).bind (cCalls fn.name) <;> rfl
        rw [hgo, hc]
        exact hcall.bind fun _ _ _ => runsAlike_stored hσ
  · cases h

mutual
/-- **A scalar statement is emitted, read back, and runs alike.** -/
theorem emitted_stmt (hcalls : CallsAgree sigs goCalls cCalls) (fuel : Nat) :
    ∀ (s : Stmt) {L L' : Locals}, ScalarScope sigs L → checkStmt prog sigs ret s L = some L' →
      ∃ c, (∀ k, stmtTree prog s ⟨[], k⟩ = some (c, ⟨[], k⟩)) ∧
        Lowered sigs ret L L' c.trees (goStmt prog goCalls fuel s) (runStmt cCalls fuel c)
  | .decl pos tok specs, L, L', hL, h => by
      unfold checkStmt at h
      split at h
      · exact emitted_decl hL hcalls fuel h
      · cases h
  | .assign lhs tok rhs, L, L', hL, h => by
      rw [checkStmt] at h
      obtain ⟨line, htree, hline⟩ := emitted_clause ret hL hcalls fuel h
      exact ⟨_, fun k => (htree k).2, hline.line⟩
  | .incDec x inc, L, L', hL, h => by
      rw [checkStmt] at h
      obtain ⟨line, htree, hline⟩ := emitted_clause ret hL hcalls fuel h
      exact ⟨_, fun k => (htree k).2, hline.line⟩
  | .expr x, L, L', hL, h => by
      rw [checkStmt] at h
      split_ifs at h with hx
      cases h
      exact emitted_callStmt hL hcalls fuel hx
  | .ret pos results, L, L', hL, h => emitted_return hL hcalls fuel h
  | .block pos list, L, L', hL, h => by
      rw [checkStmt] at h
      obtain ⟨L₁, hlist, rfl⟩ := Option.map_eq_some_iff.mp h
      obtain ⟨cs, htree, hcs⟩ := emitted_block hcalls fuel list hL hlist
      refine ⟨.block pos cs, fun k => ?_, ?_⟩
      · rw [stmtTree, htree]
        rfl
      · exact hcs.block hL
  -- what an arm declares does not outlive it: the scope after the branch is the one before it
  | .ifs pos init cond body els, L, L', hL, h => by
      rw [checkStmt] at h
      split_ifs at h with hcheck
      cases h
      simp only [Bool.and_eq_true, Option.isNone_iff_eq_none, decide_eq_true_eq] at hcheck
      obtain ⟨⟨⟨rfl, hcond⟩, hbody⟩, hels⟩ := hcheck
      obtain ⟨L₁, hbody⟩ := Option.isSome_iff_exists.mp hbody
      obtain ⟨t, hlegible, ht, htest⟩ := emitted_test hL hcalls hcond
      obtain ⟨cs, htrees, hcs⟩ := emitted_block hcalls fuel body hL hbody
      obtain ⟨c, htree, hc⟩ := emitted_else hcalls fuel els hL hels
      refine ⟨.ite pos cond t cs c, fun k => ?_, Lowered.branch hlegible htest (hcs.block hL) hc⟩
      rw [stmtTree, Option.isSome_none, if_neg (by simp)]
      simp only [ht, htrees, htree, Option.bind_eq_bind, Option.bind_some]
      rfl
  | .fors pos init cond post body, L, L', hL, h => by
      unfold checkStmt at h
      split at h
      · next i c p =>
          obtain ⟨L₁, hinit, hif⟩ := Option.bind_eq_some_iff.mp h
          split_ifs at hif with hcheck
          cases hif
          simp only [Bool.and_eq_true, decide_eq_true_eq] at hcheck
          obtain ⟨⟨hcond, hpost⟩, hbody⟩ := hcheck
          obtain ⟨L₂, hbody⟩ := Option.isSome_iff_exists.mp hbody
          obtain ⟨first, hfirst, hinit'⟩ := emitted_clause ret hL hcalls fuel hinit
          have hL₁ := hinit'.scope
          obtain ⟨t, hlegible, ht, htest⟩ := emitted_test hL₁ hcalls hcond
          obtain ⟨step, hstep, hpost'⟩ := emitted_clause ret hL₁ hcalls fuel hpost
          obtain ⟨cs, htrees, hcs⟩ := emitted_block hcalls fuel body hL₁ hbody
          -- the init clause scopes over the loop, and the loop is a block of its own
          have hloop := Lowered.loop hlegible htest hpost' (hcs.block hL₁) fuel
          refine ⟨.loop pos i first c t p step cs, fun k => ?_, (hinit'.seq hloop).block hL⟩
          rw [stmtTree]
          simp only [(hfirst k).1, ht, (hstep k).1, htrees, Option.bind_eq_bind, Option.bind_some]
          rfl
      · cases h
  | .other _ _ _, _, _, _, h => by
      rw [checkStmt] at h
      cases h

/-- **The statements of a block are emitted, and run alike.** -/
theorem emitted_block (hcalls : CallsAgree sigs goCalls cCalls) (fuel : Nat) :
    ∀ (list : List Stmt) {L L' : Locals}, ScalarScope sigs L →
      checkBlock prog sigs ret list L = some L' →
      ∃ cs, (∀ k, blockTree prog list ⟨[], k⟩ = some (cs, ⟨[], k⟩)) ∧
        Lowered sigs ret L L' (blockTrees cs) (goBlock prog goCalls fuel list)
          (runBlock cCalls fuel cs)
  | [], L, L', hL, h => by
      rw [checkBlock] at h
      cases h
      exact ⟨[], fun _ => rfl, .nothing hL⟩
  | s :: rest, L, L', hL, h => by
      rw [checkBlock] at h
      obtain ⟨L₁, hs, hrest⟩ := Option.bind_eq_some_iff.mp h
      obtain ⟨c, htree, hc⟩ := emitted_stmt hcalls fuel s hL hs
      obtain ⟨cs, htrees, hcs⟩ := emitted_block hcalls fuel rest hc.scope hrest
      refine ⟨c :: cs, fun k => ?_, hc.seq hcs⟩
      rw [blockTree, htree]
      simp only [Option.bind_eq_bind, Option.bind_some, htrees]
      rfl

/-- An else clause. -/
theorem emitted_else (hcalls : CallsAgree sigs goCalls cCalls) (fuel : Nat) :
    ∀ (els : Option Stmt) {L : Locals}, ScalarScope sigs L → checkElse prog sigs ret els L = true →
      ∃ c, (∀ k, elseTree prog els ⟨[], k⟩ = some (c, ⟨[], k⟩)) ∧
        Lowered sigs ret L L c.trees (goStmt? prog goCalls fuel els) (runElse cCalls fuel c)
  | none, L, hL, h => ⟨.none, fun _ => rfl, .nothing hL⟩
  | some (.block pos list), L, hL, h => by
      rw [checkElse] at h
      obtain ⟨L₁, hlist⟩ := Option.isSome_iff_exists.mp h
      obtain ⟨cs, htrees, hcs⟩ := emitted_block hcalls fuel list hL hlist
      refine ⟨.block pos cs, fun k => ?_, hcs.block hL⟩
      rw [elseTree, htrees]
      rfl
  | some (.ifs pos none cond body none), L, hL, h => by
      rw [checkElse, Bool.and_eq_true, decide_eq_true_eq] at h
      obtain ⟨L₁, hbody⟩ := Option.isSome_iff_exists.mp h.2
      obtain ⟨t, hlegible, ht, htest⟩ := emitted_test hL hcalls h.1
      obtain ⟨cs, htrees, hcs⟩ := emitted_block hcalls fuel body hL hbody
      have hbranch := Lowered.branch hlegible htest (hcs.block hL) (.nothing hL)
      rw [List.append_nil] at hbranch
      refine ⟨.elseIf pos cond t cs, fun k => ?_, hbranch⟩
      rw [elseTree]
      simp only [ht, htrees, Option.bind_eq_bind, Option.bind_some]
      rfl
  | some (.ifs _ (some _) _ _ _), _, _, h | some (.ifs _ none _ _ (some _)), _, _, h
  | some (.decl _ _ _), _, _, h | some (.assign _ _ _), _, _, h | some (.incDec _ _), _, _, h
  | some (.expr _), _, _, h | some (.ret _ _), _, _, h | some (.fors _ _ _ _ _), _, _, h
  | some (.other _ _ _), _, _, h => by cases h
end

end

end Gobee
