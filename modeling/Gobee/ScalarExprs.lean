/-
# Scalar expressions

Every scalar expression is emitted as a tree that C reads back from its text, and the tree has
in C the value that the expression has in Go, if the variables in scope have the same values
and the functions declared so far do the same.

* `emitted_expr` : **a scalar expression is emitted, read back, and keeps its value.**
-/
import Gobee.ScalarOps

namespace Gobee

open CSyntax MachineInt Refinement
open CSyntax.CExpr (level headWord)

/-! ## Agreement -/

/-- The variables in scope have the values of the variables of the running C function, where
no name hides a function. -/
structure CellsAgree (sigs : Signatures) (L : Locals) (σ : GoStore) (f : Cells) : Prop where
  var : ∀ p ∈ L, findCell f p.1.name = some ⟨p.1.name, p.2, some (σ p.1)⟩
  holds : ∀ p ∈ L, p.2.Holds (σ p.1)
  func : ∀ q ∈ sigs, findCell f q.1.name = none

/-- The names are names in C. -/
structure PlainNames (sigs : Signatures) (L : Locals) : Prop where
  var : ∀ p ∈ L, plainName p.1.name = true
  func : ∀ q ∈ sigs, plainName q.1.name = true

/-- The arguments of a call in both languages, by the types of the parameters. -/
def ArgsOf : List Scalar → List Int → List Typed → Prop
  | [], [], [] => True
  | s :: ss, n :: ns, x :: xs => (s.Holds n ∧ convert s x.2 = n) ∧ ArgsOf ss ns xs
  | _, _, _ => False

/-- A function with a result returns a value of its type, and any other function none. -/
def Returned : Option Scalar → Option Typed → Prop
  | none, none => True
  | some s, some x => x.1 = s ∧ s.Holds x.2
  | _, _ => False

/-- The functions declared so far do the same in both languages. -/
def CallsAgree (sigs : Signatures) (goCalls : GoCallees) (cCalls : Callees) : Prop :=
  ∀ q ∈ sigs, ∀ ns xs, ArgsOf (q.2.params.map Prod.snd) ns xs →
    Refines (fun r x => r = x ∧ Returned q.2.result r) (goCalls q.1 ns) (cCalls q.1.name xs)

/-- An expression is emitted as a tree that C reads back and that has its value. -/
structure Emitted (prog : Program) (sigs : Signatures) (L : Locals) (goCalls : GoCallees)
    (cCalls : Callees) (e : Expr) (t : CTree) : Prop where
  tree : exprTree prog [] e = .ok t
  legible : Legible t
  short : isShort e = true →
    unaryLevel ≤ level t ∧ (isOperand (headWord t) = true ∨ headWord t = ['('])
  runs : ∀ σ f, CellsAgree sigs L σ f →
    Refines (ValueOf prog sigs L e) (goExpr prog goCalls σ e) (runExpr cScalar cCalls f t)

section

variable {prog : Program} {sigs : Signatures} {L : Locals} {goCalls : GoCallees}
  {cCalls : Callees}

/-! ## Leaves -/

theorem isDigit_of_digitValue {c : Char} {d : Nat} (h : digitValue c = some d) (hd : d < 10) :
    c.isDigit = true := by
  unfold digitValue at h
  split_ifs at h with hdigit
  · exact hdigit
  · cases h
    omega
  · cases h
    omega

theorem digits_of_decimalLiteral {v : Text} {n : Nat} (h : decimalLiteral v = some n) :
    v ≠ [] ∧ ∀ c ∈ v, c.isDigit = true := by
  match v with
  | [] => cases h
  | c :: ds =>
      refine ⟨List.cons_ne_nil _ _, ?_⟩
      by_cases hc : c = '0'
      · subst hc
        cases ds with
        | nil =>
            intro c hc
            rw [List.mem_singleton.mp hc]
            rfl
        | cons d ds => cases h
      · rw [decimalLiteral_of_ne hc] at h
        intro d hd
        by_contra hdigit
        have hnone : digitsValue 10 _ = none := digitsValue_eq_none hd fun k hk => by
          by_contra hlt
          exact hdigit (isDigit_of_digitValue hk (by omega))
        rw [hnone] at h
        cases h

/-- A decimal literal below `2 ^ 31` is an operand of type `int`. -/
theorem leafValue_decimal {v : Text} {n : Nat} (h : decimalLiteral v = some n) (hn : n < 2 ^ 31)
    (f : Cells) : isOperand v = true ∧ leafValue f v = some (.int int32, (n : Int)) := by
  obtain ⟨hne, hdigits⟩ := digits_of_decimalLiteral h
  have htype : decimalType n = some int32 := by
    have hholds : int32.Holds n := ⟨by
      have hmin : int32.min = -2 ^ 31 := rfl
      omega, by
      have hbound : int32.bound = 2 ^ 31 := rfl
      omega⟩
    unfold decimalType decimalTypes
    rw [List.find?_cons_of_pos (by simpa using hholds)]
  have htruth : truthWord v = none := by
    obtain ⟨c, cs, rfl⟩ := List.exists_cons_of_ne_nil hne
    have hc := hdigits c List.mem_cons_self
    unfold truthWord
    rw [if_neg, if_neg]
    · rintro heq
      rw [show c = 'f' from (List.cons.inj heq).1] at hc
      revert hc
      decide
    · rintro heq
      rw [show c = 't' from (List.cons.inj heq).1] at hc
      revert hc
      decide
  refine ⟨isOperand_digits hne hdigits, ?_⟩
  rw [leafValue, htruth, constantValue_decimal h, htype]
  rfl

/-- An operand on its own. -/
theorem emitted_leaf {e : Expr} {w : Text} {tag : Option Ident}
    (htree : exprTree prog [] e = .ok (.leaf w tag)) (hw : isOperand w = true)
    (hruns : ∀ σ f, CellsAgree sigs L σ f →
      Refines (ValueOf prog sigs L e) (goExpr prog goCalls σ e) (orFault (leafValue f w))) :
    Emitted prog sigs L goCalls cCalls e (.leaf w tag) where
  tree := htree
  legible := legible_leaf hw
  short _ := ⟨(by decide : unaryLevel ≤ primaryLevel), .inl hw⟩
  runs := hruns

theorem numberTree_itoa (n : Nat) : numberTree (itoa n) = name (itoa n) := by
  unfold numberTree
  split
  · next digits heq =>
      have hdigit := isDigit_of_mem_itoa (n := n) (c := '-') (by
        rw [heq]
        exact List.mem_cons_self)
      exact absurd hdigit (by decide)
  · rfl

/-- A constant. -/
theorem emitted_literal {e : Expr} {n : Nat} (h : litValue prog e = some n) :
    ∃ t, Emitted prog sigs L goCalls cCalls e t := by
  have hvalue : n < 2 ^ 31 → ValueOf prog sigs L e (none, (n : Int)) (.int int32, (n : Int)) :=
    fun hn => ⟨(scalarTy_of_litValue h).symm, fun _ => by rw [Int.toNat_natCast]; exact h,
      rfl, by simp, by simpa using by omega⟩
  match e with
  | .basicLit pos kind v =>
      obtain ⟨rfl, hdec, hn⟩ : kind = .int ∧ decimalLiteral v = some n ∧ n < 2 ^ 31 := by
        cases kind with
        | int =>
            obtain ⟨hv, hlt⟩ := Option.filter_eq_some_iff.mp h
            exact ⟨rfl, hv, by simpa using hlt⟩
        | _ => cases h
      obtain ⟨hoperand, -⟩ := leafValue_decimal hdec hn []
      refine ⟨_, emitted_leaf rfl hoperand fun σ f _ => ?_⟩
      rw [goExpr, hdec, (leafValue_decimal hdec hn f).2]
      exact .ok (hvalue hn)
  | .ident id =>
      rw [litValue] at h
      split at h
      · next decl m ty huses =>
          split_ifs at h with hrange
          obtain rfl := Option.some.inj h
          have hn : m.toNat < 2 ^ 31 := by omega
          have hm : m = (m.toNat : Int) := (Int.toNat_of_nonneg hrange.1).symm
          have hdec := decimalLiteral_itoa m.toNat
          have htext : intText m = itoa m.toNat := by
            rw [hm]
            rfl
          have htree : exprTree prog [] (.ident id) = .ok (name (itoa m.toNat)) := by
            show Except.ok (identTree prog [] id) = _
            unfold identTree
            rw [huses]
            show Except.ok (numberTree (intText m)) = _
            rw [htext, numberTree_itoa]
          obtain ⟨hoperand, -⟩ := leafValue_decimal hdec hn []
          refine ⟨_, emitted_leaf htree hoperand fun σ f _ => ?_⟩
          rw [goExpr, goIdent, huses, (leafValue_decimal hdec hn f).2]
          have hv := hvalue hn
          rw [← hm] at hv ⊢
          exact .ok hv
      · cases h

theorem mem_of_localVar {id : Ident} {p : Ident × Scalar} (h : localVar prog L id = some p) :
    scalarVar prog id = some p ∧ id.name = p.1.name ∧ p ∈ L := by
  obtain ⟨hvar, hname⟩ := Option.filter_eq_some_iff.mp h
  rw [decide_eq_true_eq] at hname
  refine ⟨hvar, hname.1, ?_⟩
  obtain ⟨_, _, hmem, -⟩ := List.lookup_eq_some_iff.mp hname.2
  rw [hmem]
  simp

theorem uses_of_scalarVar {id : Ident} {p : Ident × Scalar} (h : scalarVar prog id = some p) :
    ∃ kind, prog.info.uses id = some ⟨p.1, .var, .basic kind⟩ := by
  unfold scalarVar at h
  split at h
  · next decl kind huses =>
      obtain ⟨s, -, rfl⟩ := Option.map_eq_some_iff.mp h
      exact ⟨kind, huses⟩
  · cases h

/-- The value of a variable in scope, in both languages. -/
theorem value_var {id : Ident} {p : Ident × Scalar} (hL : PlainNames sigs L)
    (h : localVar prog L id = some p) {σ : GoStore} {f : Cells} (hf : CellsAgree sigs L σ f) :
    goIdent prog σ id = some (some p.2, σ p.1) ∧
      leafValue f id.name = some (p.2, σ p.1) ∧
      ValueOf prog sigs L (.ident id) (some p.2, σ p.1) (p.2, σ p.1) := by
  obtain ⟨hvar, hname, hmem⟩ := mem_of_localVar h
  obtain ⟨kind, huses⟩ := uses_of_scalarVar hvar
  have hplain := hL.var p hmem
  simp only [plainName, Bool.and_eq_true, Option.isNone_iff_eq_none] at hplain
  refine ⟨?_, ?_, ?_, ?_, ?_⟩
  · rw [goIdent, huses]
    simp only
    rw [hvar]
    rfl
  · rw [leafValue, hname, hplain.1.2, hplain.2, hf.var p hmem]
    rfl
  · rw [scalarTy, identTy, huses]
    simp only
    rw [h]
    rfl
  · intro hnone
    cases hnone
  · have hholds := hf.holds p hmem
    cases hp : p.2 with
    | bool =>
        rw [hp] at hholds
        exact ⟨rfl, hholds, .inl rfl⟩
    | int t =>
        rw [hp] at hholds
        exact ⟨rfl, hholds⟩

/-- A variable in scope. -/
theorem emitted_var {id : Ident} {p : Ident × Scalar} (hL : PlainNames sigs L)
    (h : localVar prog L id = some p) :
    Emitted prog sigs L goCalls cCalls (.ident id) (.leaf id.name (some id)) := by
  obtain ⟨hvar, hname, hmem⟩ := mem_of_localVar h
  obtain ⟨kind, huses⟩ := uses_of_scalarVar hvar
  have hplain := hL.var p hmem
  simp only [plainName, Bool.and_eq_true] at hplain
  refine emitted_leaf ?_ (by rw [hname]; exact hplain.1.1.2) fun σ f hf => ?_
  · show Except.ok (identTree prog [] id) = _
    unfold identTree
    rw [huses]
    rfl
  · obtain ⟨hgo, hc, hvalue⟩ := value_var hL h hf
    rw [goExpr, hgo, hc]
    exact .ok hvalue

/-- A truth value. -/
theorem emitted_truth {id : Ident} {decl : Ident} {b : Bool} {ty : GoType}
    (huses : prog.info.uses id = some ⟨decl, .const (.bool b), ty⟩)
    (hbool : usesKernelFieldAccess prog = true) :
    ∃ t, Emitted prog sigs L goCalls cCalls (.ident id) t := by
  have hconst : ∀ b : Bool, isOperand (ConstVal.bool b).exactString = true ∧
      ∀ f, leafValue f (ConstVal.bool b).exactString = some (truth b) := by
    intro b
    cases b
    · exact ⟨by decide, fun f => rfl⟩
    · exact ⟨by decide, fun f => rfl⟩
  obtain ⟨hoperand, hvalue⟩ := hconst b
  have htree : exprTree prog [] (.ident id) = .ok (name (ConstVal.bool b).exactString) := by
    show Except.ok (identTree prog [] id) = _
    unfold identTree
    rw [huses]
    rfl
  refine ⟨_, emitted_leaf htree hoperand fun σ f _ => ?_⟩
  rw [goExpr, goIdent, huses, hvalue f]
  refine .ok ⟨?_, (by intro h; cases h), shows_truth b⟩
  rw [scalarTy, identTy, huses]
  exact (if_pos hbool).symm

/-! ## Operators -/

theorem emitted_paren {pos : Pos} {e : Expr} {t : CTree}
    (h : Emitted prog sigs L goCalls cCalls e t) (hs : (scalarTy prog sigs L e).isSome = true) :
    Emitted prog sigs L goCalls cCalls (.paren pos e) (.paren t) where
  tree := by
    have htree : (nodeTree prog [] e).text = .ok t := h.tree
    rw [exprTree, nodeTree, Formatted.plain, htree]
    rfl
  legible := legible_paren.mpr h.legible
  short _ := ⟨(by decide : unaryLevel ≤ primaryLevel), .inr rfl⟩
  runs σ f hf := by
    rw [goExpr, runExpr]
    refine (h.runs σ f hf).mono fun v x hv => ⟨?_, fun hnone => ?_, hv.shows⟩
    · rw [scalarTy]
      exact hv.type
    · rw [hv.type] at hnone
      rw [hnone] at hs
      cases hs

/-- A result of the type that the test gives the expression. -/
theorem ResultOf.valueOf {e : Expr} {s : Scalar} (hs : scalarTy prog sigs L e = some s) {v : GoVal}
    {x : Typed} (h : ResultOf s v x) : ValueOf prog sigs L e v x :=
  ⟨h.1.trans hs.symm, fun hnone => (by rw [h.1] at hnone; cases hnone), h.2⟩

theorem signTy_cases {op : UnaryOp} {t : Option Scalar} {s : Scalar} (h : signTy op t = some s) :
    (op = .not ∧ t = some .bool ∧ s = .bool) ∨
      ∃ o u, signOf op = some o ∧ t = some (.int u) ∧ u ∈ wordTys ∧ s = .int u := by
  unfold signTy at h
  split at h
  · exact .inl ⟨rfl, rfl, (Option.some.inj h).symm⟩
  · next o u hsign =>
      split_ifs at h with hu
      exact .inr ⟨o, u, hsign, rfl, hu, (Option.some.inj h).symm⟩
  · cases h

/-- Minus and complement of a word. -/
theorem refines_signWord {op : UnaryOp} {o : SignOp} {t : IntTy} (hop : signOf op = some o)
    (ht : t ∈ wordTys) (n : Int) :
    unaryText op = some (signText o) ∧
      Refines (ResultOf (.int t)) (goSign op (some (.int t), n))
        (orFault (unaryValue (signText o) (.int t, n))) := by
  obtain ⟨hpromote, harith⟩ := word_arith ht
  have hvalue : unaryValue (signText o) (.int t, n) = some (.int t, t.wrap (o.apply n)) := by
    rw [← harith, ← congrArg (fun u => arith u (o.apply n)) hpromote]
    cases o <;> rfl
  have hgo : goSign op (some (.int t), n) =
      (orFault (goUnary o (.int t, n))).bind fun r => .ok (Typed.operand r) := by
    cases op <;> cases hop <;> rfl
  refine ⟨by cases op <;> cases hop <;> rfl, ?_⟩
  rw [hgo, hvalue]
  exact refines_result ⟨_, rfl, rfl, _, rfl, rfl, t.wrap_holds _⟩

/-- The unary operators. -/
theorem refines_sign {op : UnaryOp} {e : Expr} {s : Scalar}
    (hs : signTy op (scalarTy prog sigs L e) = some s) :
    ∃ w, w ∈ (["!", "-", "~"] : List Text) ∧ unaryText op = some w ∧
      ∀ v x, ValueOf prog sigs L e v x →
        Refines (ResultOf s) (goSign op v) (orFault (unaryValue w x)) := by
  obtain ⟨rfl, ht, rfl⟩ | ⟨o, u, hop, ht, hu, rfl⟩ := signTy_cases hs
  · refine ⟨['!'], by decide, rfl, ?_⟩
    rintro ⟨t, n⟩ x ⟨htype, -, hshows⟩
    obtain rfl : t = some .bool := htype.trans ht
    obtain ⟨rfl, -, -⟩ := hshows
    exact .ok ⟨rfl, shows_truth _⟩
  · refine ⟨signText o, by cases o <;> decide, (refines_signWord hop hu 0).1, ?_⟩
    rintro ⟨t, n⟩ x ⟨htype, -, hshows⟩
    obtain rfl : t = some (.int u) := htype.trans ht
    obtain ⟨rfl, -⟩ := hshows
    exact (refines_signWord hop hu n).2

theorem emitted_unary {pos : Pos} {op : UnaryOp} {e : Expr} {t : CTree} {s : Scalar}
    (h : Emitted prog sigs L goCalls cCalls e t) (hshort : isShort e = true)
    (hs : signTy op (scalarTy prog sigs L e) = some s) :
    ∃ t', Emitted prog sigs L goCalls cCalls (.unary pos op e) t' := by
  obtain ⟨w, hw, htext, hruns⟩ := refines_sign hs
  obtain ⟨hlevel, hhead⟩ := h.short hshort
  have hprefix : w ∈ prefixOps := by
    have hall : ∀ o ∈ (["!", "-", "~"] : List Text), o ∈ prefixOps := by decide
    exact hall w hw
  have htype : scalarTy prog sigs L (.unary pos op e) = some s := by
    rw [scalarTy, if_pos hshort, hs]
  refine ⟨.unary w t, ?_, ?_, fun hf => (by cases hf), fun σ f hf => ?_⟩
  · have htree : (nodeTree prog [] e).text = .ok t := h.tree
    rw [exprTree, nodeTree, Formatted.plain, htree]
    simp only [unaryTree, htext]
    rfl
  · exact (legible_unary hprefix).mpr ⟨hlevel, joint_sign hw hhead, h.legible⟩
  · rw [goExpr, runExpr]
    exact (h.runs σ f hf).bind fun v x hv =>
      (hruns v x hv).mono fun _ _ hr => hr.valueOf htype

/-- The truth value that a condition is turned into. -/
theorem ResultOf.truth {v : GoVal} {x : Typed} (h : ResultOf .bool v x) :
    ResultOf .bool v (CSyntax.truth (x.2 ≠ 0)) := by
  obtain ⟨u, n⟩ := v
  obtain ⟨rfl, rfl, hn, -⟩ := h
  refine ⟨rfl, ?_, hn, .inr rfl⟩
  obtain hn | hn := hn <;> rw [hn] <;> rfl

/-- The connectives evaluate their right operand only where it matters. -/
theorem refines_connective {x y : Expr} {s : Scalar} {c : OpClass} {l r : CTree} {σ : GoStore}
    {f : Cells} (hc : c = .land ∨ c = .lor) (hl : Emitted prog sigs L goCalls cCalls x l)
    (hr : Emitted prog sigs L goCalls cCalls y r)
    (hs : operationTy prog c x (scalarTy prog sigs L x) y (scalarTy prog sigs L y) = some s)
    (hf : CellsAgree sigs L σ f) (stop : Bool) :
    Refines (ResultOf s)
      ((goExpr prog goCalls σ x).bind fun v =>
        if decide (v.2 ≠ 0) = stop then .ok (some .bool, ofBool stop) else goExpr prog goCalls σ y)
      ((runExpr cScalar cCalls f l).bind fun v =>
        if decide (v.2 ≠ 0) = stop then .ok (truth stop)
        else (runExpr cScalar cCalls f r).bind fun w => .ok (truth (w.2 ≠ 0))) := by
  obtain ⟨hshift, -⟩ | ⟨u, hu, hx, hy, hres⟩ := operationTy_cases hs
  · obtain rfl | rfl := hc <;> obtain h | h := hshift <;> cases h
  · obtain ⟨rfl, rfl⟩ : u = .bool ∧ s = .bool := by
      obtain rfl | rfl := hc <;> cases u <;> cases hres <;> exact ⟨rfl, rfl⟩
    refine (hl.runs σ f hf).bind fun v x' hv => ?_
    rw [(hv.truth hx).2.value]
    split_ifs with hstop
    · exact .ok ⟨rfl, shows_truth stop⟩
    · exact (hr.runs σ f hf).mapRight fun w y' hw => (hw.truth hy).truth

/-- The two languages evaluate the operands of an operator in the same way. -/
theorem refines_binary {x y : Expr} {s : Scalar} {op : BinaryOp} {c : OpClass} {l r : CTree}
    {σ : GoStore} {f : Cells} (hop : classOf op = some c)
    (hl : Emitted prog sigs L goCalls cCalls x l) (hr : Emitted prog sigs L goCalls cCalls y r)
    (hs : operationTy prog c x (scalarTy prog sigs L x) y (scalarTy prog sigs L y) = some s)
    (hf : CellsAgree sigs L σ f) :
    Refines (ResultOf s) (goExpr prog goCalls σ (.binary x op y))
      (runExpr cScalar cCalls f (.binary true op.string l r)) := by
  have hstrict : ∀ hand : c ≠ .land, ∀ hor : c ≠ .lor, Refines (ResultOf s)
      ((goExpr prog goCalls σ x).bind fun v =>
        (goExpr prog goCalls σ y).bind fun w => goOperate c v w)
      ((runExpr cScalar cCalls f l).bind fun v => (runExpr cScalar cCalls f r).bind fun w =>
        orFault (binaryValue op.string v w)) := fun hand hor =>
    (hl.runs σ f hf).bind fun v x' hv => (hr.runs σ f hf).bind fun w y' hw =>
      refines_operate hop hand hor hs hv hw
  rw [goExpr, hop, runExpr]
  cases c with
  | land =>
      obtain rfl : op = .land := by cases op <;> cases hop; rfl
      have hconn := refines_connective (.inl rfl) hl hr hs hf false
      simp only [decide_eq_false_iff_not, not_not] at hconn
      rw [if_pos (by decide)]
      exact hconn
  | lor =>
      obtain rfl : op = .lor := by cases op <;> cases hop; rfl
      have hconn := refines_connective (.inr rfl) hl hr hs hf true
      simp only [decide_eq_true_eq] at hconn
      simp only [ite_not] at hconn
      rw [if_neg (by decide), if_pos (by decide)]
      simp only [ne_eq, ite_not]
      exact hconn
  | _ =>
      rw [if_neg (by cases op <;> cases hop <;> decide), if_neg (by cases op <;> cases hop <;> decide)]
      exact hstrict (by rintro ⟨⟩) (by rintro ⟨⟩)

theorem emitted_binary {x y : Expr} {s : Scalar} {op : BinaryOp} {c : OpClass} {l r : CTree}
    (hop : classOf op = some c) (hl : Emitted prog sigs L goCalls cCalls x l)
    (hr : Emitted prog sigs L goCalls cCalls y r) (hshort : isShort x = true ∧ isShort y = true)
    (hs : operationTy prog c x (scalarTy prog sigs L x) y (scalarTy prog sigs L y) = some s) :
    Emitted prog sigs L goCalls cCalls (.binary x op y) (.binary true op.string l r) where
  tree := by
    have hx : (nodeTree prog [] x).text = .ok l := hl.tree
    have hy : (nodeTree prog [] y).text = .ok r := hr.tree
    rw [exprTree, nodeTree, Formatted.plain, hx, hy]
    rfl
  legible := by
    have htok : 0 < opLevel op.string ∧ isToken op.string = true := by
      cases op <;> first | (cases hop; done) | decide
    exact legible_operation htok.1 htok.2 hl.legible hr.legible
      ⟨(hl.short hshort.1).1, (hr.short hshort.2).1⟩
  short h := by cases h
  runs σ f hf := by
    have htype : scalarTy prog sigs L (.binary x op y) = some s := by
      rw [scalarTy, hshort.1, hshort.2, hop]
      exact hs
    exact (refines_binary hop hl hr hs hf).mono fun _ _ h => h.valueOf htype

/-! ## Calls -/

theorem callTree_ident (prog : Program) (fn : Ident) (fnTree : Gobee.Result CTree)
    (args : List (Gobee.Result CTree)) :
    callTree prog (.ident fn) fnTree args =
      orTry (conversionTree prog (.ident fn) args) (userTree fnTree args) := rfl

theorem goExpr_conversion {fn : Ident} {x : Expr} {s : Scalar}
    (hs : conversionScalar prog fn = some s) (σ : GoStore) :
    goExpr prog goCalls σ (.call (.ident fn) [x]) =
      (goExpr prog goCalls σ x).bind fun v => .ok (some s, goConvert s v.2) := by
  rw [goExpr, goExprs, goExprs]
  cases goExpr prog goCalls σ x with
  | error h => rfl
  | ok v =>
      show (goApply prog goCalls fn [v]).bind orFault = _
      unfold goApply
      rw [hs]
      rfl

/-- A conversion. -/
theorem emitted_conversion {fn : Ident} {x : Expr} {u : IntTy} {t : CTree}
    (h : Emitted prog sigs L goCalls cCalls x t) (hu : conversionScalar prog fn = some (.int u))
    (hnamed : conversionNamed prog fn = true)
    (hs : scalarTy prog sigs L (.call (.ident fn) [x]) = some (.int u)) :
    ∃ t', Emitted prog sigs L goCalls cCalls (.call (.ident fn) [x]) t' := by
  obtain ⟨cType, hlookup, hscalar⟩ := conversionNamed_cScalar hnamed hu
  have htree : (nodeTree prog [] x).text = .ok t := h.tree
  have hconv : conversionType (.ident fn) = some cType := hlookup
  have hcast : CastType [cType] := by
    have hall : ∀ p ∈ goBasicNameToC, isToken p.2 = true ∧ isTypeWord p.2 = true := by decide
    obtain ⟨_, _, hmem, -⟩ := List.lookup_eq_some_iff.mp hlookup
    obtain ⟨htok, hword⟩ := hall (fn.name, cType) (by rw [hmem]; simp)
    refine ⟨by simpa using htok, ⟨.inr ?_, trivial⟩, cType, [], rfl, hword, by simp⟩
    intro c hc
    cases hc
  refine ⟨.cast [cType] (.paren t), ?_, ?_, fun _ => ⟨le_refl unaryLevel, .inr rfl⟩, ?_⟩
  · rw [exprTree, nodeTree, Formatted.plain, callTree_ident, nodeTrees, nodeTrees, htree,
      conversionTree, hconv]
    rfl
  · exact (legible_cast hcast).mpr
      ⟨(by decide : unaryLevel ≤ primaryLevel), legible_paren.mpr h.legible⟩
  · intro σ f hf
    rw [goExpr_conversion hu, runExpr, runExpr, hscalar]
    refine (h.runs σ f hf).bind fun v x' hv => .ok (ResultOf.valueOf hs ⟨rfl, ?_⟩)
    rw [hv.shows.value]
    exact ⟨rfl, u.wrap_holds _⟩

theorem sequence_nodeTrees {args : List Expr} {ts : List CTree}
    (h : List.Forall₂ (Emitted prog sigs L goCalls cCalls) args ts) :
    sequence (nodeTrees prog [] args) = .ok ts := by
  induction h with
  | nil => rfl
  | @cons e t args ts he _ ih =>
      have htree : (nodeTree prog [] e).text = .ok t := he.tree
      rw [nodeTrees, htree, sequence, ih]
      rfl

theorem legible_args {args : List Expr} {ts : List CTree}
    (h : List.Forall₂ (Emitted prog sigs L goCalls cCalls) args ts) : ∀ t ∈ ts, Legible t := by
  induction h with
  | nil => simp
  | cons he _ ih => exact List.forall_mem_cons.mpr ⟨he.legible, ih⟩

/-- The arguments of a call. -/
theorem refines_args {σ : GoStore} {f : Cells} (hf : CellsAgree sigs L σ f) {args : List Expr}
    {ts : List CTree} (h : List.Forall₂ (Emitted prog sigs L goCalls cCalls) args ts) :
    ∀ {params : List Scalar}, argsFit prog params args (scalarTys prog sigs L args) = true →
      Refines (fun vs xs => ArgsOf params (vs.map Prod.snd) xs) (goExprs prog goCalls σ args)
        (runArgs cScalar cCalls f ts) := by
  induction h with
  | nil =>
      intro params hfit
      cases params with
      | nil => exact .ok trivial
      | cons s ss => cases hfit
  | @cons e t args ts he _ ih =>
      intro params hfit
      cases params with
      | nil => cases hfit
      | cons s ss =>
          rw [scalarTys, argsFit, Bool.and_eq_true] at hfit
          rw [goExprs, runArgs]
          refine (he.runs σ f hf).bind fun v x hv => (ih hfit.2).bind fun vs xs hvs => ?_
          exact .ok ⟨hv.convert hfit.1, hvs⟩

theorem calledSig_eq_some {fn : Ident} {p : Ident × Signature}
    (h : calledSig prog sigs fn = some p) :
    (∃ ty, prog.info.uses fn = some ⟨p.1, .func, ty⟩) ∧ fn.name = p.1.name ∧
      goBasicNameToC.lookup fn.name = none ∧ p ∈ sigs := by
  unfold calledSig at h
  split at h
  · next decl ty huses =>
      split_ifs at h with hif
      obtain ⟨sig, hsig, rfl⟩ := Option.map_eq_some_iff.mp h
      refine ⟨⟨ty, huses⟩, hif.1, Option.isNone_iff_eq_none.mp hif.2, ?_⟩
      obtain ⟨_, _, hmem, -⟩ := List.lookup_eq_some_iff.mp hsig
      rw [hmem]
      simp
  · cases h

section

variable {fn : Ident} {p : Ident × Signature} {args : List Expr} {ts : List CTree}

theorem goApply_call {decl : Ident} {ty : GoType} (hconv : conversionScalar prog fn = none)
    (huses : prog.info.uses fn = some ⟨decl, .func, ty⟩) (vs : List GoVal) :
    goApply prog goCalls fn vs =
      (goCalls decl (vs.map Prod.snd)).bind fun r => .ok (r.map Typed.operand) := by
  unfold goApply
  rw [hconv, huses]

/-- A call of a function declared before, with its effect in both languages. -/
theorem emitted_calling (hL : PlainNames sigs L) (hcalls : CallsAgree sigs goCalls cCalls)
    (hconv : conversionScalar prog fn = none) (hp : calledSig prog sigs fn = some p)
    (hfit : argsFit prog (p.2.params.map Prod.snd) args (scalarTys prog sigs L args) = true)
    (hargs : List.Forall₂ (Emitted prog sigs L goCalls cCalls) args ts) :
    exprTree prog [] (.call (.ident fn) args) = .ok (.call (.leaf fn.name (some fn)) ts) ∧
      isOperand fn.name = true ∧ Legible (.call (.leaf fn.name (some fn)) ts : CTree) ∧
      ∀ σ f, CellsAgree sigs L σ f → findCell f fn.name = none ∧
        Refines (fun r x => Returned p.2.result x ∧ r = x.map Typed.operand)
          ((goExprs prog goCalls σ args).bind (goApply prog goCalls fn))
          ((runArgs cScalar cCalls f ts).bind (cCalls fn.name)) := by
  obtain ⟨⟨ty, huses⟩, hname, hlookup, hmem⟩ := calledSig_eq_some hp
  have hplain := hL.func p hmem
  simp only [plainName, Bool.and_eq_true] at hplain
  have hoperand : isOperand fn.name = true := by
    rw [hname]
    exact hplain.1.1.2
  refine ⟨?_, hoperand, ?_, fun σ f hf => ⟨?_, ?_⟩⟩
  · have htree : (nodeTree prog [] (.ident fn)).text = .ok (.leaf fn.name (some fn)) := by
      show Except.ok (identTree prog [] fn) = _
      unfold identTree
      rw [huses]
      rfl
    have hnone : conversionType (.ident fn) = none := hlookup
    rw [exprTree, nodeTree, Formatted.plain, callTree_ident, conversionTree, hnone, htree]
    show userTree _ _ = _
    rw [userTree, sequence_nodeTrees hargs]
    rfl
  · refine legible_call.mpr ⟨(by decide : postfixLevel ≤ primaryLevel), legible_leaf hoperand, ?_⟩
    exact legible_args hargs
  · rw [hname]
    exact hf.func p hmem
  · refine (refines_args hf hargs hfit).bind fun vs xs hvs => ?_
    rw [goApply_call hconv huses, hname]
    refine (hcalls p hmem _ _ hvs).mapLeft ?_
    rintro r _ ⟨rfl, hr⟩
    exact ⟨hr, rfl⟩

/-- A call of a function declared before that returns a value. -/
theorem emitted_call {s : Scalar} (hL : PlainNames sigs L)
    (hcalls : CallsAgree sigs goCalls cCalls) (hconv : conversionScalar prog fn = none)
    (hp : calledSig prog sigs fn = some p)
    (hfit : argsFit prog (p.2.params.map Prod.snd) args (scalarTys prog sigs L args) = true)
    (hres : p.2.result = some s)
    (hargs : List.Forall₂ (Emitted prog sigs L goCalls cCalls) args ts) :
    Emitted prog sigs L goCalls cCalls (.call (.ident fn) args)
      (.call (.leaf fn.name (some fn)) ts) := by
  obtain ⟨htree, hoperand, hlegible, hruns⟩ :=
    emitted_calling hL hcalls hconv hp hfit hargs
  have htype : scalarTy prog sigs L (.call (.ident fn) args) = some s := by
    rw [scalarTy, callTy, hconv, hp]
    simp only [Option.bind_some]
    rw [if_pos hfit, hres]
  refine ⟨htree, hlegible, fun _ => ⟨(by decide : unaryLevel ≤ postfixLevel), .inl hoperand⟩,
    fun σ f hf => ?_⟩
  obtain ⟨hfunc, hcall⟩ := hruns σ f hf
  have hgo : goExpr prog goCalls σ (.call (.ident fn) args) =
      ((goExprs prog goCalls σ args).bind (goApply prog goCalls fn)).bind orFault := by
    rw [goExpr]
    cases goExprs prog goCalls σ args <;> rfl
  rw [hgo, runExpr, hfunc, if_neg (by simp)]
  refine hcall.bind ?_
  rintro _ x ⟨hx, rfl⟩
  rw [hres] at hx
  obtain _ | ⟨u, n⟩ := x
  · cases hx
  · obtain ⟨rfl, hn⟩ := hx
    refine .ok (ResultOf.valueOf htype ⟨rfl, ?_⟩)
    cases u with
    | bool => exact ⟨rfl, hn, .inl rfl⟩
    | int t => exact ⟨rfl, hn⟩

end

/-! ## All expressions -/

theorem emitted_ident {id : Ident} (hL : PlainNames sigs L)
    (h : isScalar prog sigs L (.ident id) = true) :
    ∃ t, Emitted prog sigs L goCalls cCalls (.ident id) t := by
  cases hlit : litValue prog (.ident id) with
  | some n => exact emitted_literal hlit
  | none =>
      rw [isScalar, hlit, Option.isSome_none, Bool.or_false, scalarTy, identTy] at h
      split at h
      · next huses =>
          split_ifs at h with hbool
          · exact emitted_truth huses hbool
          · cases h
      · obtain ⟨p, hp⟩ := Option.isSome_iff_exists.mp (by simpa using h)
        exact ⟨_, emitted_var hL hp⟩

theorem isScalar_of_type {e : Expr} {s : Scalar} (h : scalarTy prog sigs L e = some s) :
    isScalar prog sigs L e = true := by
  rw [isScalar, h]
  rfl

theorem isScalar_of_argsFit : ∀ {params : List Scalar} {args : List Expr},
    argsFit prog params args (scalarTys prog sigs L args) = true →
    ∀ e ∈ args, isScalar prog sigs L e = true
  | [], [], _ => by simp
  | [], _ :: _, h => by cases h
  | _ :: _, [], h => by cases h
  | _ :: _, _ :: _, h => by
      rw [scalarTys, argsFit, Bool.and_eq_true] at h
      exact List.forall_mem_cons.mpr ⟨isScalar_of_fits h.1, isScalar_of_argsFit h.2⟩

/-- The operands of an operator are scalar. -/
theorem isScalar_of_operationTy {c : OpClass} {x y : Expr} {s : Scalar}
    (h : operationTy prog c x (scalarTy prog sigs L x) y (scalarTy prog sigs L y) = some s) :
    isScalar prog sigs L x = true ∧ isScalar prog sigs L y = true := by
  obtain ⟨-, t, n, ht, hn, -⟩ | ⟨u, -, hx, hy, -⟩ := operationTy_cases h
  · refine ⟨isScalar_of_type ht, ?_⟩
    rw [isScalar, hn, Option.isSome_some, Bool.or_true]
  · exact ⟨isScalar_of_fits hx, isScalar_of_fits hy⟩

theorem conversionTy_cases {fn : Ident} {u : IntTy} {args : List Expr} {s : Scalar}
    (h : conversionTy prog fn u args (scalarTys prog sigs L args) = some s) :
    ∃ x, args = [x] ∧ s = .int u ∧ conversionNamed prog fn = true ∧
      isScalar prog sigs L x = true := by
  match args with
  | [] => cases h
  | [x] =>
      rw [scalarTys, scalarTys] at h
      cases hx : scalarTy prog sigs L x with
      | none =>
          rw [hx, conversionTy] at h
          split_ifs at h with hif
          rw [Bool.and_eq_true] at hif
          exact ⟨x, rfl, (Option.some.inj h).symm, hif.1, isScalar_of_fits (by rw [hx]; exact hif.2)⟩
      | some t =>
          cases t with
          | bool =>
              rw [hx] at h
              cases h
          | int t =>
              rw [hx, conversionTy] at h
              split_ifs at h with hif
              exact ⟨x, rfl, (Option.some.inj h).symm, hif, isScalar_of_type hx⟩
  | x :: y :: rest =>
      rw [scalarTys, scalarTys] at h
      generalize scalarTy prog sigs L x = t at h
      rcases t with _ | _ | t <;> cases h

mutual
/-- **A scalar expression is emitted as a tree that C reads back, and keeps its value.** -/
theorem emitted_expr (hL : PlainNames sigs L) (hcalls : CallsAgree sigs goCalls cCalls) :
    ∀ e : Expr, isScalar prog sigs L e = true → ∃ t, Emitted prog sigs L goCalls cCalls e t
  | .basicLit pos kind v, h => by
      obtain ⟨n, hn⟩ := Option.isSome_iff_exists.mp
        (show (litValue prog (.basicLit pos kind v)).isSome = true from h)
      exact emitted_literal hn
  | .ident id, h => emitted_ident hL h
  | .paren pos x, h => by
      have hx : (scalarTy prog sigs L x).isSome = true := by
        simpa [isScalar, litValue, scalarTy] using h
      obtain ⟨t, ht⟩ := emitted_expr hL hcalls x (by rw [isScalar, hx, Bool.true_or])
      exact ⟨_, emitted_paren ht hx⟩
  | .unary pos op x, h => by
      obtain ⟨s, hs⟩ := Option.isSome_iff_exists.mp
        (show (scalarTy prog sigs L (.unary pos op x)).isSome = true by
          simpa [isScalar, litValue] using h)
      rw [scalarTy] at hs
      split_ifs at hs with hshort
      have hx : isScalar prog sigs L x = true := by
        obtain ⟨-, ht, -⟩ | ⟨o, u, -, ht, -⟩ := signTy_cases hs
        · exact isScalar_of_type ht
        · exact isScalar_of_type ht
      obtain ⟨t, ht⟩ := emitted_expr hL hcalls x hx
      exact emitted_unary ht hshort hs
  | .binary x op y, h => by
      obtain ⟨s, hs⟩ := Option.isSome_iff_exists.mp
        (show (scalarTy prog sigs L (.binary x op y)).isSome = true by
          simpa [isScalar, litValue] using h)
      rw [scalarTy] at hs
      split_ifs at hs with hshort
      rw [Bool.and_eq_true] at hshort
      obtain ⟨c, hop, hs⟩ := Option.bind_eq_some_iff.mp hs
      obtain ⟨hx, hy⟩ := isScalar_of_operationTy hs
      obtain ⟨l, hl⟩ := emitted_expr hL hcalls x hx
      obtain ⟨r, hr⟩ := emitted_expr hL hcalls y hy
      exact ⟨_, emitted_binary hop hl hr hshort hs⟩
  | .call (.ident fn) args, h => by
      obtain ⟨s, hs⟩ := Option.isSome_iff_exists.mp
        (show (scalarTy prog sigs L (.call (.ident fn) args)).isSome = true by
          simpa [isScalar, litValue] using h)
      have htype := hs
      rw [scalarTy, callTy] at hs
      split at hs
      · next u hu =>
          obtain ⟨x, rfl, rfl, hnamed, hx⟩ := conversionTy_cases hs
          obtain ⟨t, ht⟩ := emitted_expr hL hcalls x hx
          exact emitted_conversion ht hu hnamed htype
      · cases hs
      · next hconv =>
          obtain ⟨p, hp, hif⟩ := Option.bind_eq_some_iff.mp hs
          split_ifs at hif with hfit
          obtain ⟨ts, hts⟩ := emitted_exprs hL hcalls args (isScalar_of_argsFit hfit)
          exact ⟨_, emitted_call hL hcalls hconv hp hfit hif hts⟩
  | .call (.basicLit _ _ _) _, h | .call (.selector _ _) _, h | .call (.unary _ _ _) _, h
  | .call (.binary _ _ _) _, h | .call (.call _ _) _, h | .call (.paren _ _) _, h
  | .call (.index _ _) _, h | .call (.star _ _) _, h | .call (.other _ _ _) _, h
  | .selector _ _, h | .index _ _, h | .star _ _, h | .other _ _ _, h => by
      simp [isScalar, litValue, scalarTy] at h

theorem emitted_exprs (hL : PlainNames sigs L) (hcalls : CallsAgree sigs goCalls cCalls) :
    ∀ es : List Expr, (∀ e ∈ es, isScalar prog sigs L e = true) →
      ∃ ts, List.Forall₂ (Emitted prog sigs L goCalls cCalls) es ts
  | [], _ => ⟨[], .nil⟩
  | e :: rest, h => by
      rw [List.forall_mem_cons] at h
      obtain ⟨t, ht⟩ := emitted_expr hL hcalls e h.1
      obtain ⟨ts, hts⟩ := emitted_exprs hL hcalls rest h.2
      exact ⟨t :: ts, .cons ht hts⟩
end

end

end Gobee
