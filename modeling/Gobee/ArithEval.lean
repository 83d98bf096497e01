/-
# Evaluation of integer expressions in C

What C computes for the emitted text of a Go integer expression, by induction on the type
derivation: a number of the promoted type that agrees with Go's value modulo the width of
its Go type (`Carries`), and Go's value itself where it is used as it is.

* `carries_arith` : one arithmetic operation;
* `arith_preserved` : **the emitted expression has Go's value if no result leaves its type
  where that matters.**
-/
import Gobee.ArithTree

namespace Gobee

open CSyntax MachineInt
open CSyntax.CExpr (render erase)

/-! ## Evaluation -/

/-- The variable an identifier is printed as has the C type of its Go type and the value
of the Go variable. -/
def DeclaredAs (prog : Program) (aliases : Aliases) (env : Ident → Int)
    (cenv : Text → Option Typed) (id : Ident) : Prop :=
  ∀ decl kind, prog.info.uses id = some ⟨decl, .var, .basic kind⟩ →
    ∀ cType s, basicToC kind = .ok cType → cScalar cType = some s →
      cenv (formatIdent prog aliases id) = some (s, env decl) ∧ s.Holds (env decl)

/-- All variables of an expression are declared so. -/
def DeclaredIn (prog : Program) (aliases : Aliases) (env : Ident → Int)
    (cenv : Text → Option Typed) (e : Expr) : Prop :=
  ∀ id, Node.expr (.ident id) ∈ inspectExpr e → DeclaredAs prog aliases env cenv id

theorem declared_scalarVar {prog : Program} {aliases : Aliases} {env : Ident → Int}
    {cenv : Text → Option Typed} {id : Ident} {p : Ident × Scalar}
    (hd : DeclaredAs prog aliases env cenv id) (h : scalarVar prog id = some p) :
    cenv (formatIdent prog aliases id) = some (p.2, env p.1) ∧ p.2.Holds (env p.1) := by
  unfold scalarVar at h
  split at h
  · next decl kind huses =>
      obtain ⟨s, hs, rfl⟩ := Option.map_eq_some_iff.mp h
      have hc : ∃ cType, basicToC kind = .ok cType ∧ cScalar cType = some s := by
        cases kind with
        | bool | int8 | int16 | int32 | int64 | uint8 | uint16 | uint32 | uint64 | byte | rune =>
            exact ⟨_, rfl, hs⟩
        | _ => cases hs
      obtain ⟨cType, hbasic, hscalar⟩ := hc
      exact hd decl kind huses cType s hbasic hscalar
  · cases h

/-- A number agrees with a Go value modulo the width of its type. -/
def AgreesMod (v : Typed) (n : Int) : Prop :=
  match v.1 with
  | .bool => n = v.2
  | .int t => n ≡ v.2 [ZMOD 2 ^ t.bits]

/-- What C computes for an expression with the Go value `v`: `x` is one of the promoted
type, agrees with `v`, and is `v` if it is used as it is. -/
structure Carries (s : Scalar) (v : Typed) (n : Int) (used : Bool) (x : Typed) : Prop where
  type : v.1 = s
  value : s.Holds v.2
  promoted : promote x.1 = promote s
  holds : x.1.Holds x.2
  unwrapped : x.2 = n
  agrees : AgreesMod v x.2
  same : used = true → x.2 = v.2

theorem Carries.of_eq {s : Scalar} {v : Typed} {used : Bool} {x : Typed} (type : v.1 = s)
    (value : s.Holds v.2) (promoted : promote x.1 = promote s) (holds : x.1.Holds x.2)
    (heq : x.2 = v.2) : Carries s v v.2 used x := by
  refine ⟨type, value, promoted, holds, heq, ?_, fun _ => heq⟩
  unfold AgreesMod
  split
  · exact heq
  · rw [heq]

/-- The operand in the promoted type. -/
theorem Carries.modEq {t : IntTy} {v : Typed} {n : Int} {used : Bool} {x : Typed}
    (h : Carries (.int t) v n used x) : n ≡ v.2 [ZMOD 2 ^ t.bits] := by
  have hagrees := h.agrees
  rw [h.unwrapped, AgreesMod, h.type] at hagrees
  exact hagrees

/-- **One arithmetic operation.**  Its result `n` agrees with Go's `g` before wrapping, and
does not overflow: C computes a number that agrees with Go's. -/
theorem carries_arith {t : IntTy} {n g : Int} {used : Bool}
    (hmod : n ≡ g [ZMOD 2 ^ t.bits]) (hfits : fitsIn t used n) :
    ∃ x, arith (promote (.int t)) n = some x ∧
      Carries (.int t) (.int t, t.wrap g) (settle t n) used x := by
  have hwrap : t.wrap n = t.wrap g := IntTy.wrap_eq_of_modEq hmod
  cases hsigned : (promote (.int t)).signed with
  | true =>
      obtain ⟨hpromoted, hown⟩ := hfits hsigned
      refine ⟨(.int (promote (.int t)), n), ?_, ?_⟩
      · rw [arith, if_pos hsigned, if_pos hpromoted]
      · refine ⟨rfl, t.wrap_holds g, promote_promote _, hpromoted, ?_, ?_, fun hused => ?_⟩
        · rw [settle, if_pos hsigned]
        · exact hmod.trans (t.wrap_modEq g).symm
        · rw [← hwrap, IntTy.wrap_of_holds (hown hused)]
  | false =>
      have hself := promote_of_unsigned hsigned
      refine ⟨(.int t, t.wrap n), ?_, ?_⟩
      · rw [arith, hself, if_neg (by rw [← hself, hsigned]; decide)]
      · refine ⟨rfl, t.wrap_holds g, rfl, t.wrap_holds n, ?_, ?_, fun _ => hwrap⟩
        · rw [settle, if_neg (by rw [hsigned]; decide)]
        · rw [hwrap]
          exact Int.ModEq.refl _

/-! ### Operators -/

theorem commonValue_ring {op : BinaryOp} {o : RingOp} (h : classOf op = some (.ring o))
    (t : IntTy) (a b : Int) : commonValue op.string t a b = arith t (o.apply a b) := by
  cases op <;> cases h <;> rfl

theorem commonValue_rel {op : BinaryOp} {o : RelOp} (h : classOf op = some (.rel o))
    (t : IntTy) (a b : Int) : commonValue op.string t a b = some (truth (o.apply a b)) := by
  cases op <;> cases h <;> rfl

/-- The operators that evaluate both operands, in C. -/
theorem evalC_binary {cenv : Text → Option Typed} {op : BinaryOp} {c : OpClass}
    (hc : classOf op = some c) (hand : c ≠ .land) (hor : c ≠ .lor) (l r : CExpr Unit) :
    evalC cScalar cenv (.binary true op.string l r) =
      (evalC cScalar cenv l).bind fun x => (evalC cScalar cenv r).bind fun y =>
        binaryValue op.string x y := by
  cases op <;> cases hc <;> first | rfl | exact absurd rfl hand | exact absurd rfl hor

theorem truth_carries (b used : Bool) : Carries .bool (.bool, ofBool b) (ofBool b) used (truth b) := by
  refine Carries.of_eq rfl (ofBool_holds b) rfl ?_ rfl
  cases b <;> decide

section Operators
variable {s : Scalar} {t u : IntTy} {v w x y : Typed} {m n : Int} {used : Bool}

theorem carries_sign {o : SignOp} (hx : Carries (.int t) v m false x)
    (hfits : fitsIn t used (o.apply m)) :
    ∃ z, unaryValue (signText o) x = some z ∧
      Carries (.int t) (.int t, t.wrap (o.apply v.2)) (settle t (o.apply m)) used z := by
  obtain ⟨z, hz, hcarries⟩ := carries_arith (o.modEq hx.modEq) hfits
  refine ⟨z, ?_, hcarries⟩
  rw [← hz, ← hx.promoted, ← hx.unwrapped]
  cases o <;> rfl

theorem carries_ring {op : BinaryOp} {o : RingOp} (hop : classOf op = some (.ring o))
    (hbits : t.bits ≤ 64) (hx : Carries (.int t) v m false x) (hy : Carries (.int t) w n false y)
    (hfits : fitsIn t used (o.apply m n)) :
    ∃ z, binaryValue op.string x y = some z ∧
      Carries (.int t) (.int t, t.wrap (o.apply v.2 w.2)) (settle t (o.apply m n)) used z := by
  obtain ⟨z, hz, hcarries⟩ := carries_arith (o.modEq hbits hx.modEq hy.modEq) hfits
  refine ⟨z, ?_, hcarries⟩
  rw [binaryValue_common hx.promoted hy.promoted hx.holds hy.holds
    (by cases op <;> cases hop <;> decide) (by cases op <;> cases hop <;> decide),
    commonValue_ring hop, hx.unwrapped, hy.unwrapped, hz]

theorem carries_quo (hx : Carries (.int t) v m true x) (hy : Carries (.int t) w n true y)
    (hw : w.2 ≠ 0) (hfits : fitsIn t used (v.2.tdiv w.2)) :
    ∃ z, binaryValue "/" x y = some z ∧
      Carries (.int t) (.int t, t.wrap (v.2.tdiv w.2)) (settle t (v.2.tdiv w.2)) used z := by
  obtain ⟨z, hz, hcarries⟩ := carries_arith (Int.ModEq.refl _) hfits
  refine ⟨z, ?_, hcarries⟩
  rw [binaryValue_common hx.promoted hy.promoted hx.holds hy.holds (by decide) (by decide),
    hx.same rfl, hy.same rfl, ← hz]
  exact if_neg hw

theorem carries_rem (hx : Carries (.int t) v m true x) (hy : Carries (.int t) w n true y)
    (hw : w.2 ≠ 0) (hfits : fitsIn t false (v.2.tdiv w.2)) :
    ∃ z, binaryValue "%" x y = some z ∧
      Carries (.int t) (.int t, v.2.tmod w.2) (v.2.tmod w.2) used z := by
  obtain ⟨q, hq, -⟩ := carries_arith (Int.ModEq.refl _) hfits
  have hvalue := IntTy.holds_tmod hx.value w.2
  refine ⟨(.int (promote (.int t)), v.2.tmod w.2), ?_, ?_⟩
  · have hdivide : divide (promote (.int t)) v.2 w.2 = some q := (if_neg hw).trans hq
    rw [binaryValue_common hx.promoted hy.promoted hx.holds hy.holds (by decide) (by decide),
      hx.same rfl, hy.same rfl]
    show remainder _ _ _ = _
    rw [remainder, hdivide]
    rfl
  · exact Carries.of_eq rfl hvalue (promote_promote _) (promote_holds (s := .int t) hvalue) rfl

theorem carries_shl (hx : Carries (.int t) v m false x) (hy : Carries (.int u) w n true y)
    (hneg : ¬w.2 < 0) (hcount : countFits t w.2)
    (hleft : (promote (.int t)).signed = true → 0 ≤ m)
    (hfits : fitsIn t used (m * 2 ^ w.2.toNat)) :
    ∃ z, binaryValue "<<" x y = some z ∧
      Carries (.int t) (.int t, t.wrap (v.2 * 2 ^ w.2.toNat))
        (settle t (m * 2 ^ w.2.toNat)) used z := by
  obtain ⟨z, hz, hcarries⟩ := carries_arith (hx.modEq.mul_right (2 ^ w.2.toNat)) hfits
  refine ⟨z, ?_, hcarries⟩
  unfold countFits at hcount
  show shiftLeft (promote x.1) x.2 y.2 = some z
  rw [hx.promoted, hx.unwrapped, hy.same rfl, shiftLeft, if_neg (by omega), if_neg, hz]
  rintro ⟨hsigned, hlt⟩
  have := hleft hsigned
  omega

theorem carries_shr (hx : Carries (.int t) v m true x) (hy : Carries (.int u) w n true y)
    (hneg : ¬w.2 < 0) (hcount : countFits t w.2) :
    ∃ z, binaryValue ">>" x y = some z ∧
      Carries (.int t) (.int t, v.2 / 2 ^ w.2.toNat) (v.2 / 2 ^ w.2.toNat) used z := by
  have hvalue : t.Holds (v.2 / 2 ^ w.2.toNat) := IntTy.holds_ediv hx.value (by positivity)
  refine ⟨(.int (promote (.int t)), v.2 / 2 ^ w.2.toNat), ?_, ?_⟩
  · unfold countFits at hcount
    show shiftRight (promote x.1) x.2 y.2 = _
    rw [hx.promoted, hx.same rfl, hy.same rfl, shiftRight, if_neg (by omega)]
  · exact Carries.of_eq rfl hvalue (promote_promote _) (promote_holds (s := .int t) hvalue) rfl

theorem carries_rel {op : BinaryOp} {o : RelOp} (hop : classOf op = some (.rel o))
    (hx : Carries s v m true x) (hy : Carries s w n true y) :
    ∃ z, binaryValue op.string x y = some z ∧
      Carries .bool (.bool, ofBool (o.apply v.2 w.2)) (ofBool (o.apply v.2 w.2)) used z := by
  refine ⟨truth (o.apply v.2 w.2), ?_, truth_carries _ _⟩
  rw [binaryValue_common hx.promoted hy.promoted hx.holds hy.holds
    (by cases op <;> cases hop <;> decide) (by cases op <;> cases hop <;> decide),
    commonValue_rel hop, hx.same rfl, hy.same rfl]

/-- A truth value is tested for being nonzero. -/
theorem carries_test (hx : Carries .bool v m true x) :
    Carries .bool v v.2 used (truth (x.2 ≠ 0)) := by
  have hv : ofBool (decide (v.2 ≠ 0)) = v.2 := by
    obtain h | h := hx.value <;> rw [h] <;> rfl
  have htruth := truth_carries (decide (v.2 ≠ 0)) used
  rw [hv] at htruth
  rw [hx.same rfl]
  have hpair : (Scalar.bool, v.2) = v := by rw [← hx.type]
  rwa [hpair] at htruth

theorem carries_convert {s₁ s₂ : Scalar} (htype : convertTy s₁ s₂ = some s)
    (hx : Carries s₂ v m used x)
    (hwide : ∀ t u, s₁ = .int t → s₂ = .int u → u.bits < t.bits → used = true)
    (hbool : s₁ = .bool → used = true) (used' : Bool) :
    Carries s (s₁, goConvert s₁ v.2) (goConvert s₁ v.2) used' (s₁, convert s₁ x.2) := by
  cases s₁ with
  | bool =>
      cases s₂ with
      | int u => cases htype
      | bool =>
          cases htype
          have hsame := hx.same (hbool rfl)
          have hconv : convert .bool x.2 = v.2 := by
            rw [hsame]
            obtain h | h := hx.value <;> rw [h] <;> rfl
          refine Carries.of_eq rfl hx.value rfl ?_ hconv
          rw [hconv]
          exact hx.value
  | int t =>
      cases s₂ with
      | bool => cases htype
      | int u =>
          cases htype
          have hconv : t.wrap x.2 = t.wrap v.2 := by
            by_cases hlt : u.bits < t.bits
            · rw [hx.same (hwide t u rfl rfl hlt)]
            · rw [hx.unwrapped]
              exact IntTy.wrap_eq_of_modEq (IntTy.modEq_of_le (by omega) hx.modEq)
          exact Carries.of_eq rfl (t.wrap_holds _) rfl (t.wrap_holds _) hconv

end Operators

/-! ### Expressions -/

theorem goValue_of_eval {prog : Program} {env : Ident → Int} {e : Expr} {v : Typed}
    (h : goEval prog env e = some v) : goValue prog env e = v.2 := by
  rw [goValue, h]
  rfl

theorem declaredIn_binary {prog : Program} {aliases : Aliases} {env : Ident → Int}
    {cenv : Text → Option Typed} {x y : Expr} {op : BinaryOp}
    (h : DeclaredIn prog aliases env cenv (.binary x op y)) :
    DeclaredIn prog aliases env cenv x ∧ DeclaredIn prog aliases env cenv y := by
  constructor
  · intro id hid
    exact h id (by rw [inspectExpr]; exact List.mem_cons_of_mem _ (List.mem_append_left _ hid))
  · intro id hid
    exact h id (by rw [inspectExpr]; exact List.mem_cons_of_mem _ (List.mem_append_right _ hid))

/-- What a binary operator needs of its operand: what C computes for it, if it stays within
its type. -/
def Computes (prog : Program) (aliases : Aliases) (env : Ident → Int)
    (cenv : Text → Option Typed) (e : Expr) (s : Scalar) : Prop :=
  ∀ {used : Bool}, Within prog env used e → ∀ {v : Typed}, goEval prog env e = some v →
    ∃ x, evalC cScalar cenv (erase (arithTree prog aliases e)) = some x ∧
      Carries s v (unwrapped prog env e) used x

section Binary
variable {prog : Program} {aliases : Aliases} {env : Ident → Int} {cenv : Text → Option Typed}
  {x y : Expr} {op : BinaryOp} {s₁ s₂ s : Scalar}

theorem goEval_binary {c : OpClass} (cls : classOf op = some c) (hand : c ≠ .land)
    (hor : c ≠ .lor) :
    goEval prog env (.binary x op y) =
      (goEval prog env x).bind fun v => (goEval prog env y).bind fun w => goBinary c v w := by
  cases c with
  | land => exact absurd rfl hand
  | lor => exact absurd rfl hor
  | _ => simp only [goEval, cls]

/-- An operator that evaluates both operands. -/
theorem computes_strict {c : OpClass} (cls : classOf op = some c) (hand : c ≠ .land)
    (hor : c ≠ .lor) (ihx : Computes prog aliases env cenv x s₁)
    (ihy : Computes prog aliases env cenv y s₂) {usedX usedY used : Bool}
    (hwx : Within prog env usedX x) (hwy : Within prog env usedY y) {v : Typed}
    (hv : goEval prog env (.binary x op y) = some v)
    (hstep : ∀ a b ca cb, goEval prog env x = some a → goEval prog env y = some b →
      Carries s₁ a (unwrapped prog env x) usedX ca → Carries s₂ b (unwrapped prog env y) usedY cb →
      goBinary c a b = some v →
      ∃ z, binaryValue op.string ca cb = some z ∧
        Carries s v (unwrapped prog env (.binary x op y)) used z) :
    ∃ z, evalC cScalar cenv (erase (arithTree prog aliases (.binary x op y))) = some z ∧
      Carries s v (unwrapped prog env (.binary x op y)) used z := by
  rw [goEval_binary cls hand hor] at hv
  obtain ⟨a, ha, hrest⟩ := Option.bind_eq_some_iff.mp hv
  obtain ⟨b, hb, hgo⟩ := Option.bind_eq_some_iff.mp hrest
  obtain ⟨ca, hca, hcarriesx⟩ := ihx hwx ha
  obtain ⟨cb, hcb, hcarriesy⟩ := ihy hwy hb
  obtain ⟨z, hz, hcarries⟩ := hstep a b ca cb ha hb hcarriesx hcarriesy hgo
  refine ⟨z, ?_, hcarries⟩
  rw [arithTree, erase, evalC_binary cls hand hor, hca, hcb]
  exact hz

/-- The operand types of an arithmetic operator. -/
theorem binaryTy_arith {c : OpClass} (hc : (∃ o, c = .ring o) ∨ c = .quo ∨ c = .rem)
    (h : binaryTy c s₁ s₂ = some s) : ∃ t, s₁ = .int t ∧ s₂ = .int t ∧ s = .int t := by
  cases s₁ with
  | bool => obtain ⟨o, rfl⟩ | rfl | rfl := hc <;> cases h
  | int t =>
      cases s₂ with
      | bool => obtain ⟨o, rfl⟩ | rfl | rfl := hc <;> cases h
      | int u =>
          obtain ⟨o, rfl⟩ | rfl | rfl := hc <;>
            (simp only [binaryTy] at h; split_ifs at h with htu; subst htu; cases h
             exact ⟨t, rfl, rfl, rfl⟩)

/-- The operand types of a shift. -/
theorem binaryTy_shift {c : OpClass} (hc : c = .shl ∨ c = .shr)
    (h : binaryTy c s₁ s₂ = some s) : ∃ t u, s₁ = .int t ∧ s₂ = .int u ∧ s = .int t := by
  cases s₁ with
  | bool => obtain rfl | rfl := hc <;> cases h
  | int t =>
      cases s₂ with
      | bool => obtain rfl | rfl := hc <;> cases h
      | int u => obtain rfl | rfl := hc <;> cases h <;> exact ⟨t, u, rfl, rfl, rfl⟩

/-- The operand types of a comparison. -/
theorem binaryTy_rel {o : RelOp} (h : binaryTy (.rel o) s₁ s₂ = some s) : s₁ = s₂ ∧ s = .bool := by
  cases s₁ with
  | bool =>
      cases s₂ with
      | bool =>
          simp only [binaryTy] at h
          split_ifs at h
          exact ⟨rfl, (Option.some.inj h).symm⟩
      | int u => cases h
  | int t =>
      cases s₂ with
      | bool => cases h
      | int u =>
          simp only [binaryTy] at h
          split_ifs at h with htu
          exact ⟨by rw [htu], (Option.some.inj h).symm⟩

/-- The operand types of a connective. -/
theorem binaryTy_connective {c : OpClass} (hc : c = .land ∨ c = .lor)
    (h : binaryTy c s₁ s₂ = some s) : s₁ = .bool ∧ s₂ = .bool ∧ s = .bool := by
  obtain rfl | rfl := hc <;> cases s₁ <;> cases s₂ <;> cases h <;> exact ⟨rfl, rfl, rfl⟩

theorem computes_ring {o : RingOp} (cls : classOf op = some (.ring o))
    (type : binaryTy (.ring o) s₁ s₂ = some s) (left : Arith prog x s₁)
    (ihx : Computes prog aliases env cenv x s₁) (ihy : Computes prog aliases env cenv y s₂) :
    Computes prog aliases env cenv (.binary x op y) s := by
  obtain ⟨t, rfl, rfl, rfl⟩ := binaryTy_arith (Or.inl ⟨o, rfl⟩) type
  intro used hw v hv
  have hty := left.arithTy
  simp only [Within, cls, hty] at hw
  refine computes_strict cls nofun nofun ihx ihy hw.1 hw.2.1 hv ?_
  rintro ⟨_, a⟩ b ca cb _ _ hx hy hgo
  obtain rfl := hx.type
  obtain rfl := Option.some.inj hgo
  simp only [unwrapped, cls, hty]
  exact carries_ring cls (left.bits_le t rfl) hx hy hw.2.2

theorem computes_quo (cls : classOf op = some .quo) (type : binaryTy .quo s₁ s₂ = some s)
    (left : Arith prog x s₁) (ihx : Computes prog aliases env cenv x s₁)
    (ihy : Computes prog aliases env cenv y s₂) :
    Computes prog aliases env cenv (.binary x op y) s := by
  obtain ⟨t, rfl, rfl, rfl⟩ := binaryTy_arith (Or.inr (Or.inl rfl)) type
  intro used hw v hv
  have hty := left.arithTy
  simp only [Within, cls, hty] at hw
  refine computes_strict cls nofun nofun ihx ihy hw.1 hw.2.1 hv ?_
  rintro ⟨_, a⟩ b ca cb ha hb hx hy hgo
  obtain rfl := hx.type
  simp only [goBinary] at hgo
  split_ifs at hgo with hzero
  obtain rfl := Option.some.inj hgo
  simp only [unwrapped, cls, hty, goValue_of_eval ha, goValue_of_eval hb] at hw ⊢
  have hop : op.string = "/" := by (cases op <;> cases cls); rfl
  rw [hop]
  exact carries_quo hx hy hzero hw.2.2

theorem computes_rem (cls : classOf op = some .rem) (type : binaryTy .rem s₁ s₂ = some s)
    (left : Arith prog x s₁) (ihx : Computes prog aliases env cenv x s₁)
    (ihy : Computes prog aliases env cenv y s₂) :
    Computes prog aliases env cenv (.binary x op y) s := by
  obtain ⟨t, rfl, rfl, rfl⟩ := binaryTy_arith (Or.inr (Or.inr rfl)) type
  intro used hw v hv
  have hty := left.arithTy
  simp only [Within, cls, hty] at hw
  refine computes_strict cls nofun nofun ihx ihy hw.1 hw.2.1 hv ?_
  rintro ⟨_, a⟩ b ca cb ha hb hx hy hgo
  obtain rfl := hx.type
  simp only [unwrapped, cls, hty, goValue_of_eval hv]
  simp only [goBinary] at hgo
  split_ifs at hgo with hzero
  obtain rfl := Option.some.inj hgo
  rw [goValue_of_eval ha, goValue_of_eval hb] at hw
  have hop : op.string = "%" := by (cases op <;> cases cls); rfl
  rw [hop]
  exact carries_rem hx hy hzero hw.2.2

theorem computes_shl (cls : classOf op = some .shl) (type : binaryTy .shl s₁ s₂ = some s)
    (left : Arith prog x s₁) (ihx : Computes prog aliases env cenv x s₁)
    (ihy : Computes prog aliases env cenv y s₂) :
    Computes prog aliases env cenv (.binary x op y) s := by
  obtain ⟨t, u, rfl, rfl, rfl⟩ := binaryTy_shift (Or.inl rfl) type
  intro used hw v hv
  have hty := left.arithTy
  simp only [Within, cls, hty] at hw
  refine computes_strict cls nofun nofun ihx ihy hw.1 hw.2.1 hv ?_
  rintro ⟨_, a⟩ b ca cb ha hb hx hy hgo
  obtain rfl := hx.type
  simp only [goBinary] at hgo
  split_ifs at hgo with hneg
  obtain rfl := Option.some.inj hgo
  simp only [unwrapped, cls, hty, goValue_of_eval hb] at hw ⊢
  have hop : op.string = "<<" := by (cases op <;> cases cls); rfl
  rw [hop]
  exact carries_shl hx hy hneg hw.2.2.1 hw.2.2.2.1 hw.2.2.2.2

theorem computes_shr (cls : classOf op = some .shr) (type : binaryTy .shr s₁ s₂ = some s)
    (left : Arith prog x s₁) (ihx : Computes prog aliases env cenv x s₁)
    (ihy : Computes prog aliases env cenv y s₂) :
    Computes prog aliases env cenv (.binary x op y) s := by
  obtain ⟨t, u, rfl, rfl, rfl⟩ := binaryTy_shift (Or.inr rfl) type
  intro used hw v hv
  have hty := left.arithTy
  simp only [Within, cls, hty] at hw
  refine computes_strict cls nofun nofun ihx ihy hw.1 hw.2.1 hv ?_
  rintro ⟨_, a⟩ b ca cb ha hb hx hy hgo
  obtain rfl := hx.type
  simp only [unwrapped, cls, hty, goValue_of_eval hv]
  simp only [goBinary] at hgo
  split_ifs at hgo with hneg
  obtain rfl := Option.some.inj hgo
  rw [goValue_of_eval hb] at hw
  have hop : op.string = ">>" := by (cases op <;> cases cls); rfl
  rw [hop]
  exact carries_shr hx hy hneg hw.2.2

theorem computes_rel {o : RelOp} (cls : classOf op = some (.rel o))
    (type : binaryTy (.rel o) s₁ s₂ = some s) (left : Arith prog x s₁)
    (ihx : Computes prog aliases env cenv x s₁) (ihy : Computes prog aliases env cenv y s₂) :
    Computes prog aliases env cenv (.binary x op y) s := by
  obtain ⟨rfl, rfl⟩ := binaryTy_rel type
  intro used hw v hv
  have hty := left.arithTy
  simp only [Within, cls, hty] at hw
  refine computes_strict cls nofun nofun ihx ihy hw.1 hw.2 hv ?_
  rintro a b ca cb ha hb hx hy hgo
  simp only [unwrapped, cls, hty, goValue_of_eval hv]
  obtain rfl := Option.some.inj hgo
  exact carries_rel cls hx hy

/-- The connectives: the second operand counts only where Go evaluates it. -/
theorem computes_connective {c : OpClass} (hc : c = .land ∨ c = .lor) (cls : classOf op = some c)
    (type : binaryTy c s₁ s₂ = some s) (left : Arith prog x s₁)
    (ihx : Computes prog aliases env cenv x s₁) (ihy : Computes prog aliases env cenv y s₂) :
    Computes prog aliases env cenv (.binary x op y) s := by
  obtain ⟨rfl, rfl, rfl⟩ := binaryTy_connective hc type
  intro used hw v hv
  have hty := left.arithTy
  have hvalue : unwrapped prog env (.binary x op y) = v.2 := by
    rw [← goValue_of_eval hv]
    obtain rfl | rfl := hc <;> simp only [unwrapped, cls, hty]
  rw [hvalue]
  obtain rfl | rfl := hc
  · simp only [Within, cls, hty] at hw
    simp only [goEval, cls] at hv
    obtain ⟨a, ha, hgo⟩ := Option.bind_eq_some_iff.mp hv
    obtain ⟨ca, hca, hx⟩ := ihx hw.1 ha
    have hop : op.string = "&&" := by (cases op <;> cases cls); rfl
    rw [arithTree, erase, hop, evalC, if_pos rfl, hca, Option.bind_some, hx.same rfl]
    split_ifs at hgo with hzero
    · obtain rfl := Option.some.inj hgo
      exact ⟨truth false, by rw [if_pos hzero], truth_carries false used⟩
    · rw [goValue_of_eval ha] at hw
      obtain ⟨cb, hcb, hy⟩ := ihy (hw.2 hzero) hgo
      exact ⟨truth (cb.2 ≠ 0), by rw [if_neg hzero, hcb]; rfl, carries_test hy⟩
  · simp only [Within, cls, hty] at hw
    simp only [goEval, cls] at hv
    obtain ⟨a, ha, hgo⟩ := Option.bind_eq_some_iff.mp hv
    obtain ⟨ca, hca, hx⟩ := ihx hw.1 ha
    have hop : op.string = "||" := by (cases op <;> cases cls); rfl
    rw [arithTree, erase, hop, evalC, if_neg (by decide), if_pos rfl, hca, Option.bind_some,
      hx.same rfl]
    split_ifs at hgo with hzero
    · rw [goValue_of_eval ha] at hw
      obtain ⟨cb, hcb, hy⟩ := ihy (hw.2 hzero) hgo
      exact ⟨truth (cb.2 ≠ 0), by rw [if_neg (not_not.mpr hzero), hcb]; rfl, carries_test hy⟩
    · obtain rfl := Option.some.inj hgo
      exact ⟨truth true, by rw [if_pos hzero], truth_carries true used⟩

end Binary

/-- **What C computes for an integer expression**, by induction on its type derivation. -/
theorem carries_arithTree {prog : Program} {aliases : Aliases} {env : Ident → Int}
    {cenv : Text → Option Typed} {e : Expr} {s : Scalar} (h : Arith prog e s)
    (hn : named prog aliases e = true) (hd : DeclaredIn prog aliases env cenv e) {used : Bool}
    (hw : Within prog env used e) {v : Typed} (hv : goEval prog env e = some v) :
    ∃ x, evalC cScalar cenv (erase (arithTree prog aliases e)) = some x ∧
      Carries s v (unwrapped prog env e) used x := by
  -- `used` is general: the operand of a conversion may be used only modulo its width
  induction h generalizing used v with
  | @ident id p var =>
      have hdeclared := hd id (by rw [inspectExpr]; exact List.mem_cons_self)
      obtain ⟨hcenv, hholds⟩ := declared_scalarVar hdeclared var
      have hvalue : unwrapped prog env (.ident id) = v.2 := by
        simp only [unwrapped]
        exact goValue_of_eval hv
      rw [goEval, var] at hv
      obtain rfl := Option.some.inj hv
      rw [hvalue]
      exact ⟨_, hcenv, Carries.of_eq rfl hholds rfl hholds rfl⟩
  | @paren pos x _ _ ih =>
      rw [named] at hn
      rw [goEval] at hv
      rw [Within] at hw
      rw [unwrapped]
      exact ih hn (fun id hid => hd id (by rw [inspectExpr]; exact List.mem_cons_of_mem _ hid)) hw hv
  | @unary pos op o x t sign atomic operand ih =>
      rw [named] at hn
      have hty := operand.arithTy
      simp only [Within, sign, hty] at hw
      rw [goEval, sign, Option.bind_some] at hv
      obtain ⟨vx, hvx, hgo⟩ := Option.bind_eq_some_iff.mp hv
      have hdx : DeclaredIn prog aliases env cenv x :=
        fun id hid => hd id (by rw [inspectExpr]; exact List.mem_cons_of_mem _ hid)
      obtain ⟨cx, hcx, hcarries⟩ := ih hn hdx hw.1 hvx
      obtain ⟨z, hz, hresult⟩ := carries_sign hcarries hw.2
      refine ⟨z, ?_, ?_⟩
      · rw [arithTree, erase, evalC, hcx, sign]
        exact hz
      · obtain ⟨_, a⟩ := vx
        obtain rfl := hcarries.type
        obtain rfl := Option.some.inj hgo
        simp only [unwrapped, sign, hty]
        exact hresult
  | @binary x y op c s₁ s₂ s cls atomic type left right ihx ihy =>
      rw [named, Bool.and_eq_true] at hn
      obtain ⟨hdx, hdy⟩ := declaredIn_binary hd
      have hx : Computes prog aliases env cenv x s₁ := fun hw _ hv => ihx hn.1 hdx hw hv
      have hy : Computes prog aliases env cenv y s₂ := fun hw _ hv => ihy hn.2 hdy hw hv
      cases c with
      | ring o => exact computes_ring cls type left hx hy hw hv
      | quo => exact computes_quo cls type left hx hy hw hv
      | rem => exact computes_rem cls type left hx hy hw hv
      | shl => exact computes_shl cls type left hx hy hw hv
      | shr => exact computes_shr cls type left hx hy hw hv
      | rel o => exact computes_rel cls type left hx hy hw hv
      | land => exact computes_connective (Or.inl rfl) cls type left hx hy hw hv
      | lor => exact computes_connective (Or.inr rfl) cls type left hx hy hw hv
  | @call fn x s₁ s₂ s target type operand ih =>
      rw [named, Bool.and_eq_true] at hn
      obtain ⟨cType, hc, hscalar⟩ := conversionNamed_cScalar hn.1 target
      have hdx : DeclaredIn prog aliases env cenv x := by
        intro id hid
        refine hd id ?_
        rw [inspectExpr, inspectExprs, inspectExprs, List.append_nil]
        exact List.mem_cons_of_mem _ (List.mem_append_right _ hid)
      have hvalue : unwrapped prog env (.call (.ident fn) [x]) = v.2 := by
        simp only [unwrapped]
        exact goValue_of_eval hv
      rw [hvalue]
      rw [goEval, target, Option.bind_some] at hv
      obtain ⟨vx, hvx, rfl⟩ := Option.map_eq_some_iff.mp hv
      -- only a narrowing conversion uses its operand modulo the width
      obtain ⟨inner, hinner, hwide, hbool⟩ : ∃ inner, Within prog env inner x ∧
          (∀ t u, s₁ = .int t → s₂ = .int u → u.bits < t.bits → inner = true) ∧
          (s₁ = .bool → inner = true) := by
        simp only [Within, target, operand.arithTy] at hw
        cases s₁ with
        | bool => exact ⟨true, hw, fun _ _ h => (by cases h), fun _ => rfl⟩
        | int t =>
            cases s₂ with
            | bool => exact ⟨true, hw, fun _ _ _ h => (by cases h), fun _ => rfl⟩
            | int u =>
                refine ⟨_, hw, ?_, fun h => (by cases h)⟩
                intro t' u' ht hu hlt
                cases ht
                cases hu
                exact decide_eq_true hlt
      obtain ⟨cx, hcx, hcarries⟩ := ih hn.2 hdx hinner hvx
      refine ⟨(s₁, convert s₁ cx.2), ?_, carries_convert type hcarries hwide hbool used⟩
      rw [arithTree, hc]
      simp only [Option.getD_some, erase, evalC, hscalar, hcx, Option.bind_some, Option.map_some]

/-! ## Arithmetic is preserved -/

/-- C reads and evaluates the emitted expression to the value of the Go expression. -/
def ArithPreserved (prog : Program) (aliases : Aliases) (env : Ident → Int)
    (cenv : Text → Option Typed) (e : Expr) : Prop :=
  ∀ v, goEval prog env e = some v →
    ∃ text tree x, formatExpr prog aliases e = .ok text ∧ readBack text = some tree ∧
      evalC cScalar cenv tree = some x ∧ x.2 = v.2

/-- **When fixed-width arithmetic is preserved.**  For every integer expression and every
environment in which Go does not panic: if no result leaves its type where that matters, C
evaluates the emitted expression, without undefined behaviour, to Go's value. -/
theorem arith_preserved (prog : Program) (aliases : Aliases) (env : Ident → Int)
    (cenv : Text → Option Typed) (e : Expr) (s : Scalar) (ht : arithTy prog e = some s)
    (hd : DeclaredIn prog aliases env cenv e) (hn : named prog aliases e = true)
    (hw : Within prog env true e) : ArithPreserved prog aliases env cenv e := by
  intro v hv
  have harith := arith_of_arithTy e ht
  obtain ⟨hformat, hread⟩ := readBack_arith harith hn
  obtain ⟨x, hx, hcarries⟩ := carries_arithTree harith hn hd hw hv
  exact ⟨_, _, x, hformat, hread, hx, hcarries.same rfl⟩

/-- Variables `a`, `b` and `c` of type `uint8`. -/
def byteProgram : Program := emptyProgram (paramInfo (.basic .uint8))

/-- The values of `a`, `b` and `c`. -/
def byteEnv (a b c : Int) (id : Ident) : Int :=
  if id.name = ['a'] then a else if id.name = ['b'] then b else c

/-- The same variables in C. -/
def byteVars (a b c : Int) (w : Text) : Option Typed :=
  some (intTy false 8 width8_pos, byteEnv a b c ⟨w, 0⟩)

/-- Go's `(a + b) > c`. -/
def sumTest : Expr := .binary (.paren 9 (.binary (var 'a' 10) .add (var 'b' 14))) .gtr (var 'c' 19)

theorem byteProgram_declared {a b c : Int} (ha : 0 ≤ a ∧ a < 256) (hb : 0 ≤ b ∧ b < 256)
    (hc : 0 ≤ c ∧ c < 256) (e : Expr) :
    DeclaredIn byteProgram [] (byteEnv a b c) (byteVars a b c) e := by
  intro id _ decl kind huses cType s hbasic hscalar
  cases huses
  cases hbasic
  cases hscalar
  refine ⟨rfl, ?_⟩
  show 0 ≤ byteEnv a b c _ ∧ byteEnv a b c _ < 256
  unfold byteEnv
  split_ifs
  · exact ha
  · exact hb
  · exact hc

/-- With `20 + 30 > 10` nothing leaves its type. -/
theorem sumTest_preserved :
    arithTy byteProgram sumTest = some .bool ∧
      DeclaredIn byteProgram [] (byteEnv 20 30 10) (byteVars 20 30 10) sumTest ∧
      named byteProgram [] sumTest = true ∧ Within byteProgram (byteEnv 20 30 10) true sumTest ∧
      goEval byteProgram (byteEnv 20 30 10) sumTest = some (.bool, 1) ∧
      ArithPreserved byteProgram [] (byteEnv 20 30 10) (byteVars 20 30 10) sumTest := by
  have hd := byteProgram_declared (a := 20) (b := 30) (c := 10) (by decide) (by decide)
    (by decide) sumTest
  have hw : Within byteProgram (byteEnv 20 30 10) true sumTest :=
    ⟨⟨trivial, trivial, fun _ => ⟨by decide, fun _ => by decide⟩⟩, trivial⟩
  exact ⟨rfl, hd, rfl, hw, rfl, arith_preserved _ _ _ _ _ .bool rfl hd rfl hw⟩

/-- With `200 + 100 > 50` Go compares 44 and C compares 300. -/
theorem sumTest_differs :
    arithTy byteProgram sumTest = some .bool ∧
      DeclaredIn byteProgram [] (byteEnv 200 100 50) (byteVars 200 100 50) sumTest ∧
      goEval byteProgram (byteEnv 200 100 50) sumTest = some (.bool, 0) ∧
      formatExpr byteProgram [] sumTest = .ok "(a + b) > c" ∧
      (readBack "(a + b) > c").bind (evalC cScalar (byteVars 200 100 50)) =
        some (.int int32, 1) ∧
      ¬ArithPreserved byteProgram [] (byteEnv 200 100 50) (byteVars 200 100 50) sumTest := by
  have hgo : goEval byteProgram (byteEnv 200 100 50) sumTest = some (.bool, 0) := rfl
  have hc : (readBack "(a + b) > c").bind (evalC cScalar (byteVars 200 100 50)) =
      some (.int int32, 1) := rfl
  refine ⟨rfl, byteProgram_declared (by decide) (by decide) (by decide) _, hgo, rfl, hc, ?_⟩
  intro h
  obtain ⟨text, tree, x, htext, htree, hx, hvalue⟩ := h _ hgo
  have hsame : text = "(a + b) > c" := (Except.ok.inj (htext.symm.trans rfl))
  rw [hsame] at htree
  rw [htree, Option.bind_some, hx] at hc
  rw [Option.some.inj hc] at hvalue
  cases hvalue

end Gobee
