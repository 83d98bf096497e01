/-
# Operators on scalars

The operands of an operator have one type, or one of them is a constant below `2 ^ 31`, which
is an `int` in C and is converted to the type of the other one.  Arithmetic is done in types
that are not promoted, so both languages wrap the same way.

* `binaryValue_operands` : C converts such operands to their type;
* `refines_operate` : **an operator gives the same result in both languages.**
-/
import Gobee.ArithEval
import Gobee.CLegible
import Gobee.ScalarC
import Gobee.ScalarGo

namespace CSyntax

open MachineInt

/-! ## Operands of one type -/

/-- A promoted type is the common one with `int`. -/
theorem usual_int32 {t : IntTy} (h : 32 ≤ t.bits) : usual t int32 = t ∧ usual int32 t = t := by
  obtain ⟨signed, bits, pos⟩ := t
  change 32 ≤ bits at h
  have hint : int32.bits = 32 ∧ int32.signed = true := ⟨rfl, rfl⟩
  by_cases hbits : bits = 32
  · subst hbits
    exact ⟨by simp [usual, hint.1, hint.2], by simp [usual, hint.1, hint.2]⟩
  · have hlt : ¬ bits < 32 := by omega
    have hgt : 32 < bits := by omega
    exact ⟨by simp [usual, hint.1, hbits, hlt], by simp [usual, hint.1, Ne.symm hbits, hgt]⟩

/-- A value of a type, or a constant that C takes for an `int`. -/
def OperandOf (t : IntTy) (n : Int) (x : Typed) : Prop :=
  t.Holds n ∧ x.2 = n ∧ (x.1 = .int t ∨ x.1 = .int int32)

theorem wrap_promote {t : IntTy} {n : Int} (h : t.Holds n) :
    (promote (.int t)).wrap n = n :=
  IntTy.wrap_of_holds (promote_holds (s := .int t) h)

/-- Operands of which one has the type. -/
theorem binaryValue_operands {t : IntTy} {a b : Int} {x y : Typed} (hx : OperandOf t a x)
    (hy : OperandOf t b y) (htyped : x.1 = .int t ∨ y.1 = .int t) {op : Text}
    (hl : op ≠ "<<".toList) (hr : op ≠ ">>".toList) :
    binaryValue op x y = commonValue op (promote (.int t)) a b := by
  have hbits := bits_promote (.int t)
  have hint : promote (.int int32) = int32 := rfl
  have ht : commonType x y = promote (.int t) := by
    unfold commonType
    rcases hx.2.2 with hx' | hx' <;> rcases hy.2.2 with hy' | hy' <;> rw [hx', hy']
    · exact usual_self _
    · rw [hint]
      exact (usual_int32 hbits).1
    · rw [hint]
      exact (usual_int32 hbits).2
    · -- both are of type `int`, and one of them is of the type
      have heq : Scalar.int t = .int int32 := htyped.elim (fun h => h.symm.trans hx')
        fun h => h.symm.trans hy'
      rw [heq]
      exact usual_self _
  rw [binaryValue, if_neg hl, if_neg hr, ht, hx.2.1, hy.2.1, wrap_promote hx.1, wrap_promote hy.1]

/-! ## Numbers -/

theorem scanFrom_digits {ds w : Text} (h : ∀ c ∈ ds, c.isDigit = true) :
    scanFrom ⟨.number, w⟩ ds = some ⟨.number, w ++ ds⟩ := by
  induction ds generalizing w with
  | nil => rw [scanFrom, List.append_nil]
  | cons c ds ih =>
      rw [List.forall_mem_cons] at h
      have hchar : isIdentChar c = true := by
        rw [isIdentChar, h.1, Bool.or_true]
      rw [scanFrom]
      simp only [extend, hchar, Bool.true_or, if_true, Option.bind_some]
      rw [ih h.2, List.append_assoc, List.singleton_append]

/-- Digits are an operand. -/
theorem isOperand_digits {w : Text} (hne : w ≠ []) (h : ∀ c ∈ w, c.isDigit = true) :
    isOperand w = true := by
  obtain ⟨c, ds, rfl⟩ := List.exists_cons_of_ne_nil hne
  rw [List.forall_mem_cons] at h
  have hcode : 48 ≤ c.toNat ∧ c.toNat ≤ 57 := by
    have hd := h.1
    simpa [Char.isDigit, UInt32.le_iff_toNat_le] using hd
  have hstart : isIdentStart c = false ∧ isBlank c = false := by
    rw [← Char.ofNat_toNat c]
    obtain ⟨hlo, hhi⟩ := hcode
    generalize c.toNat = n at hlo hhi
    interval_cases n <;> decide
  have hscan : scan (c :: ds) = some ⟨.number, c :: ds⟩ := by
    rw [scan, hstart.2]
    simp only [Bool.false_eq_true, if_false, start, hstart.1, h.1, if_true, Option.bind_some]
    exact scanFrom_digits h.2
  rw [isOperand, isConstant, hscan, Bool.true_or]

/-! ## Binary expressions -/

variable {ι : Type}

/-- An operation on operands that bind more tightly than any operator. -/
theorem legible_operation {op : Text} {l r : CExpr ι} (hop : 0 < opLevel op)
    (htok : isToken op = true) (hl : Legible l) (hr : Legible r)
    (hlevel : unaryLevel ≤ CExpr.level l ∧ unaryLevel ≤ CExpr.level r) :
    Legible (.binary true op l r) := by
  have hlt := opLevel_lt_unaryLevel op
  refine ⟨?_, ⟨hl.apart, .inl rfl, .inl rfl, hr.apart⟩,
    ⟨hop, by omega, by omega, hl.fits, hr.fits⟩⟩
  rw [CExpr.toks, List.forall_mem_append, List.forall_mem_cons]
  exact ⟨hl.tokens, htok, hr.tokens⟩

/-- A sign stays apart from an operand and from a parenthesis. -/
theorem joint_sign {op w : Text} (hop : op ∈ (["!", "-", "~"] : List Text))
    (hw : isOperand w = true ∨ w = ['(']) : Joint op w := by
  have hlast : ∀ o ∈ (["!", "-", "~"] : List Text), lastToken o = o ∧ scan o = some ⟨.punct, o⟩ ∧
      (o == ['.']) = false := by decide
  obtain ⟨hlast, hscan, hdot⟩ := hlast op hop
  intro c hc
  rw [hlast, fusesWith, hscan]
  simp only [extend, hdot, Bool.false_and, Bool.false_eq_true, if_false]
  rw [if_neg, Option.isSome_none]
  intro hmem
  have hfused : c ∈ ['=', '-', '>'] := by
    have hall : ∀ o ∈ (["!", "-", "~"] : List Text), ∀ p ∈ puncts, o = p.dropLast →
        p.getLast?.all (fun d => ['=', '-', '>'].contains d) = true := by decide
    have hc := hall op hop _ hmem (by simp)
    simpa using hc
  rcases hw with hw | rfl
  · obtain ⟨ds, rfl⟩ := List.head?_eq_some_iff.mp hc
    have hstart : scan (c :: ds) = scanFrom ⟨.punct, [c]⟩ ds := by
      have hall : isBlank c = false ∧ start c = some ⟨.punct, [c]⟩ := by
        simp only [List.mem_cons, List.not_mem_nil, or_false] at hfused
        rcases hfused with rfl | rfl | rfl <;> decide
      obtain ⟨hblank, hd⟩ := hall
      rw [scan, hblank, hd]
      rfl
    have hne : c ≠ '.' := by
      rintro rfl
      revert hfused
      decide
    unfold isOperand isConstant isWord at hw
    rw [hstart] at hw
    cases hq : scanFrom ⟨.punct, [c]⟩ ds with
    | none =>
        rw [hq] at hw
        cases hw
    | some q =>
        have hmode := punct_of_scanFrom rfl (by simp) (by simpa using hne) hq
        obtain ⟨mode, text⟩ := q
        cases hmode
        rw [hq] at hw
        cases hw
  · rw [← Option.some.inj hc] at hfused
    revert hfused
    decide

end CSyntax

namespace Gobee

open CSyntax MachineInt Refinement

/-! ## Values -/

/-- What C has for a value of Go: a constant is an `int`, and so may a truth value be. -/
def ShowsValue : GoVal → Typed → Prop
  | (none, n), x => x = (.int int32, n) ∧ 0 ≤ n ∧ n < 2 ^ 31
  | (some (.int t), n), x => x = (.int t, n) ∧ t.Holds n
  | (some .bool, n), x => x.2 = n ∧ (n = 0 ∨ n = 1) ∧ (x.1 = .bool ∨ x.1 = .int int32)

theorem ShowsValue.value {v : GoVal} {x : Typed} (h : ShowsValue v x) : x.2 = v.2 := by
  obtain ⟨_ | _ | t, n⟩ := v
  · rw [h.1]
  · exact h.1
  · rw [h.1]

theorem shows_truth (b : Bool) : ShowsValue (some .bool, ofBool b) (truth b) :=
  ⟨rfl, ofBool_holds b, .inr rfl⟩

theorem convert_of_holds {s : Scalar} {n : Int} (h : s.Holds n) : convert s n = n := by
  cases s with
  | bool => obtain rfl | rfl := h <;> rfl
  | int t => exact IntTy.wrap_of_holds h

/-- A result of an operation, of the type that the test gives it. -/
def ResultOf (s : Scalar) (v : GoVal) (x : Typed) : Prop := v.1 = some s ∧ ShowsValue v x

theorem ResultOf.holds {s : Scalar} {v : GoVal} {x : Typed} (h : ResultOf s v x) : s.Holds v.2 := by
  obtain ⟨u, n⟩ := v
  obtain ⟨rfl, hshows⟩ := h
  cases s with
  | bool => exact hshows.2.1
  | int t => exact hshows.2

section

variable {prog : Program} {sigs : Signatures} {L : Locals}

/-- A value that an expression may have. -/
structure ValueOf (prog : Program) (sigs : Signatures) (L : Locals) (e : Expr) (v : GoVal)
    (x : Typed) : Prop where
  type : v.1 = scalarTy prog sigs L e
  literal : v.1 = none → litValue prog e = some v.2.toNat
  shows : ShowsValue v x

/-- The expression has a type, or is a constant. -/
def isScalar (prog : Program) (sigs : Signatures) (L : Locals) (e : Expr) : Bool :=
  (scalarTy prog sigs L e).isSome || (litValue prog e).isSome

theorem operandFits_none {s : Scalar} {e : Expr} (h : operandFits prog s e none = true) :
    ∃ t n, s = .int t ∧ litValue prog e = some n ∧ t.Holds n := by
  unfold operandFits at h
  split at h
  · next heq => cases heq
  · next t n _ hlit => exact ⟨t, n, rfl, hlit, of_decide_eq_true h⟩
  · cases h

theorem isScalar_of_fits {s : Scalar} {e : Expr}
    (h : operandFits prog s e (scalarTy prog sigs L e) = true) :
    isScalar prog sigs L e = true := by
  rw [isScalar]
  cases ht : scalarTy prog sigs L e with
  | some t => rfl
  | none =>
      rw [ht] at h
      obtain ⟨t, n, -, hlit, -⟩ := operandFits_none h
      rw [hlit]
      rfl

variable {e : Expr} {v : GoVal} {x : Typed}

theorem ValueOf.operand {t : IntTy} (hv : ValueOf prog sigs L e v x)
    (h : operandFits prog (.int t) e (scalarTy prog sigs L e) = true) :
    OperandOf t v.2 x ∧ (v.1 = some (.int t) ∧ x.1 = .int t ∨ v.1 = none) := by
  obtain ⟨u, n⟩ := v
  obtain ⟨htype, hlit, hshows⟩ := hv
  rw [← htype] at h
  cases u with
  | some u =>
      rw [operandFits, decide_eq_true_eq] at h
      subst h
      obtain ⟨rfl, hn⟩ := hshows
      exact ⟨⟨hn, rfl, .inl rfl⟩, .inl ⟨rfl, rfl⟩⟩
  | none =>
      obtain ⟨u, m, hu, hm, hholds⟩ := operandFits_none h
      obtain rfl := Scalar.int.inj hu
      obtain ⟨rfl, hlo, -⟩ := hshows
      rw [← Option.some.inj ((hlit rfl).symm.trans hm), Int.toNat_of_nonneg hlo] at hholds
      exact ⟨⟨hholds, rfl, .inr rfl⟩, .inr rfl⟩

theorem ValueOf.truth (hv : ValueOf prog sigs L e v x)
    (h : operandFits prog .bool e (scalarTy prog sigs L e) = true) : ResultOf .bool v x := by
  obtain ⟨u, n⟩ := v
  obtain ⟨htype, -, hshows⟩ := hv
  rw [← htype] at h
  cases u with
  | some u =>
      rw [operandFits, decide_eq_true_eq] at h
      subst h
      exact ⟨rfl, hshows⟩
  | none =>
      obtain ⟨t, n, hs, -⟩ := operandFits_none h
      cases hs

/-- Where a value of a type is needed, the conversion of C keeps the value. -/
theorem ValueOf.convert {s : Scalar} (hv : ValueOf prog sigs L e v x)
    (h : operandFits prog s e (scalarTy prog sigs L e) = true) :
    s.Holds v.2 ∧ CSyntax.convert s x.2 = v.2 := by
  have hholds : s.Holds v.2 := by
    cases s with
    | bool => exact (hv.truth h).holds
    | int t => exact (hv.operand h).1.1
  exact ⟨hholds, by rw [hv.shows.value]; exact convert_of_holds hholds⟩

theorem scalarTy_of_litValue {n : Nat} (h : litValue prog e = some n) :
    scalarTy prog sigs L e = none := by
  cases e with
  | ident id =>
      rw [litValue] at h
      split at h
      · next huses =>
          rw [scalarTy, identTy, huses]
          simp only [localVar, scalarVar, huses, Option.filter_none, Option.map_none]
      · cases h
  | basicLit => rfl
  | _ => cases h

/-- A constant has its own value. -/
theorem ValueOf.of_litValue {n : Nat} (hv : ValueOf prog sigs L e v x)
    (h : litValue prog e = some n) : v = (none, (n : Int)) := by
  obtain ⟨u, m⟩ := v
  obtain rfl : u = none := hv.type.trans (scalarTy_of_litValue h)
  have hm := (hv.literal rfl).symm.trans h
  obtain ⟨-, hlo, -⟩ := hv.shows
  rw [← Option.some.inj hm, Int.toNat_of_nonneg hlo]

/-! ## Operators -/

/-- Arithmetic in `uint32` and `uint64` wraps in both languages. -/
theorem word_arith {t : IntTy} (ht : t ∈ wordTys) :
    promote (.int t) = t ∧ ∀ n, arith t n = some (.int t, t.wrap n) := by
  have hall : ∀ u ∈ wordTys, promote (.int u) = u ∧ u.signed = false := by decide
  obtain ⟨hpromote, hsigned⟩ := hall t ht
  exact ⟨hpromote, fun n => by rw [arith, hsigned, if_neg (by decide)]⟩

theorem resultTy_word {c : OpClass} {t : IntTy} {s : Scalar} (h : resultTy c (.int t) = some s) :
    (((∃ o, c = .ring o) ∨ c = .quo ∨ c = .rem) ∧ t ∈ wordTys ∧ s = .int t) ∨
      ((∃ o, c = .rel o) ∧ s = .bool) := by
  have hword : ∀ {u : Option Scalar}, (if t ∈ wordTys then u else none) = some s →
      t ∈ wordTys ∧ u = some s := by
    intro u hu
    split_ifs at hu with hmem
    exact ⟨hmem, hu⟩
  cases c with
  | ring o =>
      obtain ⟨hmem, hs⟩ := hword h
      exact .inl ⟨.inl ⟨o, rfl⟩, hmem, (Option.some.inj hs).symm⟩
  | quo =>
      obtain ⟨hmem, hs⟩ := hword h
      exact .inl ⟨.inr (.inl rfl), hmem, (Option.some.inj hs).symm⟩
  | rem =>
      obtain ⟨hmem, hs⟩ := hword h
      exact .inl ⟨.inr (.inr rfl), hmem, (Option.some.inj hs).symm⟩
  | rel o => exact .inr ⟨⟨o, rfl⟩, (Option.some.inj h).symm⟩
  | _ => cases h

/-- The operators on integers of one type. -/
theorem binary_int {op : BinaryOp} {c : OpClass} {t : IntTy} {s : Scalar} {a b : Int} {y r : Typed}
    (hop : classOf op = some c) (hs : resultTy c (.int t) = some s) (hx : OperandOf t a x)
    (hy : OperandOf t b y) (htyped : x.1 = .int t ∨ y.1 = .int t)
    (hr : goBinary c (.int t, a) (.int t, b) = some r) :
    r.1 = s ∧ ∃ z, binaryValue op.string x y = some z ∧ ShowsValue (Typed.operand r) z := by
  have hl : op.string ≠ "<<" ∧ op.string ≠ ">>" := by
    cases op <;> cases hop <;> first | decide | cases hs
  rw [binaryValue_operands hx hy htyped hl.1 hl.2]
  obtain ⟨hc, ht, rfl⟩ | ⟨⟨o, rfl⟩, rfl⟩ := resultTy_word hs
  · obtain ⟨hpromote, harith⟩ := word_arith ht
    rw [hpromote]
    obtain ⟨o, rfl⟩ | rfl | rfl := hc
    · cases hr
      rw [commonValue_ring hop, harith]
      exact ⟨rfl, _, rfl, rfl, t.wrap_holds _⟩
    · have hdiv : op.string = "/" := by cases op <;> cases hop; rfl
      rw [goBinary] at hr
      split_ifs at hr with hb
      cases hr
      rw [hdiv, commonValue, if_pos rfl, divide, if_neg hb, harith]
      exact ⟨rfl, _, rfl, rfl, t.wrap_holds _⟩
    · have hmod : op.string = "%" := by cases op <;> cases hop; rfl
      rw [goBinary] at hr
      split_ifs at hr with hb
      cases hr
      rw [hmod, commonValue, if_neg (by decide), if_pos rfl, remainder, divide, if_neg hb, harith]
      exact ⟨rfl, _, rfl, rfl, IntTy.holds_tmod hx.1 _⟩
  · cases hr
    rw [commonValue_rel hop]
    exact ⟨rfl, _, rfl, shows_truth _⟩

/-- The comparisons of truth values. -/
theorem binary_truth {op : BinaryOp} {c : OpClass} {s : Scalar} {w : GoVal} {y r : Typed}
    (hop : classOf op = some c) (hand : c ≠ .land) (hor : c ≠ .lor)
    (hs : resultTy c .bool = some s) (hx : ResultOf .bool v x) (hy : ResultOf .bool w y)
    (hr : goBinary c (.bool, v.2) (.bool, w.2) = some r) :
    r.1 = s ∧ ∃ z, binaryValue op.string x y = some z ∧ ShowsValue (Typed.operand r) z := by
  have hpromote : ∀ {v : GoVal} {x : Typed}, ResultOf .bool v x →
      promote x.1 = promote .bool ∧ x.1.Holds x.2 := by
    rintro ⟨_, n⟩ ⟨t, m⟩ ⟨rfl, rfl, hn, rfl | rfl⟩
    · exact ⟨rfl, hn⟩
    · exact ⟨rfl, promote_holds (s := .bool) hn⟩
  cases c with
  | rel o =>
      have hs' : s = .bool := by
        have hif : (if o = .eq ∨ o = .ne then some Scalar.bool else none) = some s := hs
        split_ifs at hif
        exact (Option.some.inj hif).symm
      cases hr
      rw [binaryValue_common (hpromote hx).1 (hpromote hy).1 (hpromote hx).2 (hpromote hy).2
        (by cases op <;> cases hop <;> decide) (by cases op <;> cases hop <;> decide),
        commonValue_rel hop, hx.2.value, hy.2.value]
      exact ⟨hs'.symm, _, rfl, shows_truth _⟩
  | land => exact absurd rfl hand
  | lor => exact absurd rfl hor
  | _ => cases hs

/-- A shift by a constant below the width. -/
theorem binary_shift {op : BinaryOp} {c : OpClass} {t : IntTy} {a : Int} {n : Nat} {y r : Typed}
    (hop : classOf op = some c) (hc : c = .shl ∨ c = .shr) (ht : t ∈ wordTys) (hn : n < t.bits)
    (ha : t.Holds a) (hy : y.2 = n) (hr : goBinary c (.int t, a) (.int t, (n : Int)) = some r) :
    r.1 = .int t ∧
      ∃ z, binaryValue op.string (.int t, a) y = some z ∧ ShowsValue (Typed.operand r) z := by
  obtain ⟨hpromote, harith⟩ := word_arith ht
  have hcount : ¬ ((n : Int) < 0 ∨ (t.bits : Int) ≤ n) := by omega
  have hsigned : ∀ u ∈ wordTys, u.signed = false := by decide
  obtain rfl | rfl := hc
  · have hshl : op.string = "<<" := by cases op <;> cases hop; rfl
    rw [goBinary, if_neg (by omega)] at hr
    cases hr
    rw [hshl, binaryValue, if_pos rfl, hpromote, hy, shiftLeft, if_neg hcount, hsigned t ht,
      if_neg (by simp), harith]
    exact ⟨rfl, _, rfl, rfl, t.wrap_holds _⟩
  · have hshr : op.string = ">>" := by cases op <;> cases hop; rfl
    rw [goBinary, if_neg (by omega)] at hr
    cases hr
    rw [hshr, binaryValue, if_neg (by decide), if_pos rfl, hpromote, hy, shiftRight,
      if_neg hcount]
    exact ⟨rfl, _, rfl, rfl, IntTy.holds_ediv ha (by positivity)⟩

/-- An operator has a result on integers and on truth values, unless it panics. -/
theorem goBinary_of_resultTy {c : OpClass} {u s : Scalar} (h : resultTy c u = some s)
    (hand : c ≠ .land) (hor : c ≠ .lor) {a b : Int} (hb : panics c b = false) :
    ∃ r, goBinary c (u, a) (u, b) = some r := by
  cases c with
  | ring o =>
      cases u with
      | bool => cases h
      | int t => exact ⟨_, rfl⟩
  | quo | rem =>
      cases u with
      | bool => cases h
      | int t =>
          rw [goBinary, if_neg (of_decide_eq_false hb)]
          exact ⟨_, rfl⟩
  | shl | shr => cases u <;> cases h
  | rel o => exact ⟨_, rfl⟩
  | land => exact absurd rfl hand
  | lor => exact absurd rfl hor

/-- A shift by a count that is not negative has a result. -/
theorem goBinary_shift {c : OpClass} (hc : c = .shl ∨ c = .shr) {t : IntTy} {a k : Int}
    (hk : 0 ≤ k) : ∃ r, goBinary c (.int t, a) (.int t, k) = some r := by
  obtain rfl | rfl := hc
  · rw [goBinary, if_neg (by omega)]
    exact ⟨_, rfl⟩
  · rw [goBinary, if_neg (by omega)]
    exact ⟨_, rfl⟩

/-- The outcome of an operation in both languages. -/
theorem refines_result {s : Scalar} {a b : Option Typed}
    (h : ∃ r, a = some r ∧ r.1 = s ∧ ∃ z, b = some z ∧ ShowsValue (Typed.operand r) z) :
    Refines (ResultOf s) ((orFault a).bind fun r => .ok (Typed.operand r)) (orFault b) := by
  obtain ⟨r, rfl, hs, z, rfl, hshows⟩ := h
  exact .ok ⟨congrArg some hs, hshows⟩

/-- The outcome of an operation that may panic. -/
theorem refines_unlessPanic {s : Scalar} {p : Bool} {a b : Option Typed}
    (ha : p = false → ∃ r, a = some r)
    (h : ∀ r, a = some r → r.1 = s ∧ ∃ z, b = some z ∧ ShowsValue (Typed.operand r) z) :
    Refines (ResultOf s)
      (if p then .error .panic else (orFault a).bind fun r => .ok (Typed.operand r))
      (orFault b) := by
  cases p with
  | true => exact .panic _
  | false =>
      obtain ⟨r, hr⟩ := ha rfl
      exact refines_result ⟨r, hr, h r hr⟩

theorem shiftTy_eq_some {t : Option Scalar} {n : Option Nat} {s : Scalar}
    (h : shiftTy t n = some s) :
    ∃ u k, t = some (.int u) ∧ n = some k ∧ u ∈ wordTys ∧ k < u.bits ∧ s = .int u := by
  unfold shiftTy at h
  split at h
  · next u k =>
      split_ifs at h with hif
      exact ⟨u, k, rfl, rfl, hif.1, hif.2, (Option.some.inj h).symm⟩
  · cases h

/-- An operator that evaluates both operands is a shift by a constant, or has operands of one
type. -/
theorem operationTy_cases {c : OpClass} {e₁ e₂ : Expr} {t₁ t₂ : Option Scalar} {s : Scalar}
    (h : operationTy prog c e₁ t₁ e₂ t₂ = some s) :
    ((c = .shl ∨ c = .shr) ∧ ∃ t n, t₁ = some (.int t) ∧ litValue prog e₂ = some n ∧
        t ∈ wordTys ∧ n < t.bits ∧ s = .int t) ∨
      ∃ u, t₁.or t₂ = some u ∧ operandFits prog u e₁ t₁ = true ∧
        operandFits prog u e₂ t₂ = true ∧ resultTy c u = some s := by
  have hfits : (t₁.or t₂).bind (fun u =>
      if operandFits prog u e₁ t₁ && operandFits prog u e₂ t₂ then resultTy c u else none) =
        some s → ∃ u, t₁.or t₂ = some u ∧ operandFits prog u e₁ t₁ = true ∧
          operandFits prog u e₂ t₂ = true ∧ resultTy c u = some s := by
    intro h
    obtain ⟨u, hu, hif⟩ := Option.bind_eq_some_iff.mp h
    split_ifs at hif with hb
    rw [Bool.and_eq_true] at hb
    exact ⟨u, hu, hb.1, hb.2, hif⟩
  cases c with
  | shl => exact .inl ⟨.inl rfl, shiftTy_eq_some h⟩
  | shr => exact .inl ⟨.inr rfl, shiftTy_eq_some h⟩
  | _ => exact .inr (hfits h)

/-- Operands of one type. -/
theorem refines_common {op : BinaryOp} {c : OpClass} {s u : Scalar} {e₁ e₂ : Expr} {w : GoVal}
    {y : Typed} (hop : classOf op = some c) (hand : c ≠ .land) (hor : c ≠ .lor)
    (hv : ValueOf prog sigs L e₁ v x) (hw : ValueOf prog sigs L e₂ w y)
    (hu : (scalarTy prog sigs L e₁).or (scalarTy prog sigs L e₂) = some u)
    (h₁ : operandFits prog u e₁ (scalarTy prog sigs L e₁) = true)
    (h₂ : operandFits prog u e₂ (scalarTy prog sigs L e₂) = true) (hs : resultTy c u = some s) :
    Refines (ResultOf s) (goOperate c v w) (orFault (binaryValue op.string x y)) := by
  rw [← hv.type, ← hw.type] at hu
  rw [goOperate, hu]
  cases u with
  | int t =>
      obtain ⟨hx, hv'⟩ := hv.operand h₁
      obtain ⟨hy, hw'⟩ := hw.operand h₂
      have htyped : x.1 = .int t ∨ y.1 = .int t := by
        rcases hv' with hv' | hv'
        · exact .inl hv'.2
        · rcases hw' with hw' | hw'
          · exact .inr hw'.2
          · rw [hv', hw'] at hu
            cases hu
      have hgetD : ∀ {v : GoVal} {x : Typed},
          v.1 = some (.int t) ∧ x.1 = .int t ∨ v.1 = none → v.1.getD (.int t) = .int t := by
        rintro v x (hv | hv)
        · rw [hv.1]
          rfl
        · rw [hv]
          rfl
      simp only [hgetD hv', hgetD hw']
      exact refines_unlessPanic (goBinary_of_resultTy hs hand hor) fun r hr =>
        binary_int hop hs hx hy htyped hr
  | bool =>
      have hx := hv.truth h₁
      have hy := hw.truth h₂
      rw [hx.1, hy.1]
      exact refines_unlessPanic (goBinary_of_resultTy hs hand hor) fun r hr =>
        binary_truth hop hand hor hs hx hy hr

/-- **An operator that evaluates both operands gives the same result in both languages.** -/
theorem refines_operate {op : BinaryOp} {c : OpClass} {s : Scalar} {e₁ e₂ : Expr} {w : GoVal}
    {y : Typed} (hop : classOf op = some c) (hand : c ≠ .land) (hor : c ≠ .lor)
    (hs : operationTy prog c e₁ (scalarTy prog sigs L e₁) e₂ (scalarTy prog sigs L e₂) = some s)
    (hv : ValueOf prog sigs L e₁ v x) (hw : ValueOf prog sigs L e₂ w y) :
    Refines (ResultOf s) (goOperate c v w) (orFault (binaryValue op.string x y)) := by
  obtain ⟨hc, t, n, ht, hn, hmem, hlt, rfl⟩ | ⟨u, hu, h₁, h₂, hres⟩ := operationTy_cases hs
  · obtain ⟨u, a⟩ := v
    obtain rfl : u = some (.int t) := hv.type.trans ht
    obtain rfl := hw.of_litValue hn
    obtain ⟨rfl, ha⟩ := hv.shows
    rw [goOperate]
    exact refines_unlessPanic (fun _ => goBinary_shift hc (by simp)) fun r hr =>
      binary_shift hop hc hmem hlt ha hw.shows.value hr
  · exact refines_common hop hand hor hv hw hu h₁ h₂ hres

end

end Gobee
