/-
# Constant expressions

Go evaluates a constant expression without any width and hands the transpiler its
operators; C evaluates them again, in the types of its own constants.

* `exactVal` : the value of a constant expression in Go;
* `constExpr_kept_iff` : **the emitted text is read as the Go expression, and every operand
  in it has its exact value in C, if and only if the text is legible and every operand is an
  integer that the C type of the operand holds, with shifts below the width.**
-/
import Gobee.CFold
import Gobee.MapText
import Gobee.Splices

namespace Gobee

open CSyntax CExpr MachineInt

/-! ## Exact values -/

/-- Untyped integers and runes, untyped floating-point numbers, and integers of a type. -/
inductive ConstKind where
  | int | float | typed
  deriving DecidableEq

/-- The kind of the result of an operator: an untyped operand takes the type of the other
one, and a floating-point number wins over an integer. -/
def ConstKind.join : ConstKind → ConstKind → ConstKind
  | .typed, _ | _, .typed => .typed
  | .float, _ | _, .float => .float
  | .int, .int => .int

/-- The integer types. -/
def integerBasics : List Basic :=
  [.int, .int8, .int16, .int32, .int64, .uint, .uint8, .uint16, .uint32, .uint64, .uintptr,
    .byte, .rune]

/-- The kind of constants of a basic type; a floating-point type rounds its constants. -/
def basicKind (k : Basic) : Option ConstKind :=
  if k = .untypedInt ∨ k = .untypedRune then some .int
  else if k = .untypedFloat then some .float
  else if k ∈ integerBasics then some .typed
  else none

/-- The kind of constants of a type. -/
def constKind (prog : Program) : GoType → Option ConstKind
  | .basic k => basicKind k
  | .named n targs =>
      match prog.info.underlying n targs with
      | .basic k => if k ∈ integerBasics then some .typed else none
      | _ => none
  | .typeAlias _ _ actual => constKind prog actual
  | _ => none

/-- A constant with its kind. -/
structure ExactVal where
  kind : ConstKind
  val : ℚ

/-- The number a constant is; a fraction is in lowest terms. -/
def constNumber : ConstVal → Option ℚ
  | .int n => some n
  | .rat num den => if 1 < den ∧ num.natAbs.gcd den = 1 then some (num / den) else none
  | _ => none

/-- A plain decimal literal. -/
def decimalLiteral : Text → Option Nat
  | ['0'] => some 0
  | '0' :: _ => none
  | ds => digitsValue 10 ds

/-- The integer a number is. -/
def exactInt (q : ℚ) : Option ℤ := if q.den = 1 then some q.num else none

/-- An operator on integers. -/
def exactInts (f : ℤ → ℤ → Option ℤ) (k : ConstKind) (x y : ExactVal) : Option ExactVal :=
  if k = .float then none
  else
    (exactInt x.val).bind fun a => (exactInt y.val).bind fun b =>
      (f a b).map fun n : ℤ => ⟨k, (n : ℚ)⟩

/-- The left operand of a shift is an integer. -/
def shiftKind (x : ExactVal) : ConstKind := if x.kind = .typed then .typed else .int

/-- **The value of a binary operator.** -/
def exactBinary (op : BinaryOp) (x y : ExactVal) : Option ExactVal :=
  match op with
  | .add => some ⟨x.kind.join y.kind, x.val + y.val⟩
  | .sub => some ⟨x.kind.join y.kind, x.val - y.val⟩
  | .mul => some ⟨x.kind.join y.kind, x.val * y.val⟩
  | .quo =>
      if x.kind.join y.kind = .float then
        if y.val = 0 then none else some ⟨.float, x.val / y.val⟩
      else
        exactInts (fun a b => if b = 0 then none else some (a.tdiv b)) (x.kind.join y.kind) x y
  | .rem =>
      exactInts (fun a b => if b = 0 then none else some (a.tmod b)) (x.kind.join y.kind) x y
  | .and => exactInts (fun a b => some (Int.land a b)) (x.kind.join y.kind) x y
  | .or => exactInts (fun a b => some (Int.lor a b)) (x.kind.join y.kind) x y
  | .xor => exactInts (fun a b => some (Int.xor a b)) (x.kind.join y.kind) x y
  | .shl => exactInts (fun a b => if b < 0 then none else some (a * 2 ^ b.toNat)) (shiftKind x) x y
  | .shr => exactInts (fun a b => if b < 0 then none else some (a / 2 ^ b.toNat)) (shiftKind x) x y
  | _ => none

section

variable (prog : Program) (aliases : Aliases)

/-- The value of a constant identifier. -/
def identConst (id : Ident) : Option (ConstVal × GoType) :=
  match prog.info.uses id with
  | some ⟨decl, .const val, ty⟩ => if aliases.lookup decl = none then some (val, ty) else none
  | _ => none

/-- **The value of a constant expression**: decimal literals and constant identifiers under
arithmetic and bitwise operators, shifts and minus. -/
def exactVal : Expr → Option ExactVal
  | .basicLit _ .int v => (decimalLiteral v).map fun n : ℕ => ⟨.int, (n : ℚ)⟩
  | .ident id =>
      (identConst prog aliases id).bind fun c =>
        (constKind prog c.2).bind fun k => (constNumber c.1).map fun q => ⟨k, q⟩
  | .paren _ x => exactVal x
  | .unary _ .sub x => (exactVal x).map fun v => ⟨v.kind, -v.val⟩
  | .binary x op y => (exactVal x).bind fun v => (exactVal y).bind fun w => exactBinary op v w
  | _ => none

/-- The integer a constant expression is. -/
def intValue (e : Expr) : Option ℤ := (exactVal prog aliases e).bind fun v => exactInt v.val

/-- The operands of a constant expression, itself included. -/
def operands : Expr → List Expr
  | .paren pos x => .paren pos x :: operands x
  | .unary pos op x => .unary pos op x :: operands x
  | .binary x op y => .binary x op y :: (operands x ++ operands y)
  | e => [e]

/-! ## C types of constant expressions -/

/-- The type of a decimal constant. -/
def decimalType (n : Nat) : Option IntTy := decimalTypes.find? fun t => t.Holds n

/-- The type of the result of an operator. -/
def resultType (op : BinaryOp) (s t : IntTy) : IntTy :=
  if op = .shl ∨ op = .shr then s else usual s t

/-- **The C type of a constant expression**: that of its widest constant, and of its left
operand for a shift. -/
def constType : Expr → Option IntTy
  | .basicLit _ _ v => (decimalLiteral v).bind decimalType
  | .ident id =>
      match identConst prog aliases id with
      | some (.int n, _) => decimalType n.natAbs
      | _ => none
  | .paren _ x => constType x
  | .unary _ _ x => constType x
  | .binary x op y => (constType x).bind fun s => (constType y).map (resultType op s)
  | _ => none

/-- The operator is defined on the operands: a quotient is not changed by their conversion,
a shift is below the width, and a number shifted to the left is not negative. -/
def DefinedAt (op : BinaryOp) (t : IntTy) (a b n : ℤ) : Prop :=
  match op with
  | .quo => (t.wrap a).tdiv (t.wrap b) = n
  | .rem => t.Holds ((t.wrap a).tdiv (t.wrap b)) ∧ (t.wrap a).tmod (t.wrap b) = n
  | .shl => b < t.bits ∧ (t.signed = true → 0 ≤ a)
  | .shr => b < t.bits
  | _ => True

/-- The outermost operator is defined. -/
def Defined (t : IntTy) (n : ℤ) : Expr → Prop
  | .binary x op y => ∀ a ∈ intValue prog aliases x, ∀ b ∈ intValue prog aliases y,
      DefinedAt op t a b n
  | _ => True

/-- **The operand is an integer that its C type holds.** -/
def FitsType (e : Expr) : Prop :=
  ∃ n t, intValue prog aliases e = some n ∧ constType prog aliases e = some t ∧ t.Holds n ∧
    Defined prog aliases t n e

/-- The value in C of what is printed for an expression. -/
def cValue (e : Expr) : Option Typed :=
  evalC (fun _ => none) constantValue (erase (treeD prog aliases e))

/-- The operand has its exact value in C. -/
def KeepsValue (e : Expr) : Prop :=
  ∃ ty n, cValue prog aliases e = some (ty, n) ∧ intValue prog aliases e = some n

end

/-! ## Leaves -/

/-- Digits of a base are read as `Nat.ofDigitChars` reads them. -/
theorem digitsFrom_eq_ofDigitChars {ds : Text} (h : ∀ c ∈ ds, c.isDigit = true) (n : Nat) :
    digitsFrom 10 n ds = some (Nat.ofDigitChars 10 ds n) := by
  induction ds generalizing n with
  | nil => rfl
  | cons c ds ih =>
      rw [List.forall_mem_cons] at h
      have hcode : 48 ≤ c.toNat ∧ c.toNat ≤ 57 := by
        simpa [Char.isDigit, UInt32.le_iff_toNat_le] using h.1
      have hzero : '0'.toNat = 48 := rfl
      have hvalue : digitValue c = some (c.toNat - '0'.toNat) := by
        unfold digitValue
        rw [if_pos h.1]
      rw [digitsFrom, hvalue, Nat.ofDigitChars_cons]
      dsimp only
      rw [if_pos (by omega), ih h.2]

/-- The decimal text of a number does not begin with a zero, unless it is zero. -/
theorem head_itoa {n : Nat} (hn : 0 < n) : ∃ c ds, itoa n = c :: ds ∧ c ≠ '0' := by
  induction n using Nat.strong_induction_on with
  | h n ih =>
      unfold itoa
      by_cases hlt : n < 10
      · refine ⟨_, _, Nat.toDigits_of_lt_base hlt, ?_⟩
        interval_cases n <;> decide
      · obtain ⟨c, ds, hds, hc⟩ := ih (n / 10) (by omega) (by omega)
        rw [Nat.toDigits_of_base_le (by decide) (by omega)]
        unfold itoa at hds
        rw [hds]
        exact ⟨c, _, rfl, hc⟩

theorem decimalLiteral_of_ne {c : Char} {ds : Text} (h : c ≠ '0') :
    decimalLiteral (c :: ds) = digitsValue 10 (c :: ds) := by
  unfold decimalLiteral
  split
  · rename_i heq
    cases heq
    exact absurd rfl h
  · rename_i heq
    cases heq
    exact absurd rfl h
  · rfl

theorem integerConstant_of_ne {c : Char} {ds : Text} (h : c ≠ '0') :
    integerConstant (c :: ds) = (digitsValue 10 (c :: ds)).bind (inFirst decimalTypes) := by
  unfold integerConstant
  split
  · rename_i heq
    cases heq
    exact absurd rfl h
  · rename_i heq
    cases heq
    exact absurd rfl h
  · rfl

/-- The decimal text of a number is a literal. -/
theorem decimalLiteral_itoa (n : Nat) : decimalLiteral (itoa n) = some n := by
  rcases Nat.eq_zero_or_pos n with rfl | hn
  · rfl
  · obtain ⟨c, ds, hds, hc⟩ := head_itoa hn
    rw [hds, decimalLiteral_of_ne hc, ← hds]
    unfold digitsValue
    rw [if_neg (itoa_ne_nil n), digitsFrom_eq_ofDigitChars fun _ => isDigit_of_mem_itoa]
    unfold itoa
    rw [Nat.ofDigitChars_ten_toDigits]

/-- A decimal literal is a C constant of its value. -/
theorem constantValue_decimal {v : Text} {n : Nat} (h : decimalLiteral v = some n) :
    constantValue v = (decimalType n).map fun t => (.int t, (n : ℤ)) := by
  match v with
  | [] => cases h
  | c :: ds =>
      by_cases hc : c = '0'
      · subst hc
        cases ds with
        | nil =>
            cases h
            rfl
        | cons d ds => cases h
      · rw [decimalLiteral_of_ne hc] at h
        have hquote : c ≠ '\'' := by
          rintro rfl
          have hnone : digitValue '\'' = none := by decide
          rw [digitsValue, if_neg (by simp), digitsFrom, hnone] at h
          cases h
        unfold constantValue
        rw [if_neg (by simpa using hquote), integerConstant_of_ne hc, h, Option.bind_some]
        unfold inFirst decimalType
        rfl

/-! ## Operators -/

theorem exactInt_eq_some {q : ℚ} {n : ℤ} : exactInt q = some n ↔ q = n := by
  unfold exactInt
  constructor
  · intro h
    split at h
    · rename_i hden
      cases h
      exact (Rat.coe_int_num_of_den_eq_one hden).symm
    · cases h
  · rintro rfl
    rw [if_pos (Rat.den_intCast n), Rat.num_intCast]

/-- The value of an operator on integers. -/
theorem exactInts_eq {f : ℤ → ℤ → Option ℤ} {k : ConstKind} {x y v : ExactVal} {a b n : ℤ}
    (hx : x.val = a) (hy : y.val = b) (hv : exactInts f k x y = some v) (hn : v.val = n) :
    f a b = some n := by
  unfold exactInts at hv
  rw [exactInt_eq_some.mpr hx, exactInt_eq_some.mpr hy] at hv
  split at hv
  · cases hv
  · obtain ⟨m, hm, rfl⟩ := Option.map_eq_some_iff.mp hv
    have hcast : (m : ℚ) = n := hn
    have hmn : m = n := by exact_mod_cast hcast
    rw [hm, hmn]

theorem binaryValue_ring {w : Text} {o : RingOp} (hw : (w, o) ∈ ringOps) (x y : Typed) :
    binaryValue w x y = arith (commonType x y)
      (o.apply ((commonType x y).wrap x.2) ((commonType x y).wrap y.2)) := by
  simp only [ringOps, List.mem_cons, Prod.mk.injEq, List.not_mem_nil, or_false] at hw
  rcases hw with ⟨rfl, rfl⟩ | ⟨rfl, rfl⟩ | ⟨rfl, rfl⟩ | ⟨rfl, rfl⟩ | ⟨rfl, rfl⟩ | ⟨rfl, rfl⟩ <;> rfl

section

variable {ta tb : IntTy} {a b n : ℤ} (hta : ta ∈ decimalTypes) (htb : tb ∈ decimalTypes)

include hta htb

theorem commonType_decimal : commonType (.int ta, a) (.int tb, b) = usual ta tb := by
  show usual (promote (.int ta)) (promote (.int tb)) = _
  rw [promote_decimal ta hta, promote_decimal tb htb]

variable (ha : ta.Holds a) (hb : tb.Holds b)

include ha hb

/-- A signed common type holds the operands. -/
theorem holds_usual (hs : (usual ta tb).signed = true) :
    (usual ta tb).Holds a ∧ (usual ta tb).Holds b := by
  obtain ⟨h1, h2, h3, h4⟩ := usual_signed ta hta tb htb hs
  exact ⟨⟨h1.trans ha.1, ha.2.trans_le h2⟩, ⟨h3.trans hb.1, hb.2.trans_le h4⟩⟩

omit ha in
/-- The conversion to the common type makes no zero. -/
theorem wrap_usual_ne_zero (hne : b ≠ 0) : (usual ta tb).wrap b ≠ 0 := by
  intro hzero
  have hmod := (usual ta tb).wrap_modEq b
  rw [hzero] at hmod
  obtain ⟨hlo, hhi⟩ := usual_bits ta hta tb htb
  obtain ⟨hblo, hbhi⟩ := hb
  have hdvd : (2 : ℤ) ^ (usual ta tb).bits ∣ b := by
    simpa using (Int.modEq_iff_dvd.mp hmod)
  have habs : |b| < 2 ^ (usual ta tb).bits := by
    rw [abs_lt]
    constructor
    · omega
    · omega
  exact hne (Int.eq_zero_of_abs_lt_dvd hdvd habs)

/-- A ring operator gives the exact result if the common type holds it. -/
theorem binaryValue_ring_iff {w : Text} {o : RingOp} (hw : (w, o) ∈ ringOps) :
    (∃ ty, binaryValue w (.int ta, a) (.int tb, b) = some (ty, o.exact a b)) ↔
      (usual ta tb).Holds (o.exact a b) := by
  have hbits := bits_decimal _ (usual_decimal ta hta tb htb)
  have hiff := arith_exact_iff hbits o (holds_usual hta htb ha hb)
  rw [binaryValue_ring hw, commonType_decimal hta htb]
  constructor
  · rintro ⟨ty, h⟩
    exact (arith_holds h).2
  · intro h
    exact ⟨_, hiff.mpr h⟩

omit ha hb in
/-- The operands of a quotient are converted. -/
theorem binaryValue_quotient :
    binaryValue "/" (.int ta, a) (.int tb, b) =
        divide (usual ta tb) ((usual ta tb).wrap a) ((usual ta tb).wrap b) ∧
      binaryValue "%" (.int ta, a) (.int tb, b) =
        remainder (usual ta tb) ((usual ta tb).wrap a) ((usual ta tb).wrap b) := by
  have hcommon := @commonType_decimal ta tb a b hta htb
  constructor
  · show divide (commonType (.int ta, a) (.int tb, b)) _ _ = _
    rw [hcommon]
  · show remainder (commonType (.int ta, a) (.int tb, b)) _ _ = _
    rw [hcommon]

omit ha hb htb in
/-- A shift is made in the type of its left operand. -/
theorem binaryValue_shift :
    binaryValue "<<" (.int ta, a) (.int tb, b) = shiftLeft ta a b ∧
      binaryValue ">>" (.int ta, a) (.int tb, b) = shiftRight ta a b := by
  constructor
  · show shiftLeft (promote (.int ta)) a b = _
    rw [promote_decimal ta hta]
  · show shiftRight (promote (.int ta)) a b = _
    rw [promote_decimal ta hta]

omit ha hb in
/-- The type of the result. -/
theorem binaryValue_type {op : BinaryOp} {x y v : ExactVal} {r : Typed}
    (hv : exactBinary op x y = some v)
    (h : binaryValue op.string (.int ta, a) (.int tb, b) = some r) :
    r.1 = .int (resultType op ta tb) := by
  obtain ⟨hquo, hrem⟩ := @binaryValue_quotient ta tb a b hta htb
  obtain ⟨hshl, hshr⟩ := @binaryValue_shift ta tb a b hta
  have hring : ∀ {w : Text} {o : RingOp}, (w, o) ∈ ringOps →
      binaryValue w (.int ta, a) (.int tb, b) = some r → r.1 = .int (usual ta tb) := by
    intro w o hw h
    rw [binaryValue_ring hw, commonType_decimal hta htb] at h
    exact (arith_holds h).1
  have hdivide : ∀ {c d : ℤ} {r : Typed}, divide (usual ta tb) c d = some r →
      r.1 = .int (usual ta tb) := by
    intro c d r h
    unfold divide at h
    split at h
    · cases h
    · exact (arith_holds h).1
  cases op with
  | add => exact hring (o := .add) (by decide) h
  | sub => exact hring (o := .sub) (by decide) h
  | mul => exact hring (o := .mul) (by decide) h
  | and => exact hring (o := .and) (by decide) h
  | or => exact hring (o := .or) (by decide) h
  | xor => exact hring (o := .xor) (by decide) h
  | quo =>
      rw [show BinaryOp.quo.string = "/" from rfl, hquo] at h
      exact hdivide h
  | rem =>
      rw [show BinaryOp.rem.string = "%" from rfl, hrem] at h
      obtain ⟨q, -, rfl⟩ := Option.map_eq_some_iff.mp h
      rfl
  | shl =>
      rw [show BinaryOp.shl.string = "<<" from rfl, hshl] at h
      unfold shiftLeft at h
      split at h
      · cases h
      · split at h
        · cases h
        · exact (arith_holds h).1
  | shr =>
      rw [show BinaryOp.shr.string = ">>" from rfl, hshr] at h
      unfold shiftRight at h
      split at h
      · cases h
      · cases h
        rfl
  | _ => cases hv

/-- **An operator gives the exact result if its type holds it and the operator is
defined.** -/
theorem binaryValue_iff {op : BinaryOp} {x y v : ExactVal} (hx : x.val = a) (hy : y.val = b)
    (hv : exactBinary op x y = some v) (hn : v.val = n) :
    (∃ ty, binaryValue op.string (.int ta, a) (.int tb, b) = some (ty, n)) ↔
      (resultType op ta tb).Holds n ∧ DefinedAt op (resultType op ta tb) a b n := by
  obtain ⟨hquo, hrem⟩ := @binaryValue_quotient ta tb a b hta htb
  obtain ⟨hshl, hshr⟩ := @binaryValue_shift ta tb a b hta
  have htyped : (∃ ty, binaryValue op.string (.int ta, a) (.int tb, b) = some (ty, n)) ↔
      binaryValue op.string (.int ta, a) (.int tb, b) =
        some (.int (resultType op ta tb), n) := by
    constructor
    · rintro ⟨ty, h⟩
      have hty := binaryValue_type hta htb hv h
      rw [h, ← hty]
    · intro h
      exact ⟨_, h⟩
  have hring : ∀ {o : RingOp}, (op.string, o) ∈ ringOps → n = o.exact a b →
      ((∃ ty, binaryValue op.string (.int ta, a) (.int tb, b) = some (ty, n)) ↔
        (usual ta tb).Holds n ∧ True) := by
    intro o hw hexact
    rw [hexact, and_true]
    exact binaryValue_ring_iff hta htb ha hb hw
  have hwa := (usual ta tb).wrap_holds a
  have hwb := (usual ta tb).wrap_holds b
  -- one operator at a time: the ring operators wrap, the others have a domain to check
  cases op with
  | add =>
      cases hv
      refine hring (o := .add) (by decide) ?_
      have hsum : x.val + y.val = n := hn
      rw [hx, hy] at hsum
      exact_mod_cast hsum.symm
  | sub =>
      cases hv
      refine hring (o := .sub) (by decide) ?_
      have hdiff : x.val - y.val = n := hn
      rw [hx, hy] at hdiff
      exact_mod_cast hdiff.symm
  | mul =>
      cases hv
      refine hring (o := .mul) (by decide) ?_
      have hprod : x.val * y.val = n := hn
      rw [hx, hy] at hprod
      exact_mod_cast hprod.symm
  | and => exact hring (o := .and) (by decide) (Option.some.inj (exactInts_eq hx hy hv hn)).symm
  | or => exact hring (o := .or) (by decide) (Option.some.inj (exactInts_eq hx hy hv hn)).symm
  | xor => exact hring (o := .xor) (by decide) (Option.some.inj (exactInts_eq hx hy hv hn)).symm
  | quo =>
      have hne : b ≠ 0 := by
        rintro rfl
        unfold exactBinary at hv
        dsimp only at hv
        split at hv
        · rw [if_pos (by rw [hy]; rfl)] at hv
          cases hv
        · have h := exactInts_eq hx hy hv hn
          cases h
      rw [htyped, show BinaryOp.quo.string = "/" from rfl, hquo]
      show divide (usual ta tb) _ _ = some (.int (usual ta tb), n) ↔ _
      -- a divisor that is not zero stays so when it is wrapped
      rw [divide_eq_iff hwa hwb]
      constructor
      · rintro ⟨-, hquot, hholds⟩
        exact ⟨hholds, hquot⟩
      · rintro ⟨hholds, hquot⟩
        exact ⟨wrap_usual_ne_zero hta htb hb hne, hquot, hholds⟩
  | rem =>
      have hne : b ≠ 0 := by
        rintro rfl
        have h := exactInts_eq hx hy hv hn
        cases h
      rw [htyped, show BinaryOp.rem.string = "%" from rfl, hrem]
      show remainder (usual ta tb) _ _ = some (.int (usual ta tb), n) ↔ _
      rw [remainder_eq_iff hwa hwb]
      constructor
      · rintro ⟨-, hholds, hmod⟩
        exact ⟨hmod ▸ IntTy.holds_tmod hwa _, hholds, hmod⟩
      · rintro ⟨-, hholds, hmod⟩
        exact ⟨wrap_usual_ne_zero hta htb hb hne, hholds, hmod⟩
  | shl =>
      have h := exactInts_eq hx hy hv hn
      split at h
      · cases h
      · rename_i hk
        cases h
        rw [htyped, show BinaryOp.shl.string = "<<" from rfl, hshl]
        show shiftLeft ta a b = some (.int ta, _) ↔ _
        rw [shiftLeft_exact_iff]
        constructor
        · rintro ⟨hrange, hneg, hholds⟩
          exact ⟨hholds, hrange.2, hneg⟩
        · rintro ⟨hholds, hrange, hneg⟩
          exact ⟨⟨by omega, hrange⟩, hneg, hholds⟩
  | shr =>
      have h := exactInts_eq hx hy hv hn
      split at h
      · cases h
      · rename_i hk
        cases h
        rw [htyped, show BinaryOp.shr.string = ">>" from rfl, hshr]
        show shiftRight ta a b = some (.int ta, _) ↔ _
        rw [shiftRight_exact_iff]
        have hholds : ta.Holds (a / 2 ^ b.toNat) := IntTy.holds_ediv ha (by positivity)
        constructor
        · rintro ⟨-, hrange⟩
          exact ⟨hholds, hrange⟩
        · rintro ⟨-, hrange⟩
          exact ⟨by omega, hrange⟩
  | _ => cases hv

end

/-! ## Expressions -/

section

variable {prog : Program} {aliases : Aliases}

theorem decimalType_mem {n : Nat} {t : IntTy} (h : decimalType n = some t) :
    t ∈ decimalTypes ∧ t.Holds n := by
  unfold decimalType at h
  have hholds := List.find?_some h
  rw [decide_eq_true_eq] at hholds
  exact ⟨List.mem_of_find?_eq_some h, hholds⟩

theorem resultType_mem {s t : IntTy} (hs : s ∈ decimalTypes) (ht : t ∈ decimalTypes)
    (op : BinaryOp) : resultType op s t ∈ decimalTypes := by
  unfold resultType
  split
  · exact hs
  · exact usual_decimal s hs t ht

theorem constType_mem : ∀ {e : Expr} {t : IntTy}, constType prog aliases e = some t →
    t ∈ decimalTypes
  | .basicLit pos kind v, t, h => by
      obtain ⟨n, -, hn⟩ := Option.bind_eq_some_iff.mp h
      exact (decimalType_mem hn).1
  | .ident id, t, h => by
      rw [constType] at h
      split at h
      · exact (decimalType_mem h).1
      · cases h
  | .paren pos x, t, h => constType_mem (e := x) h
  | .unary pos op x, t, h => constType_mem (e := x) h
  | .binary x op y, t, h => by
      obtain ⟨s, hs, h⟩ := Option.bind_eq_some_iff.mp h
      obtain ⟨s', hs', rfl⟩ := Option.map_eq_some_iff.mp h
      exact resultType_mem (constType_mem hs) (constType_mem hs') op
  | .selector _ _, t, h | .call _ _, t, h | .index _ _, t, h | .star _ _, t, h
  | .other _ _ _, t, h => by cases h

/-- What is shown of a constant expression: in C every operand has its exact value if every
operand fits its type, and then the value is one of that type. -/
structure Settled (prog : Program) (aliases : Aliases) (e : Expr) : Prop where
  kept : (∀ d ∈ operands e, KeepsValue prog aliases d) ↔ ∀ d ∈ operands e, FitsType prog aliases d
  value : (∀ d ∈ operands e, FitsType prog aliases d) → ∀ n t, intValue prog aliases e = some n →
    constType prog aliases e = some t → cValue prog aliases e = some (.int t, n)

/-- An operand is settled with its own operands. -/
theorem settled_node {e : Expr} {rest : List Expr} (hop : operands e = e :: rest)
    (hrest : (∀ d ∈ rest, KeepsValue prog aliases d) ↔ ∀ d ∈ rest, FitsType prog aliases d)
    (hnode : (∀ d ∈ rest, FitsType prog aliases d) →
      (KeepsValue prog aliases e ↔ FitsType prog aliases e) ∧
        (FitsType prog aliases e → ∀ n t, intValue prog aliases e = some n →
          constType prog aliases e = some t → cValue prog aliases e = some (.int t, n))) :
    Settled prog aliases e := by
  refine ⟨?_, ?_⟩
  · rw [hop, List.forall_mem_cons, List.forall_mem_cons, hrest]
    constructor
    · rintro ⟨he, hall⟩
      exact ⟨(hnode hall).1.mp he, hall⟩
    · rintro ⟨he, hall⟩
      exact ⟨(hnode hall).1.mpr he, hall⟩
  · rw [hop, List.forall_mem_cons]
    rintro ⟨he, hall⟩
    exact (hnode hall).2 he

/-- An operand is kept and fits for the same reason: both say what its C value is. -/
theorem node_of_value {e : Expr} {n : ℤ} {t : IntTy} (hn : intValue prog aliases e = some n)
    (ht : constType prog aliases e = some t)
    (hvalue : (∃ ty, cValue prog aliases e = some (ty, n)) ↔
      t.Holds n ∧ Defined prog aliases t n e)
    (htype : ∀ r, cValue prog aliases e = some r → r.1 = .int t) :
    (KeepsValue prog aliases e ↔ FitsType prog aliases e) ∧
      (FitsType prog aliases e → ∀ n' t', intValue prog aliases e = some n' →
        constType prog aliases e = some t' → cValue prog aliases e = some (.int t', n')) := by
  have hkeeps : KeepsValue prog aliases e ↔ ∃ ty, cValue prog aliases e = some (ty, n) := by
    constructor
    · rintro ⟨ty, m, hm, hm'⟩
      rw [hn] at hm'
      cases hm'
      exact ⟨ty, hm⟩
    · rintro ⟨ty, hm⟩
      exact ⟨ty, n, hm, hn⟩
  have hfits : FitsType prog aliases e ↔ t.Holds n ∧ Defined prog aliases t n e := by
    constructor
    · rintro ⟨m, s, hm, hs, hholds, hdef⟩
      rw [hn] at hm
      rw [ht] at hs
      cases hm
      cases hs
      exact ⟨hholds, hdef⟩
    · rintro ⟨hholds, hdef⟩
      exact ⟨n, t, hn, ht, hholds, hdef⟩
  refine ⟨hkeeps.trans (hvalue.trans hfits.symm), fun hf n' t' hn' ht' => ?_⟩
  rw [hn] at hn'
  rw [ht] at ht'
  cases hn'
  cases ht'
  obtain ⟨ty, hty⟩ := hvalue.mpr (hfits.mp hf)
  rw [hty, show ty = .int t from htype _ hty]

/-- An operand that is no integer, or that has no type, is neither kept nor fits. -/
theorem node_of_none {e : Expr}
    (h : intValue prog aliases e = none ∨
      (constType prog aliases e = none ∧ cValue prog aliases e = none)) :
    (KeepsValue prog aliases e ↔ FitsType prog aliases e) ∧
      (FitsType prog aliases e → ∀ n' t', intValue prog aliases e = some n' →
        constType prog aliases e = some t' → cValue prog aliases e = some (.int t', n')) := by
  have hfits : ¬ FitsType prog aliases e := by
    rintro ⟨n, t, hn, ht, -⟩
    rcases h with h | ⟨h, -⟩
    · rw [h] at hn
      cases hn
    · rw [h] at ht
      cases ht
  have hkeeps : ¬ KeepsValue prog aliases e := by
    rintro ⟨ty, n, hv, hn⟩
    rcases h with h | ⟨-, h⟩
    · rw [h] at hn
      cases hn
    · rw [h] at hv
      cases hv
  exact ⟨iff_of_false hkeeps hfits, fun hf => absurd hf hfits⟩

/-- A number is printed with its sign. -/
theorem evalC_number (n : ℤ) :
    evalC (fun _ => none) constantValue (erase (numberTree (intText n))) =
      (decimalType n.natAbs).bind fun t => if n < 0 then arith t n else some (.int t, n) := by
  cases n with
  | ofNat m =>
      have hplain : numberTree (intText (.ofNat m)) = name (itoa m) := by
        unfold numberTree
        split
        · rename_i digits heq
          have hdigit := isDigit_of_mem_itoa (n := m) (c := '-') (by
            rw [show itoa m = '-' :: digits from heq]
            exact List.mem_cons_self)
          exact absurd hdigit (by decide)
        · rfl
      rw [hplain]
      show constantValue (itoa m) = _
      rw [constantValue_decimal (decimalLiteral_itoa m)]
      have hneg : ¬ (Int.ofNat m < 0) := by
        show ¬ ((m : ℤ) < 0)
        omega
      simp only [if_neg hneg]
      show _ = (decimalType m).bind _
      generalize decimalType m = t
      cases t with
      | none => rfl
      | some t => rfl
  | negSucc m =>
      show ((constantValue (itoa (m + 1))).bind (unaryValue ['-'])) = _
      rw [constantValue_decimal (decimalLiteral_itoa (m + 1))]
      have hneg : Int.negSucc m < 0 := Int.negSucc_lt_zero m
      simp only [if_pos hneg]
      show _ = (decimalType (m + 1)).bind _
      cases ht : decimalType (m + 1) with
      | none => rfl
      | some t =>
          show arith (promote (.int t)) (-((m + 1 : ℕ) : ℤ)) = arith t (Int.negSucc m)
          rw [promote_decimal t (decimalType_mem ht).1]
          rfl

/-- A decimal literal. -/
theorem settled_literal {pos : Pos} {v : Text}
    (hv : (exactVal prog aliases (.basicLit pos .int v)).isSome = true) :
    Settled prog aliases (.basicLit pos .int v) := by
  refine @settled_node prog aliases _ [] rfl (by simp) fun _ => ?_
  cases hlit : decimalLiteral v with
  | none =>
      rw [exactVal, hlit] at hv
      cases hv
  | some m =>
      have hn : intValue prog aliases (.basicLit pos .int v) = some (m : ℤ) := by
        unfold intValue
        rw [exactVal, hlit]
        exact exactInt_eq_some.mpr (by simp)
      have hvalue : cValue prog aliases (.basicLit pos .int v) =
          (decimalType m).map fun t => (.int t, (m : ℤ)) := by
        show constantValue v = _
        exact constantValue_decimal hlit
      cases ht : decimalType m with
      | none =>
          refine node_of_none (.inr ⟨?_, ?_⟩)
          · rw [constType, hlit, Option.bind_some, ht]
          · rw [hvalue, ht]
            rfl
      | some t =>
          rw [ht] at hvalue
          refine node_of_value hn (by rw [constType, hlit, Option.bind_some, ht]) ?_ ?_
          · rw [hvalue]
            exact iff_of_true ⟨_, rfl⟩ ⟨(decimalType_mem ht).2, trivial⟩
          · intro r hr
            rw [hvalue] at hr
            cases hr
            rfl

/-- A fraction in lowest terms is no integer. -/
theorem exactInt_fraction {num : ℤ} {den : ℕ} (h : 1 < den ∧ num.natAbs.gcd den = 1) :
    exactInt ((num : ℚ) / den) = none := by
  cases hn : exactInt ((num : ℚ) / den) with
  | none => rfl
  | some n =>
      have hden : (den : ℚ) ≠ 0 := by
        have hpos : 0 < den := by omega
        positivity
      have hq := exactInt_eq_some.mp hn
      rw [div_eq_iff hden] at hq
      have hmul : num = n * den := by exact_mod_cast hq
      have hdvd : den ∣ num.natAbs := by
        rw [hmul, Int.natAbs_mul, Int.natAbs_natCast]
        exact Dvd.intro_left _ rfl
      have hgcd : num.natAbs.gcd den = den := Nat.gcd_eq_right hdvd
      omega

theorem treeD_const {id : Ident} {val : ConstVal} {ty : GoType}
    (h : identConst prog aliases id = some (val, ty)) :
    treeD prog aliases (.ident id) = constTree val := by
  have hok : exprTree prog aliases (.ident id) = .ok (identTree prog aliases id) := rfl
  rw [treeD_of_ok hok]
  unfold identConst at h
  unfold identTree
  split at h
  · rename_i decl val' ty' huses
    split at h
    · rename_i hnone
      cases h
      rw [huses]
      dsimp only
      rw [hnone]
    · cases h
  · cases h

/-- A constant identifier. -/
theorem settled_ident {id : Ident} (hv : (exactVal prog aliases (.ident id)).isSome = true) :
    Settled prog aliases (.ident id) := by
  refine @settled_node prog aliases _ [] rfl (by simp) fun _ => ?_
  obtain ⟨v, hv⟩ := Option.isSome_iff_exists.mp hv
  obtain ⟨⟨val, ty⟩, hid, hv'⟩ := Option.bind_eq_some_iff.mp hv
  obtain ⟨k, hk, hv'⟩ := Option.bind_eq_some_iff.mp hv'
  obtain ⟨q, hq, rfl⟩ := Option.map_eq_some_iff.mp hv'
  have hint : intValue prog aliases (.ident id) = exactInt q := by
    unfold intValue
    rw [hv]
    rfl
  -- an integer is printed as digits, a fraction as a number that is no integer
  cases val with
  | int n =>
      cases hq
      have hn : intValue prog aliases (.ident id) = some n := by
        rw [hint]
        exact exactInt_eq_some.mpr rfl
      have hvalue : cValue prog aliases (.ident id) =
          (decimalType n.natAbs).bind fun t => if n < 0 then arith t n else some (.int t, n) := by
        unfold cValue
        rw [treeD_const hid]
        exact evalC_number n
      have htype : constType prog aliases (.ident id) = decimalType n.natAbs := by
        rw [constType, hid]
      cases ht : decimalType n.natAbs with
      | none =>
          rw [ht] at hvalue htype
          exact node_of_none (.inr ⟨htype, hvalue⟩)
      | some t =>
          rw [ht, Option.bind_some] at hvalue
          rw [ht] at htype
          refine node_of_value hn htype ?_ ?_
          · rw [hvalue]
            -- a negative number is printed as a minus sign before the digits
            by_cases hneg : n < 0
            · rw [if_pos hneg]
              constructor
              · rintro ⟨ty, h⟩
                exact ⟨(arith_holds h).2, trivial⟩
              · rintro ⟨hholds, -⟩
                exact ⟨_, arith_of_holds hholds⟩
            · rw [if_neg hneg]
              have habs : ((n.natAbs : ℕ) : ℤ) = n := Int.natAbs_of_nonneg (by omega)
              have hholds := (decimalType_mem ht).2
              rw [habs] at hholds
              exact iff_of_true ⟨_, rfl⟩ ⟨hholds, trivial⟩
          · intro r hr
            rw [hvalue] at hr
            split at hr
            · exact (arith_holds hr).1
            · cases hr
              rfl
  | rat num den =>
      rw [constNumber] at hq
      split at hq
      · rename_i hlowest
        cases hq
        exact node_of_none (.inl (by rw [hint, exactInt_fraction hlowest]))
      · cases hq
  | _ => cases hq

theorem self_mem_operands (e : Expr) : e ∈ operands e := by
  cases e <;> simp [operands]

/-- A parenthesised constant. -/
theorem settled_paren {pos : Pos} {x : Expr} {t : CTree} (ht : exprTree prog aliases x = .ok t)
    (hx : Settled prog aliases x) : Settled prog aliases (.paren pos x) := by
  have hpt : exprTree prog aliases (.paren pos x) = .ok (.paren t) := by
    show (do let inner ← exprTree prog aliases x; return CExpr.paren inner) = _
    rw [ht]
    rfl
  have hvalue : cValue prog aliases (.paren pos x) = cValue prog aliases x := by
    unfold cValue
    rw [treeD_of_ok hpt, treeD_of_ok ht]
    rfl
  have hint : intValue prog aliases (.paren pos x) = intValue prog aliases x := rfl
  have htype : constType prog aliases (.paren pos x) = constType prog aliases x := rfl
  refine settled_node rfl hx.kept fun hall => ?_
  obtain ⟨n, s, hn, hs, hholds, -⟩ := hall x (self_mem_operands x)
  have hc := hx.value hall n s hn hs
  refine node_of_value (hint.trans hn) (htype.trans hs) ?_ ?_
  · rw [hvalue, hc]
    exact iff_of_true ⟨_, rfl⟩ ⟨hholds, trivial⟩
  · intro r hr
    rw [hvalue, hc] at hr
    cases hr
    rfl

/-- A negated constant. -/
theorem settled_minus {pos : Pos} {x : Expr} {t : CTree} (ht : exprTree prog aliases x = .ok t)
    (hx : Settled prog aliases x) : Settled prog aliases (.unary pos .sub x) := by
  have hut : exprTree prog aliases (.unary pos .sub x) = .ok (.unary ['-'] t) := by
    show unaryTree prog pos .sub (exprTree prog aliases x) = _
    rw [ht]
    rfl
  have hvalue : cValue prog aliases (.unary pos .sub x) =
      (cValue prog aliases x).bind (unaryValue ['-']) := by
    unfold cValue
    rw [treeD_of_ok hut, treeD_of_ok ht]
    rfl
  refine settled_node rfl hx.kept fun hall => ?_
  obtain ⟨n, s, hn, hs, hholds, -⟩ := hall x (self_mem_operands x)
  have hmem := constType_mem hs
  have hc : cValue prog aliases (.unary pos .sub x) = arith s (-n) := by
    rw [hvalue, hx.value hall n s hn hs]
    show arith (promote (.int s)) (-n) = _
    rw [promote_decimal s hmem]
  have hint : intValue prog aliases (.unary pos .sub x) = some (-n) := by
    obtain ⟨v, hv, hvn⟩ := Option.bind_eq_some_iff.mp hn
    unfold intValue
    rw [exactVal, hv]
    refine exactInt_eq_some.mpr ?_
    show -v.val = _
    rw [exactInt_eq_some.mp hvn]
    push_cast
    rfl
  refine node_of_value hint hs ?_ ?_
  · rw [hc]
    constructor
    · rintro ⟨ty, h⟩
      exact ⟨(arith_holds h).2, trivial⟩
    · rintro ⟨h, -⟩
      exact ⟨_, arith_of_holds h⟩
  · intro r hr
    rw [hc] at hr
    exact (arith_holds hr).1

/-- An operator on two constants. -/
theorem settled_binary {x y : Expr} {op : BinaryOp} {l r : CTree}
    (hv : (exactVal prog aliases (.binary x op y)).isSome = true)
    (hl : exprTree prog aliases x = .ok l) (hr : exprTree prog aliases y = .ok r)
    (hx : Settled prog aliases x) (hy : Settled prog aliases y) :
    Settled prog aliases (.binary x op y) := by
  obtain ⟨w, hw⟩ := Option.isSome_iff_exists.mp hv
  obtain ⟨u, hu, hw'⟩ := Option.bind_eq_some_iff.mp hw
  obtain ⟨v, hv, hexact⟩ := Option.bind_eq_some_iff.mp hw'
  have hbt : exprTree prog aliases (.binary x op y) = .ok (.binary true op.string l r) := by
    show binaryTree (exprTree prog aliases x) op (exprTree prog aliases y) = _
    rw [hl, hr]
    rfl
  have hlogic : op.string ≠ "&&".toList ∧ op.string ≠ "||".toList := by
    cases op <;> first | exact ⟨by decide, by decide⟩ | cases hexact
  have hvalue : cValue prog aliases (.binary x op y) =
      (cValue prog aliases x).bind fun p => (cValue prog aliases y).bind fun q =>
        binaryValue op.string p q := by
    unfold cValue
    rw [treeD_of_ok hbt, treeD_of_ok hl, treeD_of_ok hr, erase, evalC, if_neg hlogic.1,
      if_neg hlogic.2]
  -- what the operands need is theirs to settle; the node adds its own condition
  have hrest : (∀ d ∈ operands x ++ operands y, KeepsValue prog aliases d) ↔
      ∀ d ∈ operands x ++ operands y, FitsType prog aliases d := by
    rw [List.forall_mem_append, List.forall_mem_append, hx.kept, hy.kept]
  refine settled_node rfl hrest fun hall => ?_
  obtain ⟨hallx, hally⟩ := List.forall_mem_append.mp hall
  obtain ⟨a, s, ha, hs, hholdsx, -⟩ := hallx x (self_mem_operands x)
  obtain ⟨b, s', hb, hs', hholdsy, -⟩ := hally y (self_mem_operands y)
  have hc : cValue prog aliases (.binary x op y) =
      binaryValue op.string (.int s, a) (.int s', b) := by
    rw [hvalue, hx.value hallx a s ha hs, hy.value hally b s' hb hs']
    rfl
  have htype : constType prog aliases (.binary x op y) = some (resultType op s s') := by
    rw [constType, hs, hs']
    rfl
  have hua : u.val = a := by
    unfold intValue at ha
    rw [hu] at ha
    exact exactInt_eq_some.mp ha
  have hvb : v.val = b := by
    unfold intValue at hb
    rw [hv] at hb
    exact exactInt_eq_some.mp hb
  have hint : intValue prog aliases (.binary x op y) = exactInt w.val := by
    unfold intValue
    rw [hw]
    rfl
  cases hn : exactInt w.val with
  | none => exact node_of_none (.inl (hint.trans hn))
  | some n =>
      refine node_of_value (hint.trans hn) htype ?_ ?_
      · rw [hc, binaryValue_iff (constType_mem hs) (constType_mem hs') hholdsx hholdsy hua hvb hexact
          (exactInt_eq_some.mp hn)]
        have hdef : Defined prog aliases (resultType op s s') n (.binary x op y) ↔
            DefinedAt op (resultType op s s') a b n := by
          rw [Defined, ha, hb]
          simp
        rw [hdef]
      · intro q hq
        rw [hc] at hq
        exact binaryValue_type (constType_mem hs) (constType_mem hs') hexact hq

/-- **Every operand of a constant expression has its exact value in C if every operand fits
its type.** -/
theorem settled_const : ∀ {e : Expr} {t : CTree}, (exactVal prog aliases e).isSome = true →
    exprTree prog aliases e = .ok t → Settled prog aliases e
  | .basicLit pos kind v, t, hv, _ => by
      cases kind with
      | int => exact settled_literal hv
      | _ => cases hv
  | .ident id, t, hv, _ => settled_ident hv
  | .paren pos x, t, hv, ht => by
      obtain ⟨inner, hinner, -⟩ := bind_ok ht
      exact settled_paren hinner (settled_const (e := x) hv hinner)
  | .unary pos op x, t, hv, ht => by
      obtain ⟨inner, hinner, -⟩ := bind_ok ht
      cases op with
      | sub =>
          rw [exactVal, Option.isSome_map] at hv
          exact settled_minus hinner (settled_const hv hinner)
      | _ => cases hv
  | .binary x op y, t, hv, ht => by
      obtain ⟨l, hl, ht⟩ := bind_ok ht
      obtain ⟨r, hr, -⟩ := bind_ok ht
      obtain ⟨w, hw⟩ := Option.isSome_iff_exists.mp hv
      obtain ⟨u, hu, hw'⟩ := Option.bind_eq_some_iff.mp hw
      obtain ⟨v, hv', -⟩ := Option.bind_eq_some_iff.mp hw'
      have hx := settled_const (Option.isSome_of_eq_some hu) hl
      have hy := settled_const (Option.isSome_of_eq_some hv') hr
      exact settled_binary hv hl hr hx hy
  | .selector _ _, t, hv, _ | .call _ _, t, hv, _ | .index _ _, t, hv, _ | .star _ _, t, hv, _
  | .other _ _ _, t, hv, _ => by cases hv

/-- The text, read as C, is the Go expression with every operand at its exact value, also
after a conversion to a type that holds it. -/
def KeepsConstant (prog : Program) (aliases : Aliases) (e : Expr) (s : Text) : Prop :=
  readBack s = some (erase (treeD prog aliases e)) ∧
    (∀ d ∈ operands e, KeepsValue prog aliases d) ∧
    ∀ n ∈ intValue prog aliases e, ∀ t : IntTy, t.Holds n →
      (cValue prog aliases e).map (fun r => convert (.int t) r.2) = some n

/-- **A constant expression keeps its value if and only if its text is legible and every
operand is an integer that its C type holds.** -/
theorem constExpr_kept_iff {e : Expr} {s : Text} (hconst : (exactVal prog aliases e).isSome = true)
    (h : formatExpr prog aliases e = .ok s) :
    KeepsConstant prog aliases e s ↔
      Legible (treeD prog aliases e) ∧ ∀ d ∈ operands e, FitsType prog aliases d := by
  obtain ⟨t, ht, rfl⟩ := exprTree_of_formatExpr h
  have hsettled := settled_const hconst ht
  unfold KeepsConstant
  rw [treeD_of_ok ht, readBack_eq_iff, hsettled.kept]
  constructor
  · rintro ⟨hlegible, hfits, -⟩
    exact ⟨hlegible, hfits⟩
  · rintro ⟨hlegible, hfits⟩
    refine ⟨hlegible, hfits, fun n hn t hholds => ?_⟩
    obtain ⟨m, s, hm, hs, -⟩ := hfits e (self_mem_operands e)
    rw [hm] at hn
    cases hn
    rw [hsettled.value hfits n s hm hs]
    show some (t.wrap n) = some n
    rw [IntTy.wrap_of_holds hholds]

end

/-- A decimal literal at a position. -/
def lit (v : Text) (pos : Pos) : Expr := .basicLit pos .int v

/-- Every identifier is the untyped constant `3/2`. -/
def halfInfo : Info where
  uses := fun id => some ⟨⟨id.name, 1⟩, .const (.rat 3 2), .basic .untypedFloat⟩
  defs := []
  typeOf := fun _ => some (.basic .untypedFloat)
  underlying := fun _ _ => .other

/-- `1 << 40` is a shift of an `int` beyond its width, and `h * 2` with `h = 3/2` is cut to
`1 * 2`. -/
theorem constants_cut :
    (formatExpr (emptyProgram halfInfo) [] (.binary (lit "1" 10) .shl (lit "40" 15)) =
        .ok "1 << 40" ∧
      intValue (emptyProgram halfInfo) [] (.binary (lit "1" 10) .shl (lit "40" 15)) =
        some (2 ^ 40) ∧
      ¬ KeepsConstant (emptyProgram halfInfo) [] (.binary (lit "1" 10) .shl (lit "40" 15))
        "1 << 40") ∧
    (formatExpr (emptyProgram halfInfo) [] (.binary (var 'h' 10) .mul (lit "2" 14)) =
        .ok "3/2 * 2" ∧
      intValue (emptyProgram halfInfo) [] (.binary (var 'h' 10) .mul (lit "2" 14)) = some 3 ∧
      ¬ KeepsConstant (emptyProgram halfInfo) [] (.binary (var 'h' 10) .mul (lit "2" 14))
        "3/2 * 2") := by
  refine ⟨⟨rfl, by decide +kernel, ?_⟩, ⟨rfl, by decide +kernel, ?_⟩⟩
  · rintro ⟨-, hkeeps, -⟩
    obtain ⟨ty, n, hvalue, -⟩ := hkeeps _ (self_mem_operands _)
    have hnone : cValue (emptyProgram halfInfo) [] (.binary (lit "1" 10) .shl (lit "40" 15)) =
        none := by decide +kernel
    rw [hnone] at hvalue
    cases hvalue
  · rintro ⟨-, hkeeps, -⟩
    obtain ⟨ty, n, hvalue, hint⟩ := hkeeps _ (self_mem_operands _)
    have hthree : intValue (emptyProgram halfInfo) [] (.binary (var 'h' 10) .mul (lit "2" 14)) =
        some 3 := by decide +kernel
    have htwo : (cValue (emptyProgram halfInfo) [] (.binary (var 'h' 10) .mul (lit "2" 14))).map
        Prod.snd = some 2 := by decide +kernel
    rw [hvalue] at htwo
    rw [hthree] at hint
    cases hint
    cases htwo

/-- `3 - 5 << 2`, in Go `3 - (5 << 2)`, keeps its value when the shift stands in
parentheses. -/
theorem shiftDifference_kept :
    KeepsConstant (emptyProgram halfInfo) []
      (.binary (lit "3" 10) .sub (.paren 14 (.binary (lit "5" 15) .shl (lit "2" 20))))
      "3 - (5 << 2)" := by
  refine (constExpr_kept_iff (by decide +kernel) rfl).mpr ⟨?_, ?_⟩
  · rw [← readBack_eq_iff]
    rfl
  · have hfive : intValue (emptyProgram halfInfo) [] (lit "5" 15) = some 5 := by decide +kernel
    have htwo : intValue (emptyProgram halfInfo) [] (lit "2" 20) = some 2 := by decide +kernel
    have hshift : ∀ a ∈ intValue (emptyProgram halfInfo) [] (lit "5" 15),
        ∀ b ∈ intValue (emptyProgram halfInfo) [] (lit "2" 20),
          DefinedAt .shl int32 a b 20 := by
      intro a ha b hb
      rw [hfive] at ha
      rw [htwo] at hb
      cases ha
      cases hb
      exact ⟨by decide, by decide⟩
    refine List.forall_mem_cons.mpr ⟨?_, List.forall_mem_cons.mpr ⟨?_, List.forall_mem_cons.mpr ⟨?_,
      List.forall_mem_cons.mpr ⟨?_, List.forall_mem_cons.mpr ⟨?_, List.forall_mem_singleton.mpr ?_⟩⟩⟩⟩⟩
    · exact ⟨-17, int32, by decide +kernel, by decide +kernel, by decide, fun _ _ _ _ => trivial⟩
    · exact ⟨3, int32, by decide +kernel, by decide +kernel, by decide, trivial⟩
    · exact ⟨20, int32, by decide +kernel, by decide +kernel, by decide, trivial⟩
    · exact ⟨20, int32, by decide +kernel, by decide +kernel, by decide, hshift⟩
    · exact ⟨5, int32, hfive, by decide +kernel, by decide, trivial⟩
    · exact ⟨2, int32, htwo, by decide +kernel, by decide, trivial⟩

end Gobee
