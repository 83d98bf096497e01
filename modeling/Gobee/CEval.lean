/-
# Integer expressions of C

The value of a C expression over scalar variables on a 64-bit target with 32-bit `int`:
integer promotions, usual arithmetic conversions, and the operators on the converted
operands.  `none` is an undefined result: signed overflow, a division by zero or whose
quotient overflows, a shift by a negative count or by the width of the type or more, a left
shift of a negative number.  Conversions to a signed type wrap and right shifts keep the
sign, as clang defines them.
-/
import Gobee.CExpr
import Gobee.MachineInt

namespace CSyntax

open MachineInt

/-! ## Conversions -/

/-- The type `int`. -/
def int32 : IntTy := ⟨true, 32, width32_pos⟩

/-- The integer promotions. -/
def promote : Scalar → IntTy
  | .bool => int32
  | .int t => if t.bits < 32 then int32 else t

/-- The usual arithmetic conversions, of promoted types. -/
def usual (a b : IntTy) : IntTy :=
  if a.bits = b.bits then ⟨a.signed && b.signed, a.bits, a.pos⟩
  else if a.bits < b.bits then b
  else a

/-- Conversion to a type. -/
def convert : Scalar → Int → Int
  | .bool, n => ofBool (n ≠ 0)
  | .int t, n => t.wrap n

theorem usual_self (t : IntTy) : usual t t = t := by
  obtain ⟨signed, bits, pos⟩ := t
  simp [usual]

theorem bits_promote (s : Scalar) : 32 ≤ (promote s).bits := by
  cases s with
  | bool => exact le_refl _
  | int t =>
      simp only [promote]
      split
      · exact le_refl _
      · omega

/-- An unsigned promoted type is the type itself. -/
theorem promote_of_unsigned {t : IntTy} (h : (promote (.int t)).signed = false) :
    promote (.int t) = t := by
  simp only [promote] at h ⊢
  split at h
  · cases h
  · next hbits => rw [if_neg hbits]

theorem promote_promote (s : Scalar) : promote (.int (promote s)) = promote s := by
  have h := bits_promote s
  rw [promote, if_neg (by omega)]

/-- Promotion keeps the value. -/
theorem promote_holds {s : Scalar} {n : Int} (h : s.Holds n) : (promote s).Holds n := by
  cases s with
  | bool =>
      obtain rfl | rfl := h
      · decide
      · decide
  | int t =>
      simp only [promote]
      split
      · next hbits =>
          obtain ⟨hlo, hhi⟩ := h
          have hpow : (2 : Int) ^ t.bits ≤ 2 ^ 31 :=
            pow_le_pow_right₀ (by norm_num) (by omega)
          have hpow' : (2 : Int) ^ (t.bits - 1) ≤ 2 ^ 31 :=
            pow_le_pow_right₀ (by norm_num) (by omega)
          have hmin : int32.min = -2 ^ 31 := rfl
          have hbound : int32.bound = 2 ^ 31 := rfl
          unfold IntTy.Holds
          rw [hmin, hbound]
          unfold IntTy.min at hlo
          unfold IntTy.bound at hhi
          split at hlo
          · rw [if_pos (by assumption)] at hhi
            omega
          · rw [if_neg (by assumption)] at hhi
            omega
      · exact h

/-! ## Operators -/

/-- The arithmetic and bitwise operators. -/
def ringOps : List (Text × RingOp) :=
  [("+", .add), ("-", .sub), ("*", .mul), ("&", .and), ("|", .or), ("^", .xor)]

/-- Minus and complement. -/
def signOps : List (Text × SignOp) := [("-", .neg), ("~", .not)]

/-- The comparisons. -/
def relOps : List (Text × RelOp) :=
  [("==", .eq), ("!=", .ne), ("<", .lt), ("<=", .le), (">", .gt), (">=", .ge)]

/-- A value with its type. -/
abbrev Typed := Scalar × Int

/-- The result of an operation in a promoted type: unsigned arithmetic wraps, signed
overflow is undefined. -/
def arith (t : IntTy) (n : Int) : Option Typed :=
  if t.signed then if t.Holds n then some (.int t, n) else none
  else some (.int t, t.wrap n)

/-- Division in a promoted type. -/
def divide (t : IntTy) (a b : Int) : Option Typed :=
  if b = 0 then none else arith t (a.tdiv b)

/-- The remainder; it is undefined where the quotient is. -/
def remainder (t : IntTy) (a b : Int) : Option Typed :=
  (divide t a b).map fun _ => (.int t, a.tmod b)

/-- A left shift. -/
def shiftLeft (t : IntTy) (a k : Int) : Option Typed :=
  if k < 0 ∨ (t.bits : Int) ≤ k then none
  else if t.signed = true ∧ a < 0 then none
  else arith t (a * 2 ^ k.toNat)

/-- A right shift. -/
def shiftRight (t : IntTy) (a k : Int) : Option Typed :=
  if k < 0 ∨ (t.bits : Int) ≤ k then none else some (.int t, a / 2 ^ k.toNat)

/-- A truth value, of type `int`. -/
def truth (b : Bool) : Typed := (.int int32, ofBool b)

/-- The unary operators. -/
def unaryValue (op : Text) (x : Typed) : Option Typed :=
  match signOps.lookup op with
  | some o => arith (promote x.1) (o.apply x.2)
  | none => if op = ['!'] then some (truth (x.2 = 0)) else none

/-- The binary operators on operands of a common type. -/
def commonValue (op : Text) (t : IntTy) (a b : Int) : Option Typed :=
  if op = "/" then divide t a b
  else if op = "%" then remainder t a b
  else
    match ringOps.lookup op, relOps.lookup op with
    | some o, _ => arith t (o.apply a b)
    | none, some o => some (truth (o.apply a b))
    | none, none => none

/-- The common type of two operands. -/
def commonType (x y : Typed) : IntTy := usual (promote x.1) (promote y.1)

/-- The binary operators that evaluate both operands. -/
def binaryValue (op : Text) (x y : Typed) : Option Typed :=
  if op = "<<" then shiftLeft (promote x.1) x.2 y.2
  else if op = ">>" then shiftRight (promote x.1) x.2 y.2
  else commonValue op (commonType x y) ((commonType x y).wrap x.2) ((commonType x y).wrap y.2)

/-! ## Expressions -/

/-- The value of an expression; `types` are the type names and `env` the variables in
scope. -/
def evalC (types : Text → Option Scalar) (env : Text → Option Typed) :
    CExpr Unit → Option Typed
  | .leaf w _ => env w
  | .paren e => evalC types env e
  | .unary op e => (evalC types env e).bind (unaryValue op)
  | .binary _ op l r =>
      if op = "&&" then
        (evalC types env l).bind fun x =>
          if x.2 = 0 then some (truth false)
          else (evalC types env r).map fun y => truth (y.2 ≠ 0)
      else if op = "||" then
        (evalC types env l).bind fun x =>
          if x.2 ≠ 0 then some (truth true)
          else (evalC types env r).map fun y => truth (y.2 ≠ 0)
      else
        (evalC types env l).bind fun x => (evalC types env r).bind fun y => binaryValue op x y
  | .cast [ty] e =>
      (types ty).bind fun s => (evalC types env e).map fun x => (s, convert s x.2)
  | _ => none

/-! ## Operands of one promoted type -/

/-- A value in a promoted type, unchanged by the usual conversions. -/
theorem wrap_promoted {s : Scalar} {x : Typed} (hx : promote x.1 = promote s)
    (hv : x.1.Holds x.2) : (promote s).wrap x.2 = x.2 :=
  IntTy.wrap_of_holds (hx ▸ promote_holds hv)

/-- Operands of one promoted type are not converted. -/
theorem binaryValue_common {s : Scalar} {x y : Typed} (hx : promote x.1 = promote s)
    (hy : promote y.1 = promote s) (hvx : x.1.Holds x.2) (hvy : y.1.Holds y.2) {op : Text}
    (hl : op ≠ "<<".toList) (hr : op ≠ ">>".toList) :
    binaryValue op x y = commonValue op (promote s) x.2 y.2 := by
  have ht : commonType x y = promote s := by rw [commonType, hx, hy, usual_self]
  rw [binaryValue, if_neg hl, if_neg hr, ht, wrap_promoted hx hvx, wrap_promoted hy hvy]

/-- Where arithmetic is defined, the result is one of its type. -/
theorem arith_holds {t : IntTy} {n : Int} {x : Typed} (h : arith t n = some x) :
    x.1 = .int t ∧ t.Holds x.2 := by
  unfold arith at h
  split at h
  · split at h
    · next hn =>
        rw [← Option.some.inj h]
        exact ⟨rfl, hn⟩
    · cases h
  · rw [← Option.some.inj h]
    exact ⟨rfl, t.wrap_holds n⟩

end CSyntax
