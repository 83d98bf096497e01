/-
# Fixed-width arithmetic

Integer expressions of Go and what the emitted C expression computes.  Go wraps every
result to the type of its operands; C promotes 8- and 16-bit operands to `int`, leaves
signed overflow and large shift counts undefined, and the emitter prints the operators as
they are.

* `arithTy` : the type-checked, fully parenthesised expressions over scalar variables;
* `goEval` : their values in Go;
* `unwrapped` : the result of an expression if the operations of a type that is promoted to
  a signed one do not wrap;
* `Within` : every such result is one of the promoted type, and one of its own type wherever
  it is compared, divided, shifted right, widened or left as the result.
-/
import Gobee.GoSyntax
import Gobee.CEval

namespace Gobee

open CSyntax MachineInt

/-! ## Types and operators -/

/-- The integer type of a width. -/
def intTy (signed : Bool) (bits : Nat) (pos : 0 < bits) : Scalar := .int ⟨signed, bits, pos⟩

/-- The scalar types of Go. -/
def numTy : Basic → Option Scalar
  | .bool => some .bool
  | .int8 => some (intTy true 8 width8_pos)
  | .int16 => some (intTy true 16 width16_pos)
  | .int32 | .rune => some (intTy true 32 width32_pos)
  | .int64 => some (intTy true 64 width64_pos)
  | .uint8 | .byte => some (intTy false 8 width8_pos)
  | .uint16 => some (intTy false 16 width16_pos)
  | .uint32 => some (intTy false 32 width32_pos)
  | .uint64 => some (intTy false 64 width64_pos)
  | _ => none

/-- The C types with these names. -/
def cScalars : List (Text × Scalar) :=
  [("bool", .bool), ("__s8", intTy true 8 width8_pos), ("__s16", intTy true 16 width16_pos),
    ("__s32", intTy true 32 width32_pos), ("__s64", intTy true 64 width64_pos),
    ("__u8", intTy false 8 width8_pos), ("__u16", intTy false 16 width16_pos),
    ("__u32", intTy false 32 width32_pos), ("__u64", intTy false 64 width64_pos)]

/-- The C type with a name. -/
def cScalar (w : Text) : Option Scalar := cScalars.lookup w

/-- What an operator does to its operands. -/
inductive OpClass where
  | ring (o : RingOp)
  | quo | rem | shl | shr
  | rel (o : RelOp)
  | land | lor

/-- The operators of integer expressions. -/
def classOf : BinaryOp → Option OpClass
  | .add => some (.ring .add)
  | .sub => some (.ring .sub)
  | .mul => some (.ring .mul)
  | .and => some (.ring .and)
  | .or => some (.ring .or)
  | .xor => some (.ring .xor)
  | .quo => some .quo
  | .rem => some .rem
  | .shl => some .shl
  | .shr => some .shr
  | .eql => some (.rel .eq)
  | .neq => some (.rel .ne)
  | .lss => some (.rel .lt)
  | .leq => some (.rel .le)
  | .gtr => some (.rel .gt)
  | .geq => some (.rel .ge)
  | .land => some .land
  | .lor => some .lor
  | .andNot => none

/-- The unary operators of integer expressions. -/
def signOf : UnaryOp → Option SignOp
  | .sub => some .neg
  | .xor => some .not
  | _ => none

/-- The type of a binary expression, by the types of its operands. -/
def binaryTy : OpClass → Scalar → Scalar → Option Scalar
  | .ring _, .int t, .int u | .quo, .int t, .int u | .rem, .int t, .int u =>
      if t = u then some (.int t) else none
  | .shl, .int t, .int _ | .shr, .int t, .int _ => some (.int t)
  | .rel _, .int t, .int u => if t = u then some .bool else none
  | .rel o, .bool, .bool => if o = .eq ∨ o = .ne then some .bool else none
  | .land, .bool, .bool | .lor, .bool, .bool => some .bool
  | _, _, _ => none

/-- The type of a conversion: between integer types, or of a truth value. -/
def convertTy : Scalar → Scalar → Option Scalar
  | .int t, .int _ => some (.int t)
  | .bool, .bool => some .bool
  | _, _ => none

/-- The type a conversion names. -/
def conversionScalar (prog : Program) (fn : Ident) : Option Scalar :=
  match prog.info.uses fn with
  | some ⟨_, .typeName, .basic kind⟩ => numTy kind
  | _ => none

/-- The variable an identifier stands for: its declaration and its type. -/
def scalarVar (prog : Program) (id : Ident) : Option (Ident × Scalar) :=
  match prog.info.uses id with
  | some ⟨decl, .var, .basic kind⟩ => (numTy kind).map fun s => (decl, s)
  | _ => none

/-- A fully parenthesised operand. -/
def isAtomic : Expr → Bool
  | .ident _ | .paren _ _ | .call _ _ => true
  | _ => false

/-- **Type-checked, fully parenthesised integer expressions over variables**: their type. -/
def arithTy (prog : Program) : Expr → Option Scalar
  | .ident id => (scalarVar prog id).map Prod.snd
  | .paren _ x => arithTy prog x
  | .unary _ op x =>
      match signOf op, arithTy prog x with
      | some _, some (.int t) => if isAtomic x then some (.int t) else none
      | _, _ => none
  | .binary x op y =>
      match classOf op, arithTy prog x, arithTy prog y with
      | some c, some s, some s' => if isAtomic x && isAtomic y then binaryTy c s s' else none
      | _, _, _ => none
  | .call (.ident fn) [x] =>
      match conversionScalar prog fn, arithTy prog x with
      | some s, some s' => convertTy s s'
      | _, _ => none
  | _ => none

/-! ## Derivations of types -/

/-- The typing derivation of an integer expression. -/
inductive Arith (prog : Program) : Expr → Scalar → Prop where
  | ident {id : Ident} {p : Ident × Scalar} (var : scalarVar prog id = some p) :
      Arith prog (.ident id) p.2
  | paren {pos : Pos} {x : Expr} {s : Scalar} (operand : Arith prog x s) :
      Arith prog (.paren pos x) s
  | unary {pos : Pos} {op : UnaryOp} {o : SignOp} {x : Expr} {t : IntTy}
      (sign : signOf op = some o) (atomic : isAtomic x = true) (operand : Arith prog x (.int t)) :
      Arith prog (.unary pos op x) (.int t)
  | binary {x y : Expr} {op : BinaryOp} {c : OpClass} {s₁ s₂ s : Scalar}
      (cls : classOf op = some c) (atomic : isAtomic x = true ∧ isAtomic y = true)
      (type : binaryTy c s₁ s₂ = some s) (left : Arith prog x s₁) (right : Arith prog y s₂) :
      Arith prog (.binary x op y) s
  | call {fn : Ident} {x : Expr} {s₁ s₂ s : Scalar} (target : conversionScalar prog fn = some s₁)
      (type : convertTy s₁ s₂ = some s) (operand : Arith prog x s₂) :
      Arith prog (.call (.ident fn) [x]) s

theorem arith_of_arithTy {prog : Program} (e : Expr) {s : Scalar}
    (h : arithTy prog e = some s) : Arith prog e s := by
  fun_induction arithTy prog e generalizing s with
  | case1 id =>
      obtain ⟨p, hp, rfl⟩ := Option.map_eq_some_iff.mp h
      exact .ident hp
  | case2 _ x ih => exact .paren (ih h)
  | case3 _ op x o t ht ho ha ih =>
      obtain rfl := Option.some.inj h
      exact .unary ho ha (ih ht)
  | case6 x op y c s₁ s₂ h₂ h₁ hc ha ihx ihy =>
      rw [Bool.and_eq_true] at ha
      exact .binary hc ha h (ihx h₁) (ihy h₂)
  | case9 fn x s₁ s₂ hs₂ hs₁ ih => exact .call hs₁ h (ih hs₂)
  | _ => cases h

theorem Arith.arithTy {prog : Program} {e : Expr} {s : Scalar} (h : Arith prog e s) :
    arithTy prog e = some s := by
  induction h with
  | ident var => rw [Gobee.arithTy, var]; rfl
  | paren _ ih => rw [Gobee.arithTy, ih]
  | unary sign atomic _ ih => simp only [Gobee.arithTy, sign, ih, atomic, if_true]
  | binary cls atomic type _ _ ihx ihy =>
      simp only [Gobee.arithTy, cls, ihx, ihy, atomic, Bool.and_self, if_true, type]
  | call target type _ ih => simp only [Gobee.arithTy, target, ih, type]

theorem bits_numTy {kind : Basic} {t : IntTy} (h : numTy kind = some (.int t)) :
    t.bits ≤ 64 := by
  cases kind <;> cases h <;> decide

theorem Arith.bits_le {prog : Program} {e : Expr} {s : Scalar} (h : Arith prog e s) :
    ∀ t, s = .int t → t.bits ≤ 64 := by
  induction h with
  | @ident id p var =>
      intro t ht
      unfold scalarVar at var
      split at var
      · obtain ⟨s, hs, rfl⟩ := Option.map_eq_some_iff.mp var
        exact bits_numTy (hs.trans (congrArg some ht))
      · cases var
  | paren _ ih => exact ih
  | unary _ _ _ ih => exact ih
  | @binary _ _ _ c s₁ s₂ s _ _ type _ _ ihx _ =>
      intro t ht
      subst ht
      unfold binaryTy at type
      split at type <;> (try split_ifs at type) <;> cases type <;> exact ihx _ rfl
  | @call fn _ s₁ s₂ s target type _ _ =>
      intro t ht
      subst ht
      unfold convertTy at type
      split at type <;> cases type
      unfold conversionScalar at target
      split at target
      · exact bits_numTy target
      · cases target

/-! ## Go's evaluation -/

/-- A binary operator of Go on evaluated operands; `none` is a panic. -/
@[grind =]
def goBinary : OpClass → Typed → Typed → Option Typed
  | .ring o, (.int t, a), (_, b) => some (.int t, t.wrap (o.apply a b))
  | .quo, (.int t, a), (_, b) => if b = 0 then none else some (.int t, t.wrap (a.tdiv b))
  | .rem, (.int t, a), (_, b) => if b = 0 then none else some (.int t, a.tmod b)
  | .shl, (.int t, a), (_, k) =>
      if k < 0 then none else some (.int t, t.wrap (a * 2 ^ k.toNat))
  | .shr, (.int t, a), (_, k) => if k < 0 then none else some (.int t, a / 2 ^ k.toNat)
  | .rel o, (_, a), (_, b) => some (.bool, ofBool (o.apply a b))
  | _, _, _ => none

/-- A unary operator of Go. -/
def goUnary (o : SignOp) : Typed → Option Typed
  | (.int t, a) => some (.int t, t.wrap (o.apply a))
  | _ => none

/-- A conversion of Go. -/
def goConvert : Scalar → Int → Int
  | .bool, n => n
  | .int t, n => t.wrap n

/-- Go's value of an integer expression; `env` gives the values of the variables. -/
def goEval (prog : Program) (env : Ident → Int) : Expr → Option Typed
  | .ident id => (scalarVar prog id).map fun p => (p.2, env p.1)
  | .paren _ x => goEval prog env x
  | .unary _ op x => (signOf op).bind fun o => (goEval prog env x).bind (goUnary o)
  | .binary x op y =>
      match classOf op with
      | some .land =>
          (goEval prog env x).bind fun v =>
            if v.2 = 0 then some (.bool, 0) else goEval prog env y
      | some .lor =>
          (goEval prog env x).bind fun v =>
            if v.2 = 0 then goEval prog env y else some (.bool, 1)
      | some c =>
          (goEval prog env x).bind fun v => (goEval prog env y).bind fun w => goBinary c v w
      | none => none
  | .call (.ident fn) [x] =>
      (conversionScalar prog fn).bind fun s =>
        (goEval prog env x).map fun v => (s, goConvert s v.2)
  | _ => none

/-- Go's value, 0 where there is none. -/
def goValue (prog : Program) (env : Ident → Int) (e : Expr) : Int :=
  ((goEval prog env e).map Prod.snd).getD 0

/-! ## Results that are not wrapped -/

/-- A result of an operation in a type that is promoted to a signed one does not wrap. -/
def settle (t : IntTy) (n : Int) : Int :=
  if (promote (.int t)).signed then n else t.wrap n

/-- The value of an expression whose operations wrap only in types that are promoted to an
unsigned one. -/
@[grind =]
def unwrapped (prog : Program) (env : Ident → Int) : Expr → Int
  | .paren _ x => unwrapped prog env x
  | .unary pos op x =>
      match signOf op, arithTy prog x with
      | some o, some (.int t) => settle t (o.apply (unwrapped prog env x))
      | _, _ => goValue prog env (.unary pos op x)
  | .binary x op y =>
      match classOf op, arithTy prog x with
      | some (.ring o), some (.int t) =>
          settle t (o.apply (unwrapped prog env x) (unwrapped prog env y))
      | some .quo, some (.int t) => settle t ((goValue prog env x).tdiv (goValue prog env y))
      | some .shl, some (.int t) =>
          settle t (unwrapped prog env x * 2 ^ (goValue prog env y).toNat)
      | _, _ => goValue prog env (.binary x op y)
  | e => goValue prog env e

/-- A result does not overflow the promoted type if that is signed, and then, if it is used
as it is, not its own type either. -/
def fitsIn (t : IntTy) (used : Bool) (n : Int) : Prop :=
  (promote (.int t)).signed = true →
    (promote (.int t)).Holds n ∧ (used = true → t.Holds n)

/-- A shift count is one C defines. -/
def countFits (t : IntTy) (k : Int) : Prop := k < (promote (.int t)).bits

/-- No result leaves its type where that matters; `used` is whether the result is used as it
is, and not only modulo the width of its type. -/
@[grind =]
def Within (prog : Program) (env : Ident → Int) : Bool → Expr → Prop
  | _, .ident _ => True
  | used, .paren _ x => Within prog env used x
  | used, .unary _ op x =>
      match signOf op, arithTy prog x with
      | some o, some (.int t) =>
          Within prog env false x ∧ fitsIn t used (o.apply (unwrapped prog env x))
      | _, _ => False
  | used, .binary x op y =>
      match classOf op, arithTy prog x with
      | some (.ring o), some (.int t) =>
          Within prog env false x ∧ Within prog env false y ∧
            fitsIn t used (o.apply (unwrapped prog env x) (unwrapped prog env y))
      | some .quo, some (.int t) =>
          Within prog env true x ∧ Within prog env true y ∧
            fitsIn t used ((goValue prog env x).tdiv (goValue prog env y))
      | some .rem, some (.int t) =>
          Within prog env true x ∧ Within prog env true y ∧
            fitsIn t false ((goValue prog env x).tdiv (goValue prog env y))
      | some .shl, some (.int t) =>
          Within prog env false x ∧ Within prog env true y ∧
            countFits t (goValue prog env y) ∧
            ((promote (.int t)).signed = true → 0 ≤ unwrapped prog env x) ∧
            fitsIn t used (unwrapped prog env x * 2 ^ (goValue prog env y).toNat)
      | some .shr, some (.int t) =>
          Within prog env true x ∧ Within prog env true y ∧
            countFits t (goValue prog env y)
      | some (.rel _), some _ => Within prog env true x ∧ Within prog env true y
      | some .land, some _ =>
          Within prog env true x ∧ (goValue prog env x ≠ 0 → Within prog env true y)
      | some .lor, some _ =>
          Within prog env true x ∧ (goValue prog env x = 0 → Within prog env true y)
      | _, _ => False
  | _, .call (.ident fn) [x] =>
      match conversionScalar prog fn, arithTy prog x with
      | some (.int t), some (.int u) => Within prog env (decide (u.bits < t.bits)) x
      | _, _ => Within prog env true x
  | _, _ => False

end Gobee
