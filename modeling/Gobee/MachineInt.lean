/-
# Machine integers

Integer types of a fixed width, and the integers they hold.  A value is an integer of
its type, so that the same value can be looked at in two types: `wrap` reduces an integer
to a type, and two integers that agree modulo `2 ^ bits` are wrapped to the same value.

The arithmetic and bitwise operators are functions on integers that respect congruence
modulo every power of two up to `2 ^ 64` (`RingOp.modEq`, `SignOp.modEq`): how a language
rounds or rejects their results is its own matter.
-/
import Mathlib.Tactic
import Mathlib.Data.Int.ModEq

namespace MachineInt

/-! ## Types -/

/-- An integer type. -/
structure IntTy where
  signed : Bool
  bits : Nat
  pos : 0 < bits
  deriving DecidableEq

theorem width8_pos : 0 < 8 := by decide

theorem width16_pos : 0 < 16 := by decide

theorem width32_pos : 0 < 32 := by decide

theorem width64_pos : 0 < 64 := by decide

namespace IntTy

/-- The least value. -/
def min (t : IntTy) : Int := if t.signed then -2 ^ (t.bits - 1) else 0

/-- The number after the greatest value. -/
def bound (t : IntTy) : Int := if t.signed then 2 ^ (t.bits - 1) else 2 ^ t.bits

/-- The type holds the number. -/
def Holds (t : IntTy) (n : Int) : Prop := t.min ≤ n ∧ n < t.bound

instance (t : IntTy) (n : Int) : Decidable (t.Holds n) := inferInstanceAs (Decidable (_ ∧ _))

/-- The value of the type that agrees with `n` modulo `2 ^ bits`. -/
def wrap (t : IntTy) (n : Int) : Int := (n - t.min) % 2 ^ t.bits + t.min

/-- A type has `2 ^ bits` values. -/
theorem bound_eq (t : IntTy) : t.bound = t.min + 2 ^ t.bits := by
  have hpos := t.pos
  unfold bound min
  split
  · obtain ⟨k, hk⟩ : ∃ k, t.bits = k + 1 := ⟨t.bits - 1, by omega⟩
    rw [hk, Nat.add_sub_cancel, pow_succ]
    ring
  · ring

theorem wrap_modEq (t : IntTy) (n : Int) : t.wrap n ≡ n [ZMOD 2 ^ t.bits] := by
  have h : (n - t.min) % 2 ^ t.bits + t.min ≡ n - t.min + t.min [ZMOD 2 ^ t.bits] :=
    (Int.mod_modEq _ _).add_right _
  rwa [sub_add_cancel] at h

theorem wrap_holds (t : IntTy) (n : Int) : t.Holds (t.wrap n) := by
  have hpos : (0 : Int) < 2 ^ t.bits := by positivity
  have hle := Int.emod_nonneg (n - t.min) hpos.ne'
  have hlt := Int.emod_lt_of_pos (n - t.min) hpos
  unfold Holds wrap
  rw [bound_eq]
  omega

/-- **A type tells apart the numbers it holds by their residues.** -/
theorem eq_of_modEq {t : IntTy} {a b : Int} (ha : t.Holds a) (hb : t.Holds b)
    (h : a ≡ b [ZMOD 2 ^ t.bits]) : a = b := by
  obtain ⟨k, hk⟩ := h.dvd
  have hbound := t.bound_eq
  obtain ⟨hal, hau⟩ := ha
  obtain ⟨hbl, hbu⟩ := hb
  have hpos : (0 : Int) < 2 ^ t.bits := by positivity
  have hk0 : k = 0 := by
    by_contra hne
    rcases lt_or_gt_of_ne hne with hneg | hgt
    · nlinarith
    · nlinarith
  rw [hk0, mul_zero] at hk
  omega

theorem wrap_eq_of_modEq {t : IntTy} {a b : Int} (h : a ≡ b [ZMOD 2 ^ t.bits]) :
    t.wrap a = t.wrap b :=
  eq_of_modEq (t.wrap_holds a) (t.wrap_holds b)
    ((t.wrap_modEq a).trans (h.trans (t.wrap_modEq b).symm))

theorem wrap_of_holds {t : IntTy} {n : Int} (h : t.Holds n) : t.wrap n = n :=
  eq_of_modEq (t.wrap_holds n) h (t.wrap_modEq n)

/-- A residue of a wider type determines the residue of a narrower one. -/
theorem modEq_of_le {a b : Int} {k m : Nat} (hk : k ≤ m) (h : a ≡ b [ZMOD 2 ^ m]) :
    a ≡ b [ZMOD 2 ^ k] :=
  h.of_dvd (pow_dvd_pow 2 hk)

/-- A type holds what lies between 0 and a number it holds. -/
theorem holds_between {t : IntTy} {a n : Int} (h : t.Holds a)
    (hn : (0 ≤ n ∧ n ≤ a) ∨ (a ≤ n ∧ n ≤ 0)) : t.Holds n := by
  obtain ⟨hlo, hhi⟩ := h
  have hpow : (0 : Int) < 2 ^ (t.bits - 1) := by positivity
  have hpow' : (0 : Int) < 2 ^ t.bits := by positivity
  have hmin : t.min ≤ 0 := by
    unfold min
    split <;> omega
  have hbound : 0 < t.bound := by
    unfold bound
    split <;> omega
  unfold Holds
  omega

theorem holds_ediv {t : IntTy} {a b : Int} (h : t.Holds a) (hb : 0 < b) : t.Holds (a / b) := by
  refine holds_between h ?_
  rcases le_or_gt 0 a with ha | ha
  · exact Or.inl ⟨Int.ediv_nonneg ha hb.le, Int.ediv_le_self b ha⟩
  · refine Or.inr ⟨?_, ?_⟩
    · rw [Int.le_ediv_iff_mul_le hb]
      nlinarith
    · exact (Int.ediv_neg_of_neg_of_pos ha hb).le

theorem holds_tmod {t : IntTy} {a : Int} (h : t.Holds a) (b : Int) : t.Holds (a.tmod b) := by
  refine holds_between h ?_
  have habs : (a.tmod b).natAbs ≤ a.natAbs := by
    rw [Int.natAbs_tmod]
    exact Nat.mod_le _ _
  rcases le_or_gt 0 a with ha | ha
  · have hnonneg := Int.tmod_nonneg b ha
    omega
  · have hneg := Int.tmod_nonneg (a := -a) b (by omega)
    rw [Int.neg_tmod] at hneg
    omega

end IntTy

/-! ## Scalars -/

/-- The scalar types: truth values are the numbers 0 and 1. -/
inductive Scalar where
  | bool
  | int (t : IntTy)
  deriving DecidableEq

/-- The values of a scalar type. -/
def Scalar.Holds : Scalar → Int → Prop
  | .bool, n => n = 0 ∨ n = 1
  | .int t, n => t.Holds n

instance (s : Scalar) (n : Int) : Decidable (s.Holds n) :=
  match s with
  | .bool => inferInstanceAs (Decidable (_ ∨ _))
  | .int t => inferInstanceAs (Decidable (t.Holds n))

/-- A truth value. -/
def ofBool (b : Bool) : Int := if b then 1 else 0

theorem ofBool_holds (b : Bool) : Scalar.bool.Holds (ofBool b) := by
  cases b
  · exact Or.inl rfl
  · exact Or.inr rfl

/-! ## Operators -/

/-- The operators that respect congruence. -/
inductive RingOp where
  | add | sub | mul | and | or | xor
  deriving DecidableEq

/-- The bits of an integer below 64. -/
def word (n : Int) : BitVec 64 := BitVec.ofInt 64 n

/-- The result of an operator, before it is reduced to a type. -/
def RingOp.apply : RingOp → Int → Int → Int
  | .add, a, b => a + b
  | .sub, a, b => a - b
  | .mul, a, b => a * b
  | .and, a, b => (word a &&& word b).toInt
  | .or, a, b => (word a ||| word b).toInt
  | .xor, a, b => (word a ^^^ word b).toInt

/-- The unary operators that respect congruence: minus and complement. -/
inductive SignOp where
  | neg | not
  deriving DecidableEq

/-- The result of a unary operator. -/
def SignOp.apply : SignOp → Int → Int
  | .neg, a => -a
  | .not, a => -a - 1

/-- Comparisons. -/
inductive RelOp where
  | eq | ne | lt | le | gt | ge
  deriving DecidableEq

/-- The truth value of a comparison. -/
def RelOp.apply : RelOp → Int → Int → Bool
  | .eq, a, b => a = b
  | .ne, a, b => a ≠ b
  | .lt, a, b => a < b
  | .le, a, b => a ≤ b
  | .gt, a, b => a > b
  | .ge, a, b => a ≥ b

/-- The bits of a number below `k` are its residue modulo `2 ^ k`. -/
theorem modEq_iff_ofInt {k : Nat} {a b : Int} :
    a ≡ b [ZMOD 2 ^ k] ↔ BitVec.ofInt k a = BitVec.ofInt k b := by
  rw [← BitVec.toNat_inj, BitVec.toNat_ofInt, BitVec.toNat_ofInt]
  have hpos : (0 : Int) < (2 ^ k : Nat) := by positivity
  have ha := Int.emod_nonneg a hpos.ne'
  have hb := Int.emod_nonneg b hpos.ne'
  unfold Int.ModEq
  push_cast at ha hb ⊢
  omega

theorem ofInt_toInt_word {k : Nat} (hk : k ≤ 64) (x : BitVec 64) :
    BitVec.ofInt k x.toInt = x.setWidth k :=
  BitVec.signExtend_eq_setWidth_of_le x hk

theorem setWidth_word {k : Nat} (hk : k ≤ 64) (a : Int) :
    (word a).setWidth k = BitVec.ofInt k a := by
  rw [← ofInt_toInt_word hk, ← modEq_iff_ofInt]
  refine IntTy.modEq_of_le hk ?_
  rw [modEq_iff_ofInt, BitVec.ofInt_toInt]
  rfl

/-- A bitwise operator that is computed bit by bit respects congruence. -/
theorem bitwise_modEq {f : BitVec 64 → BitVec 64 → BitVec 64} {k : Nat} (hk : k ≤ 64)
    {g : BitVec k → BitVec k → BitVec k}
    (hf : ∀ x y, (f x y).setWidth k = g (x.setWidth k) (y.setWidth k)) {a a' b b' : Int}
    (ha : a ≡ a' [ZMOD 2 ^ k]) (hb : b ≡ b' [ZMOD 2 ^ k]) :
    (f (word a) (word b)).toInt ≡ (f (word a') (word b')).toInt [ZMOD 2 ^ k] := by
  rw [modEq_iff_ofInt] at ha hb ⊢
  rw [ofInt_toInt_word hk, ofInt_toInt_word hk, hf, hf, setWidth_word hk, setWidth_word hk,
    setWidth_word hk, setWidth_word hk, ha, hb]

/-- **The operators respect congruence.** -/
theorem RingOp.modEq (op : RingOp) {k : Nat} (hk : k ≤ 64) {a a' b b' : Int}
    (ha : a ≡ a' [ZMOD 2 ^ k]) (hb : b ≡ b' [ZMOD 2 ^ k]) :
    op.apply a b ≡ op.apply a' b' [ZMOD 2 ^ k] := by
  cases op with
  | add => exact ha.add hb
  | sub => exact ha.sub hb
  | mul => exact ha.mul hb
  | and => exact bitwise_modEq hk (fun x y => BitVec.setWidth_and) ha hb
  | or => exact bitwise_modEq hk (fun x y => BitVec.setWidth_or) ha hb
  | xor => exact bitwise_modEq hk (fun x y => BitVec.setWidth_xor) ha hb

theorem SignOp.modEq (op : SignOp) {m a a' : Int} (ha : a ≡ a' [ZMOD m]) :
    op.apply a ≡ op.apply a' [ZMOD m] := by
  cases op with
  | neg => exact ha.neg
  | not => exact ha.neg.sub_right 1

end MachineInt
