/-
# Exact results of C operators

When an operator of C gives the integer that the operation has without any width.  The
operands are of types that decimal constants have; the operator converts them to a common
type and may wrap or be undefined there.

Each lemma is of one shape: the result is the exact one if and only if its type holds it
and the operator is defined.
-/
import Gobee.CConst
import Mathlib.Data.Int.Bitwise

namespace MachineInt

/-! ## Bits of unbounded integers -/

/-- The bits of an integer in a word. -/
theorem getLsbD_word (n : Int) (k : Nat) :
    (word n).getLsbD k = (decide (k < 64) && n.testBit k) := by
  unfold word
  cases n with
  | ofNat m =>
      rw [Int.ofNat_eq_natCast, BitVec.ofInt_natCast, BitVec.getLsbD_ofNat]
      rfl
  | negSucc m =>
      rw [BitVec.ofInt_negSucc_eq_not_ofNat, BitVec.getLsbD_not, BitVec.getLsbD_ofNat]
      by_cases hk : k < 64
      · simp [hk, Int.testBit]
      · simp [hk]

/-- An operator without any width. -/
def RingOp.exact : RingOp → Int → Int → Int
  | .add, a, b => a + b
  | .sub, a, b => a - b
  | .mul, a, b => a * b
  | .and, a, b => Int.land a b
  | .or, a, b => Int.lor a b
  | .xor, a, b => Int.xor a b

/-- The exact result and that of the words agree in a word. -/
theorem RingOp.exact_modEq (o : RingOp) (a b : Int) : o.exact a b ≡ o.apply a b [ZMOD 2 ^ 64] := by
  have hword : ∀ {n : Int} {w : BitVec 64}, word n = w → n ≡ w.toInt [ZMOD 2 ^ 64] := by
    intro n w h
    rw [modEq_iff_ofInt, BitVec.ofInt_toInt]
    exact h
  cases o with
  | add => rfl
  | sub => rfl
  | mul => rfl
  | and =>
      refine hword (BitVec.eq_of_getLsbD_eq fun k hk => ?_)
      unfold RingOp.exact
      rw [BitVec.getLsbD_and, getLsbD_word, getLsbD_word, getLsbD_word, Int.testBit_land]
      simp [hk]
  | or =>
      refine hword (BitVec.eq_of_getLsbD_eq fun k hk => ?_)
      unfold RingOp.exact
      rw [BitVec.getLsbD_or, getLsbD_word, getLsbD_word, getLsbD_word, Int.testBit_lor]
      simp [hk]
  | xor =>
      refine hword (BitVec.eq_of_getLsbD_eq fun k hk => ?_)
      unfold RingOp.exact
      rw [BitVec.getLsbD_xor, getLsbD_word, getLsbD_word, getLsbD_word, Int.testBit_lxor]
      simp [hk]

end MachineInt

namespace CSyntax

open MachineInt

/-! ## Types of decimal constants -/

theorem usual_decimal : ∀ a ∈ decimalTypes, ∀ b ∈ decimalTypes, usual a b ∈ decimalTypes := by
  decide

theorem promote_decimal : ∀ t ∈ decimalTypes, promote (.int t) = t := by decide

theorem bits_decimal : ∀ t ∈ decimalTypes, t.bits ≤ 64 := by decide

/-- A signed common type holds both operands. -/
theorem usual_signed : ∀ a ∈ decimalTypes, ∀ b ∈ decimalTypes, (usual a b).signed = true →
    (usual a b).min ≤ a.min ∧ a.bound ≤ (usual a b).bound ∧
      (usual a b).min ≤ b.min ∧ b.bound ≤ (usual a b).bound := by
  decide

/-- A common type has residues for all values of the operands. -/
theorem usual_bits : ∀ a ∈ decimalTypes, ∀ b ∈ decimalTypes,
    -2 ^ (usual a b).bits < b.min ∧ b.bound ≤ 2 ^ (usual a b).bits := by
  decide

/-! ## Operators -/

section

variable {t : IntTy} {a b k n : Int}

/-- A result that its type holds is not changed. -/
theorem arith_of_holds (hn : t.Holds n) : arith t n = some (.int t, n) := by
  unfold arith
  by_cases hs : t.signed = true
  · rw [if_pos hs, if_pos hn]
  · rw [if_neg hs, IntTy.wrap_of_holds hn]

/-- The result of a ring operator. -/
theorem arith_exact_iff (ht : t.bits ≤ 64) (o : RingOp)
    (hs : t.signed = true → t.Holds a ∧ t.Holds b) :
    arith t (o.apply (t.wrap a) (t.wrap b)) = some (.int t, o.exact a b) ↔
      t.Holds (o.exact a b) := by
  constructor
  · intro h
    exact (arith_holds h).2
  · intro hn
    unfold arith
    by_cases hsigned : t.signed = true
    · obtain ⟨ha, hb⟩ := hs hsigned
      have hbits : t.bits - 1 ≤ 63 := by omega
      have hpow : (2 : Int) ^ (t.bits - 1) ≤ 2 ^ 63 := pow_le_pow_right₀ (by norm_num) hbits
      have hlong : ∀ m : Int, t.Holds m → int64.Holds m := by
        intro m hm
        obtain ⟨hlo, hhi⟩ := hm
        unfold IntTy.min at hlo
        unfold IntTy.bound at hhi
        rw [if_pos hsigned] at hlo hhi
        show -2 ^ 63 ≤ m ∧ m < 2 ^ 63
        omega
      -- a bitwise operator on words gives a word, which is the exact result
      have hword : ∀ w : BitVec 64, int64.Holds w.toInt := by
        intro w
        have hlo := BitVec.le_toInt w
        have hhi := BitVec.toInt_lt (x := w)
        show -2 ^ 63 ≤ w.toInt ∧ w.toInt < 2 ^ 63
        exact ⟨hlo, hhi⟩
      have hexact : o.apply a b = o.exact a b := by
        have hmod := o.exact_modEq a b
        cases o with
        | add => rfl
        | sub => rfl
        | mul => rfl
        | and => exact (IntTy.eq_of_modEq (t := int64) (hlong _ hn) (hword _) hmod).symm
        | or => exact (IntTy.eq_of_modEq (t := int64) (hlong _ hn) (hword _) hmod).symm
        | xor => exact (IntTy.eq_of_modEq (t := int64) (hlong _ hn) (hword _) hmod).symm
      rw [if_pos hsigned, IntTy.wrap_of_holds ha, IntTy.wrap_of_holds hb, hexact, if_pos hn]
    · rw [if_neg hsigned]
      have hmod : o.apply (t.wrap a) (t.wrap b) ≡ o.exact a b [ZMOD 2 ^ t.bits] :=
        (o.modEq ht (t.wrap_modEq a) (t.wrap_modEq b)).trans
          (IntTy.modEq_of_le ht (o.exact_modEq a b)).symm
      rw [IntTy.wrap_eq_of_modEq hmod, IntTy.wrap_of_holds hn]

/-- The quotient of unsigned numbers is not greater than the dividend. -/
theorem holds_tdiv_unsigned (hs : t.signed = false) (ha : t.Holds a) (hb : t.Holds b) :
    t.Holds (a.tdiv b) := by
  have hmin : t.min = 0 := by
    unfold IntTy.min
    rw [hs]
    rfl
  obtain ⟨halo, hahi⟩ := ha
  obtain ⟨hblo, -⟩ := hb
  rw [hmin] at halo hblo
  have hnonneg := Int.tdiv_nonneg halo hblo
  have hle := Int.tdiv_le_self b halo
  exact ⟨by rw [hmin]; exact hnonneg, by omega⟩

/-- The result of a division. -/
theorem divide_eq_iff (ha : t.Holds a) (hb : t.Holds b) :
    divide t a b = some (.int t, n) ↔ b ≠ 0 ∧ a.tdiv b = n ∧ t.Holds n := by
  unfold divide
  by_cases hzero : b = 0
  · rw [if_pos hzero]
    constructor
    · intro h
      cases h
    · rintro ⟨hne, -⟩
      exact absurd hzero hne
  · rw [if_neg hzero]
    constructor
    · intro h
      refine ⟨hzero, ?_, (arith_holds h).2⟩
      unfold arith at h
      split at h
      · split at h
        · cases h
          rfl
        · cases h
      · rename_i hs
        rw [IntTy.wrap_of_holds (holds_tdiv_unsigned (by simpa using hs) ha hb)] at h
        cases h
        rfl
    · rintro ⟨-, rfl, hn⟩
      exact arith_of_holds hn

/-- The result of a remainder. -/
theorem remainder_eq_iff (ha : t.Holds a) (hb : t.Holds b) :
    remainder t a b = some (.int t, n) ↔ b ≠ 0 ∧ t.Holds (a.tdiv b) ∧ a.tmod b = n := by
  unfold remainder
  rw [Option.map_eq_some_iff]
  constructor
  · rintro ⟨x, hx, heq⟩
    have hpair : x = (.int t, x.2) := by
      unfold divide at hx
      split at hx
      · cases hx
      · exact Prod.ext (arith_holds hx).1 rfl
    rw [hpair] at hx
    obtain ⟨hzero, hquot, hholds⟩ := (divide_eq_iff ha hb).mp hx
    cases heq
    exact ⟨hzero, hquot ▸ hholds, rfl⟩
  · rintro ⟨hzero, hholds, rfl⟩
    exact ⟨_, (divide_eq_iff ha hb).mpr ⟨hzero, rfl, hholds⟩, rfl⟩

/-- The result of a left shift. -/
theorem shiftLeft_exact_iff :
    shiftLeft t a k = some (.int t, a * 2 ^ k.toNat) ↔
      (0 ≤ k ∧ k < t.bits) ∧ (t.signed = true → 0 ≤ a) ∧ t.Holds (a * 2 ^ k.toNat) := by
  unfold shiftLeft
  constructor
  · intro h
    split at h
    · cases h
    · rename_i hk
      split at h
      · cases h
      · rename_i ha
        refine ⟨by omega, fun hs => ?_, (arith_holds h).2⟩
        by_contra hneg
        exact ha ⟨hs, by omega⟩
  · rintro ⟨hk, ha, hn⟩
    rw [if_neg (by omega), if_neg ?_]
    · exact arith_of_holds hn
    · rintro ⟨hs, hneg⟩
      have hnonneg := ha hs
      omega

/-- The result of a right shift. -/
theorem shiftRight_exact_iff :
    shiftRight t a k = some (.int t, a / 2 ^ k.toNat) ↔ 0 ≤ k ∧ k < t.bits := by
  unfold shiftRight
  split
  · constructor
    · intro h
      cases h
    · intro h
      omega
  · constructor
    · intro _
      omega
    · intro _
      rfl

end

end CSyntax
