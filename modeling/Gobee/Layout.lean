/-
# Struct layouts

Two ways of laying out the values of a record type in memory:

* the *natural* layout of a C compiler, which puts every field at the next multiple of
  its alignment and pads the record to a multiple of its own alignment;
* the *packed* layout of a serialiser, which puts the fields right after one another.

`size_eq_packed_iff` : **the sizes agree exactly when the natural layout needs no
padding**, that is, when every packed offset is already aligned (`Tight`); and then all
offsets agree (`offsetsIn_eq_packedOffsetsIn`), because padding only ever moves fields up.
-/
import Mathlib.Order.Lattice
import Mathlib.Algebra.Order.Ring.Nat
import Mathlib.Tactic.Linarith

namespace Layout

/-! ## Shapes -/

/-- A type as memory sees it.  A scalar is kept by its size and its alignment; a pointer
is a scalar that no serialiser writes. -/
inductive Shape where
  | scalar (size align : Nat)
  | pointer (size align : Nat)
  | array (elem : Shape) (len : Nat)
  | struct (fields : List Shape)

/-- The least multiple of `a` that is not below `n`. -/
def alignUp (n a : Nat) : Nat := (n + a - 1) / a * a

theorem le_alignUp {n a : Nat} (ha : 0 < a) : n ≤ alignUp n a := by
  have h : n + a - 1 < (n + a - 1) / a * a + a := Nat.lt_div_mul_add ha
  unfold alignUp
  omega

theorem alignUp_eq_self_iff {n a : Nat} (ha : 0 < a) : alignUp n a = n ↔ a ∣ n := by
  constructor
  · intro h
    rw [← h]
    exact Dvd.intro_left _ rfl
  · rintro ⟨k, rfl⟩
    unfold alignUp
    have hdiv : (a * k + a - 1) / a = k := by
      rw [Nat.add_sub_assoc ha, Nat.mul_add_div ha, Nat.div_eq_of_lt (by omega), Nat.add_zero]
    rw [hdiv, Nat.mul_comm]

mutual
/-- The alignment of a shape. -/
def align : Shape → Nat
  | .scalar _ a | .pointer _ a => a
  | .array e _ => align e
  | .struct fs => alignAll fs

/-- The largest alignment of some fields. -/
def alignAll : List Shape → Nat
  | [] => 1
  | f :: fs => max (align f) (alignAll fs)
end

mutual
/-- All alignments are positive. -/
def Aligned : Shape → Prop
  | .scalar _ a | .pointer _ a => 0 < a
  | .array e _ => Aligned e
  | .struct fs => AllAligned fs

/-- `Aligned` for each field. -/
def AllAligned : List Shape → Prop
  | [] => True
  | f :: fs => Aligned f ∧ AllAligned fs
end

mutual
theorem align_pos : ∀ {s : Shape}, Aligned s → 0 < align s
  | .scalar _ _, h => h
  | .pointer _ _, h => h
  | .array e _, h => align_pos (s := e) h
  | .struct _, h => alignAll_pos h

theorem alignAll_pos : ∀ {fs : List Shape}, AllAligned fs → 0 < alignAll fs
  | [], _ => Nat.one_pos
  | _ :: _, h => lt_max_of_lt_left (align_pos h.1)
end

/-! ## The two layouts -/

mutual
/-- The size of a shape in the natural layout. -/
def size : Shape → Nat
  | .scalar n _ | .pointer n _ => n
  | .array e len => len * size e
  | .struct fs => alignUp (endOf 0 fs) (alignAll fs)

/-- Where fields end in the natural layout, the first one placed at or after `off`. -/
def endOf (off : Nat) : List Shape → Nat
  | [] => off
  | f :: fs => endOf (alignUp off (align f) + size f) fs
end

mutual
/-- The size of a shape in the packed layout. -/
def packed : Shape → Nat
  | .scalar n _ | .pointer n _ => n
  | .array e len => len * packed e
  | .struct fs => packedSum fs

/-- The packed size of some fields. -/
def packedSum : List Shape → Nat
  | [] => 0
  | f :: fs => packed f + packedSum fs
end

mutual
/-- The offsets of a shape placed at `base` and of all fields and elements inside it, in
the natural layout. -/
def offsetsIn (base : Nat) : Shape → List Nat
  | .scalar _ _ | .pointer _ _ => [base]
  | .array e len => base :: (List.range len).flatMap fun i => offsetsIn (base + i * size e) e
  | .struct fs => base :: fieldOffsets base 0 fs

/-- The offsets in some fields of a record placed at `base`. -/
def fieldOffsets (base off : Nat) : List Shape → List Nat
  | [] => []
  | f :: fs =>
      offsetsIn (base + alignUp off (align f)) f ++
        fieldOffsets base (alignUp off (align f) + size f) fs
end

mutual
/-- The offsets of a shape placed at `base` and of all fields and elements inside it, in
the packed layout. -/
def packedOffsetsIn (base : Nat) : Shape → List Nat
  | .scalar _ _ | .pointer _ _ => [base]
  | .array e len =>
      base :: (List.range len).flatMap fun i => packedOffsetsIn (base + i * packed e) e
  | .struct fs => base :: packedFieldOffsets base 0 fs

/-- The packed offsets in some fields of a record placed at `base`. -/
def packedFieldOffsets (base off : Nat) : List Shape → List Nat
  | [] => []
  | f :: fs => packedOffsetsIn (base + off) f ++ packedFieldOffsets base (off + packed f) fs
end

/-! ## Padding -/

mutual
/-- The natural layout needs no padding: every packed offset is a multiple of the field's
alignment, every packed record size a multiple of the record's alignment. -/
def Tight : Shape → Prop
  | .scalar _ _ | .pointer _ _ => True
  | .array e len => len = 0 ∨ Tight e
  | .struct fs => TightFrom 0 fs ∧ alignAll fs ∣ packedSum fs

/-- `Tight` for fields that begin at the packed offset `off`. -/
def TightFrom (off : Nat) : List Shape → Prop
  | [] => True
  | f :: fs => (align f ∣ off ∧ Tight f) ∧ TightFrom (off + packed f) fs
end

mutual
/-- Padding only adds. -/
theorem packed_le_size : ∀ {s : Shape}, Aligned s → packed s ≤ size s
  | .scalar _ _, _ => le_rfl
  | .pointer _ _, _ => le_rfl
  | .array e len, h => by
      rw [packed, size]
      exact Nat.mul_le_mul_left len (packed_le_size (s := e) h)
  | .struct fs, h => by
      rw [packed, size]
      have hend : 0 + packedSum fs ≤ endOf 0 fs := add_packedSum_le_endOf h 0
      rw [Nat.zero_add] at hend
      exact hend.trans (le_alignUp (alignAll_pos h))

theorem add_packedSum_le_endOf : ∀ {fs : List Shape}, AllAligned fs → ∀ off,
    off + packedSum fs ≤ endOf off fs
  | [], _, off => le_rfl
  | f :: fs, h, off => by
      rw [packedSum, endOf]
      have h1 := le_alignUp (n := off) (align_pos h.1)
      have h2 := packed_le_size h.1
      have h3 := add_packedSum_le_endOf h.2 (alignUp off (align f) + size f)
      omega
end

mutual
/-- **The sizes agree exactly when there is no padding.** -/
theorem size_eq_packed_iff : ∀ {s : Shape}, Aligned s → (size s = packed s ↔ Tight s)
  | .scalar _ _, _ => by simp [size, packed, Tight]
  | .pointer _ _, _ => by simp [size, packed, Tight]
  | .array e len, h => by
      rw [size, packed, Tight, ← size_eq_packed_iff (s := e) h, mul_eq_mul_left_iff]
      exact or_comm
  | .struct fs, h => by
      have hpos := alignAll_pos h
      have hend : 0 + packedSum fs ≤ endOf 0 fs := add_packedSum_le_endOf h 0
      have hiff : endOf 0 fs = 0 + packedSum fs ↔ TightFrom 0 fs := endOf_eq_iff h 0
      have hle := le_alignUp (n := endOf 0 fs) hpos
      rw [Nat.zero_add] at hend hiff
      rw [size, packed, Tight, ← hiff]
      constructor
      · intro heq
        have hsame : endOf 0 fs = packedSum fs := by omega
        refine ⟨hsame, (alignUp_eq_self_iff hpos).mp ?_⟩
        rw [← hsame] at heq ⊢
        exact heq
      · rintro ⟨hsame, hdvd⟩
        rw [hsame]
        exact (alignUp_eq_self_iff hpos).mpr hdvd

/-- Fields end at their packed end exactly when none of them is moved up. -/
theorem endOf_eq_iff : ∀ {fs : List Shape}, AllAligned fs → ∀ off,
    (endOf off fs = off + packedSum fs ↔ TightFrom off fs)
  | [], _, off => by simp [endOf, packedSum, TightFrom]
  | f :: fs, h, off => by
      have hpos := align_pos h.1
      have h1 := le_alignUp (n := off) hpos
      have h2 := packed_le_size h.1
      have h3 := add_packedSum_le_endOf h.2 (alignUp off (align f) + size f)
      have ih := endOf_eq_iff h.2 (off + packed f)
      rw [endOf, packedSum, TightFrom, ← ih, ← size_eq_packed_iff h.1,
        ← alignUp_eq_self_iff hpos]
      constructor
      · intro heq
        have ha : alignUp off (align f) = off := by omega
        have hs : size f = packed f := by omega
        refine ⟨⟨ha, hs⟩, ?_⟩
        rw [ha, hs] at heq
        omega
      · rintro ⟨⟨ha, hs⟩, heq⟩
        rw [ha, hs, heq]
        omega
end

mutual
/-- **Without padding everything has the same offset.** -/
theorem offsetsIn_eq_packedOffsetsIn : ∀ {s : Shape}, Aligned s → Tight s → ∀ base,
    offsetsIn base s = packedOffsetsIn base s
  | .scalar _ _, _, _, _ => rfl
  | .pointer _ _, _, _, _ => rfl
  | .array e len, h, ht, base => by
      rw [offsetsIn, packedOffsetsIn]
      rcases ht with rfl | ht
      · rfl
      · have hsize := (size_eq_packed_iff (s := e) h).mpr ht
        rw [hsize]
        simp only [offsetsIn_eq_packedOffsetsIn (s := e) h ht]
  | .struct fs, h, ht, base => by
      rw [offsetsIn, packedOffsetsIn]
      rw [fieldOffsets_eq h ht.1 base]

theorem fieldOffsets_eq : ∀ {fs : List Shape} {off : Nat}, AllAligned fs → TightFrom off fs →
    ∀ base, fieldOffsets base off fs = packedFieldOffsets base off fs
  | [], _, _, _, _ => rfl
  | f :: fs, off, h, ht, base => by
      obtain ⟨⟨ha, hf⟩, hfs⟩ := ht
      have halign := (alignUp_eq_self_iff (align_pos h.1)).mpr ha
      have hsize := (size_eq_packed_iff h.1).mpr hf
      rw [fieldOffsets, packedFieldOffsets, halign, hsize, offsetsIn_eq_packedOffsetsIn h.1 hf,
        fieldOffsets_eq h.2 hfs]
end

/-! ## Serialisers -/

mutual
/-- The shape has no pointers. -/
def encodable : Shape → Bool
  | .scalar _ _ => true
  | .pointer _ _ => false
  | .array e _ => encodable e
  | .struct fs => allEncodable fs

/-- `encodable` for each field. -/
def allEncodable : List Shape → Bool
  | [] => true
  | f :: fs => encodable f && allEncodable fs
end

/-- What a layout says: the size, and the offsets of all fields and elements. -/
structure Placement where
  size : Nat
  offsets : List Nat
  deriving DecidableEq, Repr

/-- The placement of a C compiler. -/
def natural (s : Shape) : Placement := ⟨size s, offsetsIn 0 s⟩

/-- The placement of a serialiser, which rejects pointers. -/
def serialised (s : Shape) : Option Placement :=
  if encodable s then some ⟨packed s, packedOffsetsIn 0 s⟩ else none

/-- **The placements agree exactly for shapes without pointers and without padding.** -/
theorem serialised_eq_natural_iff {s : Shape} (h : Aligned s) :
    serialised s = some (natural s) ↔ encodable s = true ∧ Tight s := by
  unfold serialised natural
  split_ifs with he
  · rw [Option.some.injEq, Placement.mk.injEq]
    constructor
    · rintro ⟨hsize, -⟩
      exact ⟨he, (size_eq_packed_iff h).mp hsize.symm⟩
    · rintro ⟨-, ht⟩
      exact ⟨((size_eq_packed_iff h).mpr ht).symm, (offsetsIn_eq_packedOffsetsIn h ht 0).symm⟩
  · simp [he]

end Layout
