/-
# Integer and character constants of C

The value and the type of a constant as clang reads it: decimal, octal, hexadecimal and
binary integers without a suffix, which take the first type of their list that holds them,
and character constants of one byte, which are of type `int` and sign-extended.  `none` is a
spelling that is no such constant, or one without a value of its own: a constant beyond
64 bits, a character outside ASCII, an escape beyond a byte.
-/
import Gobee.CEval

namespace CSyntax

open MachineInt

/-! ## Digits -/

/-- The value of a digit. -/
def digitValue (c : Char) : Option Nat :=
  if c.isDigit then some (c.toNat - '0'.toNat)
  else if 'a' ≤ c ∧ c ≤ 'f' then some (c.toNat - 'a'.toNat + 10)
  else if 'A' ≤ c ∧ c ≤ 'F' then some (c.toNat - 'A'.toNat + 10)
  else none

/-- The digits of a number in a base, after those that make `n`. -/
def digitsFrom (base : Nat) : Nat → Text → Option Nat
  | n, [] => some n
  | n, c :: cs =>
      match digitValue c with
      | some d => if d < base then digitsFrom base (base * n + d) cs else none
      | none => none

/-- The number that one or more digits of a base denote. -/
def digitsValue (base : Nat) (ds : Text) : Option Nat :=
  if ds = [] then none else digitsFrom base 0 ds

theorem digitsFrom_eq_none {base : Nat} {c : Char} {ds : Text} (hc : c ∈ ds)
    (h : ∀ d, digitValue c = some d → base ≤ d) (n : Nat) : digitsFrom base n ds = none := by
  induction ds generalizing n with
  | nil => cases hc
  | cons e ds ih =>
      rw [digitsFrom]
      rcases List.mem_cons.mp hc with rfl | hc
      · cases hd : digitValue c with
        | none => rfl
        | some d =>
            have hle := h d hd
            simp only
            rw [if_neg (by omega)]
      · cases digitValue e with
        | none => rfl
        | some d =>
            simp only
            split_ifs
            · exact ih hc _
            · rfl

/-- A character that is no digit of the base spoils the number. -/
theorem digitsValue_eq_none {base : Nat} {c : Char} {ds : Text} (hc : c ∈ ds)
    (h : ∀ d, digitValue c = some d → base ≤ d) : digitsValue base ds = none := by
  unfold digitsValue
  split_ifs
  · rfl
  · exact digitsFrom_eq_none hc h 0

/-! ## Integers -/

/-- The type `unsigned int`. -/
def uint32 : IntTy := ⟨false, 32, width32_pos⟩

/-- The type `long`. -/
def int64 : IntTy := ⟨true, 64, width64_pos⟩

/-- The type `unsigned long`. -/
def uint64 : IntTy := ⟨false, 64, width64_pos⟩

/-- The types of a decimal constant; clang takes the last one with a warning. -/
def decimalTypes : List IntTy := [int32, int64, uint64]

/-- The types of any other integer constant. -/
def radixTypes : List IntTy := [int32, uint32, int64, uint64]

/-- The number in the first type that holds it. -/
def inFirst (types : List IntTy) (n : Nat) : Option Typed :=
  (types.find? fun t => t.Holds n).map fun t => (.int t, n)

/-- An integer constant. -/
def integerConstant : Text → Option Typed
  | ['0'] => inFirst radixTypes 0
  | '0' :: p :: ds =>
      if p = 'x' ∨ p = 'X' then (digitsValue 16 ds).bind (inFirst radixTypes)
      else if p = 'b' ∨ p = 'B' then (digitsValue 2 ds).bind (inFirst radixTypes)
      else (digitsValue 8 (p :: ds)).bind (inFirst radixTypes)
  | ds => (digitsValue 10 ds).bind (inFirst decimalTypes)

theorem inFirst_value {types : List IntTy} {n : Nat} {x : Typed} (h : inFirst types n = some x) :
    x.2 = n := by
  obtain ⟨t, -, rfl⟩ := Option.map_eq_some_iff.mp h
  rfl

/-- A number below `2 ^ 64` has a type, and no other has one. -/
theorem inFirst_isSome {types : List IntTy} (hlast : uint64 ∈ types)
    (hbound : ∀ t ∈ types, t.bound ≤ 2 ^ 64) (n : Nat) :
    (inFirst types n).isSome = true ↔ n < 2 ^ 64 := by
  rw [inFirst, Option.isSome_map, List.find?_isSome]
  constructor
  · rintro ⟨t, ht, hn⟩
    have hlt : (n : Int) < t.bound := (of_decide_eq_true hn).2
    have hle := hbound t ht
    omega
  · intro hn
    refine ⟨uint64, hlast, decide_eq_true ⟨Int.natCast_nonneg n, ?_⟩⟩
    show (n : Int) < 2 ^ 64
    omega

/-! ## Characters -/

/-- The escapes of one letter. -/
def letterEscapes : List (Char × Nat) :=
  [('a', 7), ('b', 8), ('f', 12), ('n', 10), ('r', 13), ('t', 9), ('v', 11), ('\\', 92),
    ('\'', 39), ('"', 34), ('?', 63)]

/-- The byte of an escape, without its backslash. -/
def escapeByte : Text → Option Nat
  | 'x' :: ds => digitsValue 16 ds
  | ds =>
      match ds with
      | [c] => (letterEscapes.lookup c).or (digitsValue 8 [c])
      | _ => if ds.length ≤ 3 then digitsValue 8 ds else none

/-- The value of a byte as a `char`, which is signed. -/
def charValue (n : Nat) : Option Int :=
  if n < 128 then some n else if n < 256 then some (n - 256) else none

/-- The value of what stands between the quotes of a character constant. -/
def characterValue : Text → Option Int
  | '\\' :: ds => (escapeByte ds).bind charValue
  | [c] => if c = '\'' ∨ c = '\n' ∨ c = '\r' ∨ 128 ≤ c.toNat then none else some c.toNat
  | _ => none

/-- What stands between quotes. -/
def unquote : Text → Option Text
  | '\'' :: rest => if rest.getLast? = some '\'' then some rest.dropLast else none
  | _ => none

/-- **An integer or character constant with its type.** -/
def constantValue (w : Text) : Option Typed :=
  if w.head? = some '\'' then
    ((unquote w).bind characterValue).map fun n => (.int int32, n)
  else integerConstant w

end CSyntax
