/-
# String literals of C

The bytes that a string literal denotes, as clang reads it: source and execution character
set are UTF-8, there are no trigraphs, a hexadecimal escape takes every digit that follows,
and a universal character name is no control character (before C23).  `none` is a spelling
that clang rejects.
-/
import Gobee.CConst

namespace CSyntax

/-! ## Reading a literal -/

/-- The bytes of a text in UTF-8. -/
def utf8 (s : Text) : List UInt8 := s.flatMap String.utf8EncodeChar

/-- A hexadecimal digit. -/
def isHexDigit (c : Char) : Bool := (digitValue c).isSome

/-- The digits of an octal escape, without the length. -/
def isOctalDigit (c : Char) : Bool := '0' ≤ c && c ≤ '7'

/-- The bytes of the character with the given number; the named characters below U+00A0 are
`$`, `@` and the backquote. -/
def universalBytes (n : Nat) : Option (List UInt8) :=
  if (160 ≤ n ∨ n ∈ [0x24, 0x40, 0x60]) ∧ n.isValidChar then
    some (String.utf8EncodeChar (Char.ofNat n))
  else none

/-- A universal character name of `k` digits. -/
def universalName (k : Nat) (s : Text) : Option (List UInt8 × Text) :=
  if k ≤ s.length then
    ((digitsValue 16 (s.take k)).bind universalBytes).map fun bs => (bs, s.drop k)
  else none

/-- An escape is one byte. -/
def byteOf (n : Nat) : Option (List UInt8) := if n < 256 then some [UInt8.ofNat n] else none

/-- The digits of an octal escape. -/
def octalDigits (s : Text) : Text := (s.take 3).takeWhile isOctalDigit

/-- What the characters behind a backslash denote, and the rest. -/
def escapeBytes (s : Text) : Option (List UInt8 × Text) :=
  match s with
  | [] => none
  | c :: rest =>
      if c = 'x' then
        ((digitsValue 16 (rest.takeWhile isHexDigit)).bind byteOf).map fun bs =>
          (bs, rest.dropWhile isHexDigit)
      else if c = 'u' then universalName 4 rest
      else if c = 'U' then universalName 8 rest
      else
        match letterEscapes.lookup c with
        | some n => (byteOf n).map fun bs => (bs, rest)
        | none =>
            ((digitsValue 8 (octalDigits s)).bind byteOf).map fun bs =>
              (bs, s.drop (octalDigits s).length)

/-- What the first character or escape denotes, and the rest. -/
def nextBytes (s : Text) : Option (List UInt8 × Text) :=
  match s with
  | [] => none
  | c :: rest =>
      if c = '\\' then escapeBytes rest
      else if c = '"' ∨ c = '\n' then none
      else some (String.utf8EncodeChar c, rest)

theorem length_of_map {α : Type} {o : Option α} {t : Text} {bs : α} {rest : Text}
    (h : (o.map fun b => (b, t)) = some (bs, rest)) : rest = t := by
  obtain ⟨b, -, heq⟩ := Option.map_eq_some_iff.mp h
  exact (Prod.mk.inj heq).2.symm

theorem escapeBytes_length {s rest : Text} {bs : List UInt8}
    (h : escapeBytes s = some (bs, rest)) : rest.length < s.length := by
  cases s with
  | nil => cases h
  | cons c t =>
      have hdrop : ∀ (k : Nat), (t.drop k).length < (c :: t).length := fun k => by
        rw [List.length_drop, List.length_cons]
        omega
      rw [escapeBytes] at h
      split_ifs at h
      · rw [length_of_map h, List.length_cons]
        exact Nat.lt_succ_of_le (List.dropWhile_sublist _).length_le
      · rw [universalName] at h
        split_ifs at h
        exact length_of_map h ▸ hdrop 4
      · rw [universalName] at h
        split_ifs at h
        exact length_of_map h ▸ hdrop 8
      · cases hl : letterEscapes.lookup c with
        | some n =>
            rw [hl] at h
            rw [length_of_map h]
            exact Nat.lt_succ_self _
        | none =>
            rw [hl] at h
            -- there is a digit
            have hne : octalDigits (c :: t) ≠ [] := by
              intro hnil
              rw [hnil] at h
              cases h
            rw [length_of_map h, List.length_drop]
            have hpos := List.length_pos_of_ne_nil hne
            have hcons : (c :: t).length = t.length + 1 := rfl
            omega

/-- A character or escape is not empty. -/
theorem nextBytes_length {s rest : Text} {bs : List UInt8} (h : nextBytes s = some (bs, rest)) :
    rest.length < s.length := by
  cases s with
  | nil => cases h
  | cons c t =>
      rw [nextBytes] at h
      split_ifs at h
      · exact Nat.lt_succ_of_lt (escapeBytes_length h)
      · cases h
        exact Nat.lt_succ_self _

/-- What the characters between the quotes denote. -/
def stringBytes (s : Text) : Option (List UInt8) :=
  if s = [] then some []
  else
    match _h : nextBytes s with
    | none => none
    | some (bs, rest) => (stringBytes rest).map (bs ++ ·)
termination_by s.length
decreasing_by exact nextBytes_length _h

/-- What a literal denotes. -/
def stringLiteral (w : Text) : Option (List UInt8) :=
  match w with
  | '"' :: rest => if rest.getLast? = some '"' then stringBytes rest.dropLast else none
  | _ => none

theorem stringBytes_nil : stringBytes [] = some [] := by
  rw [stringBytes, if_pos rfl]

theorem stringBytes_next {s rest : Text} {bs : List UInt8} (h : nextBytes s = some (bs, rest)) :
    stringBytes s = (stringBytes rest).map (bs ++ ·) := by
  have hne : s ≠ [] := by
    rintro rfl
    cases h
  rw [stringBytes, if_neg hne]
  split
  · next hnone =>
      rw [h] at hnone
      cases hnone
  · next hsome =>
      rw [h] at hsome
      cases hsome
      rfl

theorem stringBytes_stuck {s : Text} (hne : s ≠ []) (h : nextBytes s = none) :
    stringBytes s = none := by
  rw [stringBytes, if_neg hne]
  split
  · rfl
  · next hsome =>
      rw [h] at hsome
      cases hsome

/-! ## Bytes -/

theorem utf8_cons (c : Char) (s : Text) : utf8 (c :: s) = String.utf8EncodeChar c ++ utf8 s :=
  List.flatMap_cons

theorem utf8_append (s t : Text) : utf8 (s ++ t) = utf8 s ++ utf8 t := List.flatMap_append

/-- ASCII takes one byte. -/
theorem utf8EncodeChar_ascii {c : Char} (h : c.toNat < 128) :
    String.utf8EncodeChar c = [UInt8.ofNat c.toNat] :=
  if_pos (Nat.le_of_lt_succ h)

/-- A character above ASCII has no byte of ASCII. -/
theorem le_of_mem_utf8EncodeChar {c : Char} {b : UInt8} (h : 128 ≤ c.toNat)
    (hb : b ∈ String.utf8EncodeChar c) : 128 ≤ b.toNat := by
  have hv : c.val.toNat = c.toNat := rfl
  simp only [String.utf8EncodeChar, hv] at hb
  rw [if_neg (by omega)] at hb
  by_cases h₂ : c.toNat ≤ 0x7ff
  · rw [if_pos h₂] at hb
    simp only [List.mem_cons, List.not_mem_nil, or_false] at hb
    rcases hb with rfl | rfl <;> rw [UInt8.toNat_ofNat'] <;> omega
  · rw [if_neg h₂] at hb
    by_cases h₃ : c.toNat ≤ 0xffff
    · rw [if_pos h₃] at hb
      simp only [List.mem_cons, List.not_mem_nil, or_false] at hb
      rcases hb with rfl | rfl | rfl <;> rw [UInt8.toNat_ofNat'] <;> omega
    · rw [if_neg h₃] at hb
      simp only [List.mem_cons, List.not_mem_nil, or_false] at hb
      rcases hb with rfl | rfl | rfl | rfl <;> rw [UInt8.toNat_ofNat'] <;> omega

theorem ofNat_toNat_inj {a c : Char} (ha : a.toNat < 128) (hc : c.toNat < 128) :
    UInt8.ofNat c.toNat = UInt8.ofNat a.toNat ↔ c = a := by
  refine ⟨fun h => ?_, fun h => by rw [h]⟩
  have hnat := congrArg UInt8.toNat h
  rw [UInt8.toNat_ofNat', UInt8.toNat_ofNat'] at hnat
  rw [← Char.toNat_inj]
  omega

theorem mem_utf8EncodeChar {a c : Char} (ha : a.toNat < 128) :
    UInt8.ofNat a.toNat ∈ String.utf8EncodeChar c ↔ c = a := by
  by_cases hc : c.toNat < 128
  · rw [utf8EncodeChar_ascii hc, List.mem_singleton, eq_comm, ofNat_toNat_inj ha hc]
  · refine iff_of_false (fun hmem => ?_) (fun h => hc (h ▸ ha))
    have hle := le_of_mem_utf8EncodeChar (by omega) hmem
    rw [UInt8.toNat_ofNat'] at hle
    omega

/-- A character takes a byte at least. -/
theorem utf8_length_cons (c : Char) (s : Text) : (utf8 s).length < (utf8 (c :: s)).length := by
  have hpos := List.length_pos_of_ne_nil (@String.utf8EncodeChar_ne_nil c)
  rw [utf8_cons, List.length_append]
  omega

theorem length_utf8_dropWhile (p : Char → Bool) (s : Text) :
    (utf8 (s.dropWhile p)).length ≤ (utf8 s).length := by
  induction s with
  | nil => exact Nat.le_refl _
  | cons c s ih =>
      rw [List.dropWhile_cons]
      split_ifs
      · exact Nat.le_trans ih (Nat.le_of_lt (utf8_length_cons c s))
      · exact Nat.le_refl _

/-! ## Digits -/

theorem digitsFrom_append {base : Nat} (ds es : Text) (n : Nat) :
    digitsFrom base n (ds ++ es) = (digitsFrom base n ds).bind fun m => digitsFrom base m es := by
  induction ds generalizing n with
  | nil => rfl
  | cons d ds ih =>
      rw [List.cons_append, digitsFrom, digitsFrom]
      cases digitValue d with
      | none => rfl
      | some v =>
          simp only
          split_ifs
          · exact ih _
          · rfl

/-- The digits of a number below 16. -/
theorem digitValue_digitChar {n : Nat} (h : n < 16) : digitValue (Nat.digitChar n) = some n := by
  interval_cases n <;> decide

theorem isHexDigit_digitChar {n : Nat} (h : n < 16) : isHexDigit (Nat.digitChar n) = true := by
  rw [isHexDigit, digitValue_digitChar h]
  rfl

end CSyntax
