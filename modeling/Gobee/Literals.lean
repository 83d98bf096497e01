/-
# Integer and rune literals

`formatExpr` copies a literal as it is spelled in Go.  The two grammars overlap only in
part: C has no digit separators and no `0o`, and a character constant is a signed byte.

* `goLiteral` : the value of an integer or rune literal of Go;
* `literal_value_iff` : **the emitted text is a C constant of the same value exactly when
  the literal is `Portable`.**
-/
import Gobee.ExprTree
import Gobee.CConst

namespace Gobee

open CSyntax MachineInt

/-! ## Literals of Go -/

/-- Underscores stand between digits only: none follows another and none is the last. -/
def spaced : Text → Bool
  | [] => true
  | ['_'] => false
  | '_' :: '_' :: _ => false
  | _ :: ds => spaced ds

/-- Digits of a base with separators; one may stand in front. -/
def goDigits (base : Nat) (ds : Text) : Option Nat :=
  if spaced ds then digitsValue base (ds.filter (· ≠ '_')) else none

/-- An integer literal. -/
def goInteger : Text → Option Nat
  | ['0'] => some 0
  | '0' :: p :: ds =>
      if p = 'x' ∨ p = 'X' then goDigits 16 ds
      else if p = 'b' ∨ p = 'B' then goDigits 2 ds
      else if p = 'o' ∨ p = 'O' then goDigits 8 ds
      else goDigits 8 (p :: ds)
  | [] => none
  | d :: ds => if d = '_' then none else goDigits 10 (d :: ds)

/-- The escapes of one letter. -/
def goLetterEscapes : List (Char × Nat) :=
  [('a', 7), ('b', 8), ('f', 12), ('n', 10), ('r', 13), ('t', 9), ('v', 11), ('\\', 92),
    ('\'', 39)]

/-- A code point: no surrogate, and not beyond `U+10FFFF`. -/
def codePoint (n : Nat) : Option Nat :=
  if n.isValidChar then some n else none

/-- The value of an escape, without its backslash. -/
def goEscape : Text → Option Nat
  | 'x' :: ds => if ds.length = 2 then digitsValue 16 ds else none
  | 'u' :: ds => if ds.length = 4 then (digitsValue 16 ds).bind codePoint else none
  | 'U' :: ds => if ds.length = 8 then (digitsValue 16 ds).bind codePoint else none
  | ds =>
      match ds with
      | [c] => goLetterEscapes.lookup c
      | _ =>
          if ds.length = 3 then
            (digitsValue 8 ds).bind fun n => if n < 256 then some n else none
          else none

/-- The value of what stands between the quotes of a rune literal. -/
def goRune : Text → Option Nat
  | '\\' :: ds => goEscape ds
  | [c] => if c = '\'' ∨ c = '\n' then none else some c.toNat
  | _ => none

/-- **The value of an integer or rune literal.** -/
def goLiteral : LitKind → Text → Option Nat
  | .int, w => goInteger w
  | .char, w => (unquote w).bind goRune
  | _, _ => none

/-! ## Portable literals -/

/-- The literal is written with the prefix `0o`. -/
def octalPrefixed : Text → Bool
  | '0' :: p :: _ => p == 'o' || p == 'O'
  | _ => false

/-- The rune is written by itself, by a letter escape or by a byte, and is ASCII. -/
def portableRune : Text → Bool
  | '\\' :: 'u' :: _ => false
  | '\\' :: 'U' :: _ => false
  | '\\' :: ds => ((goEscape ds).getD 0) < 128
  | [c] => c.toNat < 128 && c != '\r'
  | _ => false

/-- An integer literal without separators and without `0o` below `2 ^ 64`, or a rune literal
for an ASCII character that is not written as `\u` or `\U` (or as a bare carriage return). -/
def Portable : LitKind → Text → Prop
  | .char, w => ((unquote w).map portableRune).getD false = true
  | _, w => '_' ∉ w ∧ octalPrefixed w = false ∧ ((goInteger w).getD 0) < 2 ^ 64

instance (kind : LitKind) (w : Text) : Decidable (Portable kind w) := by
  unfold Portable
  split <;> infer_instance

/-! ## Integers -/

section

variable {base n : Nat} {ds w : Text}

theorem digitValue_underscore : digitValue '_' = none := by decide

theorem goDigits_plain (h : '_' ∉ ds) (hn : goDigits base ds = some n) :
    digitsValue base ds = some n := by
  unfold goDigits at hn
  have hfilter : ds.filter (· ≠ '_') = ds := by
    refine List.filter_eq_self.mpr fun c hc => ?_
    have hne : c ≠ '_' := fun heq => h (heq ▸ hc)
    simpa using hne
  rw [hfilter] at hn
  split_ifs at hn
  exact hn

theorem digitsValue_separator (h : '_' ∈ ds) : digitsValue base ds = none := by
  refine digitsValue_eq_none h fun d hd => ?_
  rw [digitValue_underscore] at hd
  cases hd

/-- The constant has the value of its digits, if it has a type. -/
theorem bind_inFirst_eq {types : List IntTy} (htypes : types = radixTypes ∨ types = decimalTypes)
    (o : Option Nat) (n : Nat) :
    ((o.bind (inFirst types)).map Prod.snd = some (n : Int)) ↔ o = some n ∧ n < 2 ^ 64 := by
  have hsome : ∀ m : Nat, (inFirst types m).isSome = true ↔ m < 2 ^ 64 := by
    rcases htypes with rfl | rfl
    · exact inFirst_isSome (by decide) (by decide)
    · exact inFirst_isSome (by decide) (by decide)
  cases o with
  | none => simp
  | some m =>
      rw [Option.bind_some, Option.some.injEq]
      constructor
      · intro h
        obtain ⟨x, hx, hval⟩ := Option.map_eq_some_iff.mp h
        have hm := inFirst_value hx
        refine ⟨by omega, ?_⟩
        have hlt := (hsome m).mp (by rw [hx]; rfl)
        omega
      · rintro ⟨rfl, hlt⟩
        obtain ⟨x, hx⟩ := Option.isSome_iff_exists.mp ((hsome m).mpr hlt)
        rw [hx, Option.map_some, inFirst_value hx]

/-- Digits behind a prefix that both languages have. -/
theorem radix_iff {types : List IntTy} (htypes : types = radixTypes ∨ types = decimalTypes)
    (hn : goDigits base ds = some n) :
    (((digitsValue base ds).bind (inFirst types)).map Prod.snd = some (n : Int)) ↔
      '_' ∉ ds ∧ n < 2 ^ 64 := by
  rw [bind_inFirst_eq htypes]
  constructor
  · rintro ⟨hvalue, hlt⟩
    refine ⟨fun hmem => ?_, hlt⟩
    rw [digitsValue_separator hmem] at hvalue
    cases hvalue
  · rintro ⟨hmem, hlt⟩
    exact ⟨goDigits_plain hmem hn, hlt⟩

/-- **An integer literal keeps its value exactly when it is portable.** -/
theorem integerConstant_iff (hn : goInteger w = some n) :
    (integerConstant w).map Prod.snd = some (n : Int) ↔
      '_' ∉ w ∧ octalPrefixed w = false ∧ n < 2 ^ 64 := by
  unfold goInteger at hn
  split at hn
  · cases hn
    decide
  · rename_i p ds
    have hconst : integerConstant ('0' :: p :: ds) =
        if p = 'x' ∨ p = 'X' then (digitsValue 16 ds).bind (inFirst radixTypes)
        else if p = 'b' ∨ p = 'B' then (digitsValue 2 ds).bind (inFirst radixTypes)
        else (digitsValue 8 (p :: ds)).bind (inFirst radixTypes) := rfl
    rw [hconst]
    have hword : '_' ∉ '0' :: p :: ds ↔ p ≠ '_' ∧ '_' ∉ ds := by
      simp [List.mem_cons, eq_comm]
    rw [hword]
    -- hexadecimal, binary, octal with a letter, and octal with a leading zero
    split_ifs at hn ⊢ with hx hb ho
    · rw [radix_iff (.inl rfl) hn]
      rcases hx with rfl | rfl <;> simp [octalPrefixed]
    · rw [radix_iff (.inl rfl) hn]
      rcases hb with rfl | rfl <;> simp [octalPrefixed]
    · have hspoiled : digitsValue 8 (p :: ds) = none := by
        refine digitsValue_eq_none List.mem_cons_self fun d hd => ?_
        rcases ho with rfl | rfl
        · cases hd
        · cases hd
      rw [hspoiled]
      rcases ho with rfl | rfl <;> simp [octalPrefixed]
    · rw [radix_iff (.inl rfl) hn]
      rw [not_or] at ho
      have hoctal : octalPrefixed ('0' :: p :: ds) = false := by simp [octalPrefixed, ho]
      rw [hoctal, List.mem_cons, not_or, ne_comm]
      simp
  · cases hn
  · rename_i d ds h0 hzero
    split_ifs at hn with hd
    have hne : d ≠ '0' := by
      rintro rfl
      cases ds with
      | nil => exact h0 rfl rfl
      | cons p ds => exact hzero p ds rfl rfl
    have hconst : integerConstant (d :: ds) =
        (digitsValue 10 (d :: ds)).bind (inFirst decimalTypes) := by
      unfold integerConstant
      split
      · rename_i heq
        exact absurd (List.cons.inj heq).1 hne
      · rename_i heq
        exact absurd (List.cons.inj heq).1 hne
      · rfl
    have hoctal : octalPrefixed (d :: ds) = false := by
      unfold octalPrefixed
      split
      · rename_i heq
        exact absurd (List.cons.inj heq).1 hne
      · rfl
    rw [hconst, radix_iff (.inr rfl) hn, hoctal]
    simp

end

/-! ## Runes -/

section

variable {n : Nat} {ds w : Text}

theorem letterEscapes_of_go {c : Char} (h : goLetterEscapes.lookup c = some n) :
    letterEscapes.lookup c = some n ∧ n < 128 ∧ c ≠ 'x' ∧ c ≠ 'u' ∧ c ≠ 'U' := by
  have hmem : (c, n) ∈ goLetterEscapes := by
    obtain ⟨l₁, l₂, heq, -⟩ := List.lookup_eq_some_iff.mp h
    rw [heq]
    simp
  simp only [goLetterEscapes, List.mem_cons, List.not_mem_nil, or_false, Prod.mk.injEq] at hmem
  rcases hmem with h | h | h | h | h | h | h | h | h <;> obtain ⟨rfl, rfl⟩ := h <;> decide

theorem charValue_eq (n : Nat) : charValue n = some (n : Int) ↔ n < 128 := by
  unfold charValue
  split_ifs with h1 h2
  · simp [h1]
  · simp only [Option.some.injEq, h1, iff_false]
    omega
  · simp [h1]

/-- An escape keeps its value exactly when it is portable. -/
theorem escape_iff (hn : goEscape ds = some n) :
    (escapeByte ds).bind charValue = some (n : Int) ↔ portableRune ('\\' :: ds) = true := by
  have hu : ∀ {d : Nat}, digitValue 'u' = some d → 8 ≤ d := by
    intro d hd
    cases hd
  have hU : ∀ {d : Nat}, digitValue 'U' = some d → 8 ≤ d := by
    intro d hd
    cases hd
  have hportable : ∀ {es : Text}, goEscape es = some n → (∀ r, es ≠ 'u' :: r) →
      (∀ r, es ≠ 'U' :: r) → (portableRune ('\\' :: es) = true ↔ n < 128) := by
    intro es hes hne hne'
    have heq : portableRune ('\\' :: es) = decide ((goEscape es).getD 0 < 128) := by
      cases es with
      | nil => rfl
      | cons c r =>
          have hc : c ≠ 'u' := fun h => hne r (by rw [h])
          have hc' : c ≠ 'U' := fun h => hne' r (by rw [h])
          unfold portableRune
          split <;> simp_all
    rw [heq, hes]
    simp
  have hfirst : ∀ {c : Char} {r : Text}, (∀ {d : Nat}, digitValue c = some d → 8 ≤ d) → c ≠ 'x' →
      letterEscapes.lookup c = none → escapeByte (c :: r) = none := by
    intro c r hc hx hletter
    have hnone : digitsValue 8 (c :: r) = none :=
      digitsValue_eq_none List.mem_cons_self fun d => hc
    unfold escapeByte
    split
    · rename_i heq
      exact absurd (List.cons.inj heq).1 hx
    · split
      · rename_i heq
        obtain ⟨rfl, rfl⟩ := List.cons.inj heq
        rw [hletter, Option.none_or, hnone]
      · split_ifs
        · exact hnone
        · rfl
  have hcopy := hn
  unfold goEscape at hn
  -- hexadecimal, the two Unicode forms, and what is left: a letter or three octal digits
  split at hn
  · rename_i es
    split_ifs at hn
    rw [hportable hcopy (by simp) (by simp)]
    rw [escapeByte, hn, Option.bind_some, charValue_eq]
  · rename_i es
    rw [hfirst hu (by decide) (by decide)]
    simp [portableRune]
  · rename_i es
    rw [hfirst hU (by decide) (by decide)]
    simp [portableRune]
  · rename_i es hx hnu hnU
    rw [hportable hcopy (fun r h => hnu r h) (fun r h => hnU r h)]
    split at hn
    · rename_i c
      obtain ⟨hletter, hlt, hcx, -, -⟩ := letterEscapes_of_go hn
      have hbyte : escapeByte [c] = some n := by
        unfold escapeByte
        split
        · rename_i heq
          exact absurd (List.cons.inj heq).1 hcx
        · simp only [hletter, Option.some_or]
      rw [hbyte, Option.bind_some, charValue_eq]
    · rename_i hsingle
      split_ifs at hn with hlen
      obtain ⟨m, hm, hlt⟩ := Option.bind_eq_some_iff.mp hn
      split_ifs at hlt with h256
      cases hlt
      have hbyte : escapeByte ds = some n := by
        unfold escapeByte
        split
        · rename_i r
          exact absurd rfl (hx r)
        · split
          · rename_i c _
            exact absurd rfl (hsingle c)
          · rw [if_pos (by omega), hm]
      rw [hbyte, Option.bind_some, charValue_eq]

/-- **A rune literal keeps its value exactly when it is portable.** -/
theorem character_iff (hn : goRune w = some n) :
    characterValue w = some (n : Int) ↔ portableRune w = true := by
  unfold goRune at hn
  split at hn
  · exact escape_iff hn
  · rename_i c hc
    split_ifs at hn with hquote
    cases hn
    rw [not_or] at hquote
    have hvalue : characterValue [c] =
        if c = '\'' ∨ c = '\n' ∨ c = '\r' ∨ 128 ≤ c.toNat then none else some (c.toNat : Int) := by
      unfold characterValue
      split <;> simp_all
    have hport : portableRune [c] = (decide (c.toNat < 128) && c != '\r') := by
      unfold portableRune
      split <;> simp_all
    rw [hvalue, hport]
    by_cases hr : c = '\r'
    · simp [hr]
    · by_cases hascii : c.toNat < 128
      · simp [hquote, hr, hascii]
      · simp [hascii, hr]
  · cases hn

end

/-! ## Literals -/

/-- The first character of an integer literal is a digit. -/
theorem head_of_goInteger {w : Text} {n : Nat} (h : goInteger w = some n) :
    w.head? ≠ some '\'' := by
  intro hw
  obtain ⟨ds, rfl⟩ := List.head?_eq_some_iff.mp hw
  have hspoiled : digitsValue 10 (('\'' :: ds).filter (· ≠ '_')) = none := by
    refine @digitsValue_eq_none 10 '\'' _ (by simp) fun d hd => ?_
    cases hd
  have heq : goInteger ('\'' :: ds) = goDigits 10 ('\'' :: ds) := rfl
  rw [heq, goDigits, hspoiled, ite_self] at h
  cases h

/-- **The emitted text of a literal is a C constant of the same value exactly when the
literal is portable.** -/
theorem literal_value_iff {prog : Program} {aliases : Aliases} {pos : Pos} {kind : LitKind}
    {w s : Text} {n : Nat} (hn : goLiteral kind w = some n)
    (h : formatExpr prog aliases (.basicLit pos kind w) = .ok s) :
    (constantValue s).map Prod.snd = some (n : Int) ↔ Portable kind w := by
  cases h
  unfold goLiteral at hn
  split at hn
  · have hportable : Portable .int w ↔
        '_' ∉ w ∧ octalPrefixed w = false ∧ ((goInteger w).getD 0) < 2 ^ 64 := Iff.rfl
    rw [constantValue, if_neg (head_of_goInteger hn), hportable, hn]
    exact integerConstant_iff hn
  · obtain ⟨body, hbody, hrune⟩ := Option.bind_eq_some_iff.mp hn
    have hhead : w.head? = some '\'' := by
      unfold unquote at hbody
      split at hbody
      · rfl
      · cases hbody
    rw [constantValue, if_pos hhead, Portable, hbody, Option.bind_some, Option.map_map,
      Option.map_some, Option.getD_some, ← character_iff hrune]
    cases characterValue body <;> simp
  · cases hn

/-- `0x7f` and `'\n'` keep their value. -/
theorem portable_literals :
    (constantValue "0x7f").map Prod.snd = some 127 ∧
      (constantValue "'\\n'").map Prod.snd = some 10 := by
  have hhex := @literal_value_iff (emptyProgram (paramInfo (.basic .uint32))) [] 10 .int "0x7f"
    "0x7f" 127 rfl rfl
  have hrune := @literal_value_iff (emptyProgram (paramInfo (.basic .uint32))) [] 10 .char
    "'\\n'" "'\\n'" 10 rfl rfl
  exact ⟨hhex.mpr (by decide), hrune.mpr (by decide)⟩

/-- `'\xff'` is the rune 255 in Go and the `int` -1 in C; `1_000` is no constant of C at
all. -/
theorem foreign_literals :
    goLiteral .char "'\\xff'" = some 255 ∧
      formatExpr (emptyProgram (paramInfo (.basic .int32))) [] (.basicLit 10 .char "'\\xff'") =
        .ok "'\\xff'" ∧
      (constantValue "'\\xff'").map Prod.snd = some (-1) ∧
      goLiteral .int "1_000" = some 1000 ∧
      formatExpr (emptyProgram (paramInfo (.basic .int32))) [] (.basicLit 10 .int "1_000") =
        .ok "1_000" ∧
      constantValue "1_000" = none :=
  ⟨by decide, rfl, by decide, by decide, rfl, by decide⟩

end Gobee
