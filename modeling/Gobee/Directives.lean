/-
# Directive values

The value of a license or section directive goes through four steps: the comment is split at
white space, fields with a `=` are set aside, the first argument is kept, and `%q` prints it
as a Go string that C reads again.

* `stringBytes_quoted_iff` : **when C reads back what `%q` printed**;
* `directives_verbatim_iff` : **the values that arrive in the C text as they were written**.
-/
import Gobee.CString
import Gobee.KeptFunctions
import Gobee.Support

namespace Gobee

open CSyntax

/-! ## The fields of a directive -/

theorem not_isSpace_of_mem_splitOnP {s w : Text} (h : w ∈ s.splitOnP isSpace) :
    ∀ c ∈ w, isSpace c = false := by
  induction s generalizing w with
  | nil =>
      rw [List.splitOnP_nil, List.mem_singleton] at h
      rw [h]
      exact fun c hc => absurd hc List.not_mem_nil
  | cons d s ih =>
      rw [List.splitOnP_cons_eq_if_modifyHead] at h
      split_ifs at h with hd
      · rcases List.mem_cons.mp h with rfl | h
        · exact fun c hc => absurd hc List.not_mem_nil
        · exact ih h
      · obtain ⟨v, vs, hsplit⟩ :=
          List.exists_cons_of_ne_nil (List.splitOnP_ne_nil isSpace s)
        rw [hsplit] at h ih
        rcases List.mem_cons.mp h with rfl | h
        · exact List.forall_mem_cons.mpr ⟨by simpa using hd, ih List.mem_cons_self⟩
        · exact ih (List.mem_cons_of_mem _ h)

/-- A field has no white space. -/
theorem not_isSpace_of_mem_fields {s w : Text} (h : w ∈ fields s) : ∀ c ∈ w, isSpace c = false :=
  not_isSpace_of_mem_splitOnP (List.mem_of_mem_filter h)

theorem fields_eq_singleton {s : Text} (hne : s ≠ []) (h : ∀ c ∈ s, isSpace c = false) :
    fields s = [s] := by
  rw [fields, List.splitOnP_eq_singleton h, List.filter_cons_of_pos (by simpa using hne),
    List.filter_nil]

theorem fields_cons {w s : Text} (hne : w ≠ []) (h : ∀ c ∈ w, isSpace c = false) :
    fields (w ++ ' ' :: s) = w :: fields s := by
  rw [fields, List.splitOnP_append_cons_of_forall_mem h ' ' rfl,
    List.filter_cons_of_pos (by simpa using hne)]
  rfl

/-- The value is one argument: white space ends a field, and a field with `=` is a pair. -/
def OneArgument (s : Text) : Prop := ∀ c ∈ s, isSpace c = false ∧ c ≠ '='

/-- The arguments among the fields. -/
def arguments (s : Text) : List Text := (fields s).filter fun f => !('=' ∈ f)

theorem head?_arguments_iff {s : Text} (hne : s ≠ []) :
    (arguments s).head? = some s ↔ OneArgument s := by
  constructor
  · intro h c hc
    obtain ⟨hfield, heq⟩ := List.mem_filter.mp (List.mem_of_mem_head? h)
    refine ⟨not_isSpace_of_mem_fields hfield c hc, ?_⟩
    rintro rfl
    simp [hc] at heq
  · intro h
    have hno : '=' ∉ s := fun hmem => (h _ hmem).2 rfl
    rw [arguments, fields_eq_singleton hne fun c hc => (h c hc).1,
      List.filter_cons_of_pos (by simpa using hno)]
    rfl

/-- The text of a directive comment. -/
def directiveComment (name s : Text) : Text := directivePrefix ++ (name ++ ' ' :: s)

/-- A name without white space is read with the fields behind it. -/
theorem parseDirective_comment {name : Text} (hne : name ≠ []) (h : name.any isSpace = false)
    (s : Text) : parseDirective (directiveComment name s) = .ok (some ⟨name, arguments s⟩) := by
  have hspace : ∀ c ∈ name, isSpace c = false := by simpa using List.any_eq_false.mp h
  have hprefix : directivePrefix.isPrefixOf (directiveComment name s) = true :=
    List.isPrefixOf_iff_prefix.mpr (List.prefix_append _ _)
  rw [parseDirective, if_pos hprefix, directiveComment, List.drop_left, fields_cons hne hspace]
  rfl

/-! ## Reading back a quoted string -/

section

variable {isPrint : Char → Bool}

/-- The characters that `%q` prints as `\x` and two digits. -/
def hexEscaped (c : Char) : Bool := (c.toNat < 32 && !(7 ≤ c.toNat && c.toNat ≤ 13)) || c.toNat = 127

/-- The control characters above ASCII. -/
def isUpperControl (c : Char) : Bool := 128 ≤ c.toNat && c.toNat < 160

/-- C reads back the quoted text: it has no control characters above ASCII, and no hexadecimal
digit follows a `\x` escape. -/
structure ReadsBack (s : Text) : Prop where
  controls : ∀ c ∈ s, isUpperControl c = false
  escapes : s.IsChain fun c d => hexEscaped c = true → isHexDigit d = false

/-- What `%q` prints for a character. -/
theorem quoteChar_cases (hprint : ∀ c, isUpperControl c = true → isPrint c = false) (c : Char) :
    (quoteChar isPrint c = [c] ∧ c ≠ '\\' ∧ c ≠ '"' ∧ c ≠ '\n' ∧ hexEscaped c = false ∧
        isUpperControl c = false) ∨
      (∃ e, quoteChar isPrint c = ['\\', e] ∧ e ≠ 'x' ∧ e ≠ 'u' ∧ e ≠ 'U' ∧
        letterEscapes.lookup e = some c.toNat ∧ c.toNat < 128 ∧ hexEscaped c = false) ∨
      (quoteChar isPrint c = '\\' :: 'x' :: hexDigits 2 c.toNat ∧ c.toNat < 128 ∧
        hexEscaped c = true) ∨
      (quoteChar isPrint c = '\\' :: 'u' :: hexDigits 4 c.toNat ∧ 128 ≤ c.toNat ∧
        c.toNat < 16 ^ 4 ∧ hexEscaped c = false) ∨
      (quoteChar isPrint c = '\\' :: 'U' :: hexDigits 8 c.toNat ∧ 16 ^ 4 ≤ c.toNat ∧
        hexEscaped c = false) := by
  have hcode : ∀ d : Char, c ≠ d → c.toNat ≠ d.toNat :=
    fun d hne heq => hne (Char.ext (UInt32.toNat_inj.mp heq))
  -- an escape of one letter
  have hletter : ∀ e : Char, quoteChar isPrint c = ['\\', e] → e ≠ 'x' → e ≠ 'u' → e ≠ 'U' →
      letterEscapes.lookup e = some c.toNat → c.toNat < 128 → hexEscaped c = false →
      ∃ e, quoteChar isPrint c = ['\\', e] ∧ e ≠ 'x' ∧ e ≠ 'u' ∧ e ≠ 'U' ∧
        letterEscapes.lookup e = some c.toNat ∧ c.toNat < 128 ∧ hexEscaped c = false :=
    fun e h hx hu hU hl hlt hhex => ⟨e, h, hx, hu, hU, hl, hlt, hhex⟩
  by_cases h₁ : c = '"'
  · subst h₁
    exact .inr (.inl (hletter '"' rfl (by decide) (by decide) (by decide) rfl (by decide) rfl))
  by_cases h₂ : c = '\\'
  · subst h₂
    exact .inr (.inl (hletter '\\' rfl (by decide) (by decide) (by decide) rfl (by decide) rfl))
  by_cases h₃ : c = '\n'
  · subst h₃
    exact .inr (.inl (hletter 'n' rfl (by decide) (by decide) (by decide) rfl (by decide) rfl))
  by_cases h₄ : c = '\t'
  · subst h₄
    exact .inr (.inl (hletter 't' rfl (by decide) (by decide) (by decide) rfl (by decide) rfl))
  by_cases h₅ : c = '\r'
  · subst h₅
    exact .inr (.inl (hletter 'r' rfl (by decide) (by decide) (by decide) rfl (by decide) rfl))
  have h₃' : c.toNat ≠ 10 := hcode '\n' h₃
  have h₄' : c.toNat ≠ 9 := hcode '\t' h₄
  have h₅' : c.toNat ≠ 13 := hcode '\r' h₅
  have hquote : quoteChar isPrint c =
      if c.toNat = 7 then ['\\', 'a']
      else if c.toNat = 8 then ['\\', 'b']
      else if c.toNat = 12 then ['\\', 'f']
      else if c.toNat = 11 then ['\\', 'v']
      else if c.toNat < 32 || c.toNat = 127 then '\\' :: 'x' :: hexByte c.toNat
      else if c.toNat < 127 || isPrint c then [c]
      else if c.toNat < 0x10000 then '\\' :: 'u' :: hexDigits 4 c.toNat
      else '\\' :: 'U' :: hexDigits 8 c.toNat := by
    rw [quoteChar, if_neg h₁, if_neg h₂, if_neg h₃, if_neg h₄, if_neg h₅]
  have hsmall : ∀ n, 7 ≤ n → n ≤ 13 → c.toNat = n → c.toNat < 128 ∧ hexEscaped c = false := by
    intro n h h' heq
    simp only [hexEscaped, heq]
    interval_cases n <;> decide
  by_cases h₆ : c.toNat = 7
  · obtain ⟨hlt, hhex⟩ := hsmall 7 (by decide) (by decide) h₆
    exact .inr (.inl (hletter 'a' (by rw [hquote, if_pos h₆]) (by decide) (by decide) (by decide)
      (by rw [h₆]; rfl) hlt hhex))
  rw [if_neg h₆] at hquote
  by_cases h₇ : c.toNat = 8
  · obtain ⟨hlt, hhex⟩ := hsmall 8 (by decide) (by decide) h₇
    exact .inr (.inl (hletter 'b' (by rw [hquote, if_pos h₇]) (by decide) (by decide) (by decide)
      (by rw [h₇]; rfl) hlt hhex))
  rw [if_neg h₇] at hquote
  by_cases h₈ : c.toNat = 12
  · obtain ⟨hlt, hhex⟩ := hsmall 12 (by decide) (by decide) h₈
    exact .inr (.inl (hletter 'f' (by rw [hquote, if_pos h₈]) (by decide) (by decide) (by decide)
      (by rw [h₈]; rfl) hlt hhex))
  rw [if_neg h₈] at hquote
  by_cases h₉ : c.toNat = 11
  · obtain ⟨hlt, hhex⟩ := hsmall 11 (by decide) (by decide) h₉
    exact .inr (.inl (hletter 'v' (by rw [hquote, if_pos h₉]) (by decide) (by decide) (by decide)
      (by rw [h₉]; rfl) hlt hhex))
  rw [if_neg h₉] at hquote
  by_cases hx : (c.toNat < 32 || c.toNat = 127) = true
  · rw [if_pos hx] at hquote
    simp only [Bool.or_eq_true, decide_eq_true_eq] at hx
    refine .inr (.inr (.inl ⟨hquote, by omega, ?_⟩))
    simp only [hexEscaped, Bool.or_eq_true, Bool.and_eq_true, Bool.not_eq_true',
      Bool.and_eq_false_iff, decide_eq_true_eq, decide_eq_false_iff_not]
    omega
  · rw [if_neg hx] at hquote
    simp only [Bool.or_eq_true, decide_eq_true_eq, not_or] at hx
    have hhex : hexEscaped c = false := by
      simp only [hexEscaped, Bool.or_eq_false_iff, Bool.and_eq_false_iff, decide_eq_false_iff_not]
      exact ⟨.inl hx.1, hx.2⟩
    by_cases hplain : (c.toNat < 127 || isPrint c) = true
    · rw [if_pos hplain] at hquote
      refine .inl ⟨hquote, h₂, h₁, h₃, hhex, ?_⟩
      cases hcontrol : isUpperControl c with
      | false => rfl
      | true =>
          rw [hprint c hcontrol, Bool.or_false, decide_eq_true_eq] at hplain
          simp only [isUpperControl, Bool.and_eq_true, decide_eq_true_eq] at hcontrol
          omega
    · rw [if_neg hplain] at hquote
      simp only [Bool.or_eq_true, decide_eq_true_eq, not_or] at hplain
      by_cases hlong : c.toNat < 0x10000
      · rw [if_pos hlong] at hquote
        exact .inr (.inr (.inr (.inl ⟨hquote, by omega, hlong, hhex⟩)))
      · rw [if_neg hlong] at hquote
        exact .inr (.inr (.inr (.inr ⟨hquote, by omega, hhex⟩)))

theorem length_hexDigits (k n : Nat) : (hexDigits k n).length = k := by
  induction k generalizing n with
  | zero => rfl
  | succ k ih => rw [hexDigits, List.length_append, ih, List.length_singleton]

theorem isHexDigit_of_mem_hexDigits {k n : Nat} : ∀ c ∈ hexDigits k n, isHexDigit c = true := by
  induction k generalizing n with
  | zero => exact fun c hc => absurd hc List.not_mem_nil
  | succ k ih =>
      intro c hc
      rw [hexDigits] at hc
      rcases List.mem_append.mp hc with hc | hc
      · exact ih c hc
      · rw [List.mem_singleton.mp hc]
        exact isHexDigit_digitChar (Nat.mod_lt _ (by decide))

/-- The digits denote the number. -/
theorem digitsFrom_hexDigits (k n m : Nat) :
    digitsFrom 16 m (hexDigits k n) = some (16 ^ k * m + n % 16 ^ k) := by
  induction k generalizing n with
  | zero => simp [hexDigits, digitsFrom, Nat.mod_one]
  | succ k ih =>
      have hlt : n % 16 < 16 := Nat.mod_lt _ (by decide)
      rw [hexDigits, digitsFrom_append, ih, Option.bind_some, digitsFrom, digitValue_digitChar hlt]
      simp only [hlt, if_true, digitsFrom, Option.some.injEq]
      rw [Nat.pow_succ', Nat.mod_mul, Nat.mul_add, Nat.mul_assoc]
      omega

theorem digitsValue_hexDigits {k n : Nat} (hk : 0 < k) (hn : n < 16 ^ k) :
    digitsValue 16 (hexDigits k n) = some n := by
  have hne : hexDigits k n ≠ [] := by
    intro hnil
    have hlength := length_hexDigits k n
    rw [hnil] at hlength
    exact absurd hlength (Nat.ne_of_lt hk)
  rw [digitsValue, if_neg hne, digitsFrom_hexDigits, Nat.mul_zero, Nat.zero_add,
    Nat.mod_eq_of_lt hn]

/-- A universal character name denotes its character. -/
theorem universalName_hexDigits {k : Nat} {c : Char} (hk : 0 < k) (hlow : 128 ≤ c.toNat)
    (hn : c.toNat < 16 ^ k) (rest : Text) :
    universalName k (hexDigits k c.toNat ++ rest) =
      if isUpperControl c then none else some (String.utf8EncodeChar c, rest) := by
  have htake : (hexDigits k c.toNat ++ rest).take k = hexDigits k c.toNat := by
    rw [List.take_left' (length_hexDigits _ _)]
  have hdrop : (hexDigits k c.toNat ++ rest).drop k = rest := by
    rw [List.drop_left' (length_hexDigits _ _)]
  have hle : k ≤ (hexDigits k c.toNat ++ rest).length := by
    rw [List.length_append, length_hexDigits]
    omega
  rw [universalName, if_pos hle, htake, hdrop, digitsValue_hexDigits hk hn, Option.bind_some,
    universalBytes, Char.ofNat_toNat]
  have hvalid : c.toNat.isValidChar := c.valid
  cases hcontrol : isUpperControl c with
  | true =>
      simp only [isUpperControl, Bool.and_eq_true, decide_eq_true_eq] at hcontrol
      rw [if_neg]
      · rfl
      · simp only [List.mem_cons, List.not_mem_nil, or_false]
        omega
  | false =>
      simp only [isUpperControl, Bool.and_eq_false_iff, decide_eq_false_iff_not] at hcontrol
      rw [if_pos ⟨.inl (by omega), hvalid⟩]
      rfl

/-- A `\x` escape takes all digits that follow. -/
theorem nextBytes_hexEscape {n : Nat} (rest : Text) :
    nextBytes ('\\' :: 'x' :: hexDigits 2 n ++ rest) =
      ((digitsValue 16 (hexDigits 2 n ++ rest.takeWhile isHexDigit)).bind byteOf).map fun bs =>
        (bs, rest.dropWhile isHexDigit) := by
  rw [List.cons_append, nextBytes, if_pos rfl, List.cons_append, escapeBytes, if_pos rfl,
    List.takeWhile_append_of_pos isHexDigit_of_mem_hexDigits,
    List.dropWhile_append_of_pos isHexDigit_of_mem_hexDigits]

/-- **What C reads of a quoted character**, unless a hexadecimal digit follows a `\x` escape. -/
theorem nextBytes_quoteChar (hprint : ∀ c, isUpperControl c = true → isPrint c = false) {c : Char}
    {rest : Text} (hrest : hexEscaped c = true → ∀ d ∈ rest.head?, isHexDigit d = false) :
    nextBytes (quoteChar isPrint c ++ rest) =
      if isUpperControl c then none else some (String.utf8EncodeChar c, rest) := by
  have hlow : c.toNat < 128 → isUpperControl c = false := by
    intro h
    simp only [isUpperControl, Bool.and_eq_false_iff, decide_eq_false_iff_not]
    omega
  rcases quoteChar_cases hprint c with ⟨hq, hb, hquote, hnl, -, hcontrol⟩ |
    ⟨e, hq, hx, hu, hU, hlookup, hlt, -⟩ | ⟨hq, hlt, hhex⟩ | ⟨hq, hle, hlt, -⟩ | ⟨hq, hle, -⟩
  · rw [hq, List.singleton_append, nextBytes, if_neg hb, if_neg (not_or.mpr ⟨hquote, hnl⟩), hcontrol]
    rfl
  · rw [hq, List.cons_append, nextBytes, if_pos rfl, List.singleton_append, escapeBytes, if_neg hx,
      if_neg hu, if_neg hU, hlookup]
    simp only
    rw [byteOf, if_pos (by omega), hlow hlt, utf8EncodeChar_ascii hlt]
    rfl
  · have hspan : rest.takeWhile isHexDigit = [] ∧ rest.dropWhile isHexDigit = rest := by
      cases rest with
      | nil => exact ⟨rfl, rfl⟩
      | cons d t =>
          have hd : isHexDigit d = false := hrest hhex d rfl
          rw [List.takeWhile_cons_of_neg (by simp [hd]), List.dropWhile_cons_of_neg (by simp [hd])]
          exact ⟨rfl, rfl⟩
    rw [hq, nextBytes_hexEscape, hspan.1, hspan.2, List.append_nil, digitsValue_hexDigits (by decide) (by omega), Option.bind_some, byteOf, if_pos (by omega),
      hlow hlt, utf8EncodeChar_ascii hlt]
    rfl
  · rw [hq, List.cons_append, nextBytes, if_pos rfl, List.cons_append, escapeBytes,
      if_neg (by decide), if_pos rfl, universalName_hexDigits (by decide) hle hlt]
  · have hlt : c.toNat < 16 ^ 8 := by
      have hval := c.val.toNat_lt
      exact Nat.lt_of_lt_of_le hval (by decide)
    rw [hq, List.cons_append, nextBytes, if_pos rfl, List.cons_append, escapeBytes,
      if_neg (by decide), if_neg (by decide), if_pos rfl,
      universalName_hexDigits (by decide) (by omega) hlt]

/-- A hexadecimal digit stands for itself. -/
theorem quoteChar_hexDigit {c : Char} (h : isHexDigit c = true) : quoteChar isPrint c = [c] := by
  obtain ⟨n, hn⟩ := Option.isSome_iff_exists.mp h
  have hrange : (48 ≤ c.toNat ∧ c.toNat ≤ 57) ∨ (97 ≤ c.toNat ∧ c.toNat ≤ 102) ∨
      (65 ≤ c.toNat ∧ c.toNat ≤ 70) := by
    rw [digitValue] at hn
    split_ifs at hn with h₁ h₂ h₃
    · exact .inl (Char.isDigit_iff_toNat.mp h₁)
    · exact .inr (.inl (by simpa [Char.le_def, UInt32.le_iff_toNat_le] using h₂))
    · exact .inr (.inr (by simpa [Char.le_def, UInt32.le_iff_toNat_le] using h₃))
  have hne : ∀ d : Char, c.toNat ≠ d.toNat → c ≠ d := fun d h heq => h (by rw [heq])
  have hplain : c.toNat < 127 := by omega
  have hcode : ¬ (c.toNat < 32 || c.toNat = 127) = true := by
    simp only [Bool.or_eq_true, decide_eq_true_eq]
    omega
  rw [quoteChar, if_neg (hne _ ?_), if_neg (hne _ ?_), if_neg (hne _ ?_), if_neg (hne _ ?_),
    if_neg (hne _ ?_), if_neg (by omega), if_neg (by omega), if_neg (by omega), if_neg (by omega),
    if_neg hcode, if_pos (by simp [hplain])]
  all_goals
    intro heq
    revert hrange
    rw [heq]
    decide

/-- The text between the quotes. -/
def quotedBody (isPrint : Char → Bool) (s : Text) : Text := s.flatMap (quoteChar isPrint)

theorem quotedBody_cons (c : Char) (s : Text) :
    quotedBody isPrint (c :: s) = quoteChar isPrint c ++ quotedBody isPrint s :=
  List.flatMap_cons

section

variable (hprint : ∀ c, isUpperControl c = true → isPrint c = false)

include hprint

/-- No other character begins with a digit. -/
theorem exists_quoteChar_cons {c : Char} (h : isHexDigit c = false) :
    ∃ d t, quoteChar isPrint c = d :: t ∧ isHexDigit d = false := by
  have hbackslash : isHexDigit '\\' = false := by decide
  rcases quoteChar_cases hprint c with ⟨hq, -⟩ | ⟨e, hq, -⟩ | ⟨hq, -⟩ | ⟨hq, -⟩ | ⟨hq, -⟩
  · exact ⟨_, _, hq, h⟩
  · exact ⟨_, _, hq, hbackslash⟩
  · exact ⟨_, _, hq, hbackslash⟩
  · exact ⟨_, _, hq, hbackslash⟩
  · exact ⟨_, _, hq, hbackslash⟩

theorem quoteChar_ne_nil (c : Char) : quoteChar isPrint c ≠ [] := by
  cases hc : isHexDigit c with
  | true =>
      rw [quoteChar_hexDigit hc]
      exact List.cons_ne_nil _ _
  | false =>
      obtain ⟨d, t, hq, -⟩ := exists_quoteChar_cons hprint hc
      rw [hq]
      exact List.cons_ne_nil _ _

theorem dropWhile_quotedBody (s : Text) :
    (quotedBody isPrint s).dropWhile isHexDigit = quotedBody isPrint (s.dropWhile isHexDigit) := by
  induction s with
  | nil => rfl
  | cons c s ih =>
      rw [quotedBody_cons]
      cases hc : isHexDigit c with
      | true =>
          rw [quoteChar_hexDigit hc, List.singleton_append, List.dropWhile_cons_of_pos hc,
            List.dropWhile_cons_of_pos hc, ih]
      | false =>
          obtain ⟨d, t, hq, hd⟩ := exists_quoteChar_cons hprint hc
          rw [List.dropWhile_cons_of_neg (by simp [hc]), quotedBody_cons, hq, List.cons_append,
            List.dropWhile_cons_of_neg (by simp [hd])]

theorem head?_quotedBody {s : Text} (h : ∀ d ∈ s.head?, isHexDigit d = false) :
    ∀ d ∈ (quotedBody isPrint s).head?, isHexDigit d = false := by
  cases s with
  | nil => exact fun d hd => h d hd
  | cons c s =>
      obtain ⟨d, t, hq, hd⟩ := exists_quoteChar_cons hprint (h c rfl)
      rw [quotedBody_cons, hq]
      intro e he
      cases he
      exact hd

/-- One character of the text, if no digit follows a `\x` escape. -/
theorem stringBytes_cons {c : Char} {s : Text}
    (h : hexEscaped c = true → ∀ d ∈ s.head?, isHexDigit d = false) :
    stringBytes (quotedBody isPrint (c :: s)) =
      if isUpperControl c then none
      else (stringBytes (quotedBody isPrint s)).map (String.utf8EncodeChar c ++ ·) := by
  have hnext := nextBytes_quoteChar hprint (c := c) fun hc => head?_quotedBody hprint (h hc)
  rw [← quotedBody_cons] at hnext
  have hne : quotedBody isPrint (c :: s) ≠ [] := by
    rw [quotedBody_cons]
    exact List.append_ne_nil_of_left_ne_nil (quoteChar_ne_nil hprint c) _
  cases hcontrol : isUpperControl c with
  | true =>
      rw [hcontrol] at hnext
      exact stringBytes_stuck hne hnext
  | false =>
      rw [hcontrol] at hnext
      exact stringBytes_next hnext

/-- A `\x` escape before a digit swallows it. -/
theorem stringBytes_swallow {c d : Char} {s : Text} {bs : List UInt8} (hc : hexEscaped c = true)
    (hd : isHexDigit d = true)
    (h : stringBytes (quotedBody isPrint (c :: d :: s)) = some bs) :
    ∃ b bs', bs = b :: bs' ∧
      stringBytes (quotedBody isPrint (s.dropWhile isHexDigit)) = some bs' := by
  have hquote : quoteChar isPrint c = '\\' :: 'x' :: hexDigits 2 c.toNat := by
    rcases quoteChar_cases hprint c with ⟨-, -, -, -, hno, -⟩ | ⟨e, -, -, -, -, -, -, hno⟩ |
      ⟨hq, -⟩ | ⟨-, -, -, hno⟩ | ⟨-, -, hno⟩
    · rw [hc] at hno
      cases hno
    · rw [hc] at hno
      cases hno
    · exact hq
    · rw [hc] at hno
      cases hno
    · rw [hc] at hno
      cases hno
  have hdrop : (quotedBody isPrint (d :: s)).dropWhile isHexDigit =
      quotedBody isPrint (s.dropWhile isHexDigit) := by
    rw [dropWhile_quotedBody hprint, List.dropWhile_cons_of_pos hd]
  have hnext := nextBytes_hexEscape (n := c.toNat) (quotedBody isPrint (d :: s))
  rw [hdrop, ← hquote, ← quotedBody_cons] at hnext
  cases hvalue : (digitsValue 16 (hexDigits 2 c.toNat ++
      (quotedBody isPrint (d :: s)).takeWhile isHexDigit)).bind byteOf with
  | none =>
      rw [hvalue, Option.map_none] at hnext
      have hne : quotedBody isPrint (c :: d :: s) ≠ [] := by
        rw [quotedBody_cons]
        exact List.append_ne_nil_of_left_ne_nil (quoteChar_ne_nil hprint c) _
      rw [stringBytes_stuck hne hnext] at h
      cases h
  | some b =>
      rw [hvalue, Option.map_some] at hnext
      rw [stringBytes_next hnext] at h
      obtain ⟨bs', hbs', rfl⟩ := Option.map_eq_some_iff.mp h
      -- the escape is one byte
      obtain ⟨n, -, hn⟩ := Option.bind_eq_some_iff.mp hvalue
      rw [byteOf] at hn
      split_ifs at hn
      cases hn
      exact ⟨_, bs', rfl, hbs'⟩

/-- C reads no more bytes than the text has, and fewer if it swallows a digit. -/
theorem length_stringBytes_le (s : Text) : ∀ bs, stringBytes (quotedBody isPrint s) = some bs →
    bs.length ≤ (utf8 s).length ∧
      ∀ c d t, s = c :: d :: t → hexEscaped c = true → isHexDigit d = true →
        bs.length < (utf8 s).length := by
  induction hlength : s.length using Nat.strongRecOn generalizing s with
  | ind n ih =>
      subst hlength
      intro bs h
      by_cases hswallow : ∃ c d t, s = c :: d :: t ∧ hexEscaped c = true ∧ isHexDigit d = true
      · obtain ⟨c, d, t, rfl, hc, hd⟩ := hswallow
        obtain ⟨b, bs', rfl, hbs'⟩ := stringBytes_swallow hprint hc hd h
        have hshort : (t.dropWhile isHexDigit).length < (c :: d :: t).length := by
          have hle := (List.dropWhile_sublist isHexDigit (l := t)).length_le
          simp only [List.length_cons]
          omega
        have hle := (ih _ hshort _ rfl bs' hbs').1
        have hdrop := length_utf8_dropWhile isHexDigit t
        have hd' := utf8_length_cons d t
        have hc' := utf8_length_cons c (d :: t)
        have hlt : (b :: bs').length < (utf8 (c :: d :: t)).length := by
          rw [List.length_cons]
          omega
        exact ⟨Nat.le_of_lt hlt, fun _ _ _ _ _ _ => hlt⟩
      · refine ⟨?_, fun c d t heq hc hd => absurd ⟨c, d, t, heq, hc, hd⟩ hswallow⟩
        cases s with
        | nil =>
            rw [quotedBody, List.flatMap_nil, stringBytes_nil] at h
            cases h
            exact Nat.le_refl _
        | cons c t =>
            have hnone : hexEscaped c = true → ∀ d ∈ t.head?, isHexDigit d = false := by
              intro hc d hd
              by_contra hhex
              obtain ⟨t', rfl⟩ : ∃ t', t = d :: t' := List.head?_eq_some_iff.mp hd
              exact hswallow ⟨c, d, t', rfl, hc, by simpa using hhex⟩
            rw [stringBytes_cons hprint hnone] at h
            split_ifs at h
            obtain ⟨bs', hbs', rfl⟩ := Option.map_eq_some_iff.mp h
            have hle := (ih t.length (Nat.lt_succ_self _) t rfl bs' hbs').1
            rw [utf8_cons, List.length_append, List.length_append]
            omega

/-- **C reads back the quoted text exactly in these cases.** -/
theorem stringBytes_quoted_iff (s : Text) :
    stringBytes (quotedBody isPrint s) = some (utf8 s) ↔ ReadsBack s := by
  induction s with
  | nil => exact iff_of_true stringBytes_nil ⟨by simp, .nil⟩
  | cons c t ih =>
      by_cases hnone : hexEscaped c = true → ∀ d ∈ t.head?, isHexDigit d = false
      · have hcons : ReadsBack (c :: t) ↔ isUpperControl c = false ∧ ReadsBack t := by
          constructor
          · rintro ⟨hcontrols, hescapes⟩
            rw [List.forall_mem_cons] at hcontrols
            exact ⟨hcontrols.1, hcontrols.2, (List.isChain_cons.mp hescapes).2⟩
          · rintro ⟨hc, hcontrols, hescapes⟩
            exact ⟨List.forall_mem_cons.mpr ⟨hc, hcontrols⟩,
              List.isChain_cons.mpr ⟨fun d hd hhex => hnone hhex d hd, hescapes⟩⟩
        rw [stringBytes_cons hprint hnone, hcons, ← ih, utf8_cons]
        cases isUpperControl c with
        | true => simp
        | false =>
            cases stringBytes (quotedBody isPrint t) with
            | none => simp
            | some bs => simp
      · push Not at hnone
        obtain ⟨hc, d, hd, hhex⟩ := hnone
        obtain ⟨t', rfl⟩ : ∃ t', t = d :: t' := List.head?_eq_some_iff.mp hd
        have hdigit : isHexDigit d = true := by simpa using hhex
        refine iff_of_false (fun heq => ?_) (fun hreads => ?_)
        · have hlt := (length_stringBytes_le hprint _ _ heq).2 c d t' rfl hc hdigit
          exact Nat.lt_irrefl _ hlt
        · have hno := (List.isChain_cons.mp hreads.escapes).1 d rfl hc
          exact hhex hno

/-- **The literal denotes the text exactly in these cases.** -/
theorem stringLiteral_quoteWith_iff (s : Text) :
    stringLiteral (quoteWith isPrint s) = some (utf8 s) ↔ ReadsBack s := by
  have hlast : (quotedBody isPrint s ++ ['"']).getLast? = some '"' := List.getLast?_concat
  rw [← stringBytes_quoted_iff hprint, quoteWith, stringLiteral]
  rw [← quotedBody, if_pos hlast, List.dropLast_concat]

end

end

/-! ## From the comment to the C text -/

/-- The line of `writeLicense`. -/
def licenseLine (lit : Text) : Text := "char _license[] SEC(\"license\") = " ++ lit ++ ";\n\n"

/-- The line of `writeProgram` before the function. -/
def sectionLine (lit : Text) : Text := "SEC(" ++ lit ++ ")\n"

theorem licenseLine_inj {lit lit' : Text} (h : licenseLine lit = licenseLine lit') : lit = lit' :=
  List.append_cancel_left (List.append_cancel_right h)

theorem sectionLine_inj {lit lit' : Text} (h : sectionLine lit = sectionLine lit') : lit = lit' :=
  List.append_cancel_left (List.append_cancel_right h)

/-- The directive of a comment, if it parses. -/
def Comment.directive (c : Comment) : Option Directive :=
  match parseDirective c.text with
  | .ok d => d
  | .error _ => none

/-- The comment is a directive of the name. -/
def Comment.IsDirective (name : Text) (c : Comment) : Prop :=
  ∃ args, c.directive = some ⟨name, args⟩

/-- `//bpf:license S` counts if no license directive follows. -/
def LicenseOf (file : File) (s : Text) : Prop :=
  ∃ pre c post, file.comments = pre ++ c :: post ∧ c.text = directiveComment "license" s ∧
    ∀ d ∈ post, ¬ d.IsDirective "license"

/-- `//bpf:section S` counts if it is the first section directive of the doc comment. -/
def SectionOf (doc : List Comment) (s : Text) : Prop :=
  ∃ pre c post, doc = pre ++ c :: post ∧ c.text = directiveComment "section" s ∧
    ∀ d ∈ pre, ¬ d.IsDirective "section"

/-- A license arrives as it was written: the comment is accepted, `ParseFile` stores the text,
and the literal in the C text denotes its bytes. -/
structure LicenseVerbatim (isPrint : Char → Bool) (s : Text) : Prop where
  accepted : ∀ file c license, c.text = directiveComment "license" s →
    collectLicense file [c] license = .ok s
  stored : ∀ file prog, LicenseOf file s → parseFile file = .ok prog → prog.license = s
  written : ∀ prog n, prog.isPrint = isPrint → prog.license = s →
    ∃ lit, writeLicense prog n = .ok ((), n, [.writef (licenseLine lit)]) ∧
      stringLiteral lit = some (utf8 s)
  emitted : ∀ prog label text ms, prog.isPrint = isPrint → prog.license = s →
    emit prog label = .ok (text, ms) →
    ∃ lit before after, text = before ++ licenseLine lit ++ after ∧
      stringLiteral lit = some (utf8 s)

/-- A section arrives as it was written. -/
structure SectionVerbatim (isPrint : Char → Bool) (s : Text) : Prop where
  accepted : ∀ file doc fd, SectionOf doc s → collectFunc file doc fd =
    .ok { Collected.empty with programs := [⟨fd.name.name, s, file.position fd.pos, fd⟩] }
  stored : ∀ file prog doc fd, (doc, fd) ∈ funcDecls file.decls → SectionOf doc s →
    parseFile file = .ok prog → ⟨fd.name.name, s, file.position fd.pos, fd⟩ ∈ prog.programs
  written : ∀ prog (p : ProgramFunc) n n' acts, prog.isPrint = isPrint → p.section_ = s →
    writeProgram prog p n = .ok ((), n', acts) →
    ∃ lit rest, acts = .recordPos p.decl.pos :: .writef (sectionLine lit) :: rest ∧
      stringLiteral lit = some (utf8 s)
  emitted : ∀ prog label text ms (p : ProgramFunc), prog.isPrint = isPrint →
    p ∈ prog.programs → p.section_ = s → emit prog label = .ok (text, ms) →
    ∃ lit before after, text = before ++ sectionLine lit ++ after ∧
      stringLiteral lit = some (utf8 s)

section

variable {isPrint : Char → Bool} {s : Text}

theorem docDirective_eq (doc : List Comment) (name : Text) :
    docDirective doc name = (doc.filterMap Comment.directive).find? fun d => d.name == name :=
  rfl

theorem directive_comment {c : Comment} {name : Text} (hne : name ≠ [])
    (hname : name.any isSpace = false) (h : c.text = directiveComment name s) :
    c.directive = some ⟨name, arguments s⟩ := by
  rw [Comment.directive, h, parseDirective_comment hne hname]

theorem docDirective_of_sectionOf {doc : List Comment} (h : SectionOf doc s) :
    docDirective doc "section" = some ⟨"section", arguments s⟩ := by
  obtain ⟨pre, c, post, rfl, hc, hpre⟩ := h
  have hdirective := directive_comment (by decide) (by decide) hc
  have hnone : (pre.filterMap Comment.directive).find? (fun d => d.name == ("section" : Text)) =
      none := by
    rw [List.find?_eq_none]
    intro d hd hname
    obtain ⟨c', hc', hd⟩ := List.mem_filterMap.mp hd
    obtain ⟨name, args⟩ := d
    obtain rfl : name = ("section" : Text) := eq_of_beq hname
    exact hpre c' hc' ⟨args, hd⟩
  rw [docDirective_eq, List.filterMap_append, List.find?_append, hnone, List.filterMap_cons,
    hdirective]
  rfl

/-- One license comment. -/
theorem collectLicense_cons {file : File} {c : Comment} (rest : List Comment) (license : Text)
    (h : c.text = directiveComment "license" s) :
    collectLicense file (c :: rest) license =
      match arguments s with
      | [] => errorf (file.posText c.pos ++ ": //bpf:license requires a name (e.g. GPL)")
      | a :: _ => collectLicense file rest a := by
  have hparse := @parseDirective_comment "license" (by decide) (by decide) s
  rw [collectLicense, h, hparse]
  rfl

/-- Comments without a license directive keep the license. -/
theorem collectLicense_keeps {file : File} {cs : List Comment}
    (h : ∀ d ∈ cs, ¬ d.IsDirective "license") :
    ∀ {license l : Text}, collectLicense file cs license = .ok l → l = license := by
  induction cs with
  | nil =>
      intro license l hl
      cases hl
      rfl
  | cons c cs ih =>
      intro license l hl
      rw [List.forall_mem_cons] at h
      rw [collectLicense] at hl
      obtain ⟨d, hd, hl⟩ := bind_ok hl
      cases d with
      | none => exact ih h.2 hl
      | some d =>
          obtain ⟨name, args⟩ := d
          have hname : name ≠ "license" := by
            rintro rfl
            refine h.1 ⟨args, ?_⟩
            rw [Comment.directive, wrapError_ok hd]
          simp only [if_neg hname] at hl
          exact ih h.2 hl

theorem collectLicense_append {file : File} {pre rest : List Comment} :
    ∀ {license l : Text}, collectLicense file (pre ++ rest) license = .ok l →
      ∃ license', collectLicense file rest license' = .ok l := by
  induction pre with
  | nil => exact fun hl => ⟨_, hl⟩
  | cons c pre ih =>
      intro license l hl
      rw [List.cons_append, collectLicense] at hl
      obtain ⟨d, -, hl⟩ := bind_ok hl
      rcases d with _ | ⟨name, args⟩
      · exact ih hl
      · simp only at hl
        split_ifs at hl
        · cases args with
          | nil => cases hl
          | cons a args => exact ih hl
        · exact ih hl

/-- An emitted `writef` stands in the text. -/
theorem writef_in_text {prog : Program} {acts before after : List Act} {line : Text}
    (h : acts = before ++ .writef line :: after) :
    ∃ pre post, (Emitter.after prog acts).buf = pre ++ line ++ post := by
  obtain ⟨post, hpost⟩ :=
    acts_buf prog ((Emitter.new.acts prog before).act prog (.writef line)) after
  refine ⟨(Emitter.new.acts prog before).buf, post, ?_⟩
  rw [Emitter.after, h, acts_append, acts_cons, hpost]
  rfl

/-- The comment is accepted exactly if its value is one argument. -/
theorem collectLicense_iff {file : File} {c : Comment} {license : Text} (hne : s ≠ [])
    (h : c.text = directiveComment "license" s) :
    collectLicense file [c] license = .ok s ↔ OneArgument s := by
  rw [collectLicense_cons [] license h, ← head?_arguments_iff hne]
  cases arguments s with
  | nil => exact iff_of_false (fun heq => nomatch heq) (fun heq => nomatch heq)
  | cons a args =>
      show Except.ok a = Except.ok s ↔ _
      rw [List.head?_cons, Option.some.injEq, Except.ok.injEq]

theorem collectFunc_iff {file : File} {doc : List Comment} {fd : FuncDecl} (hne : s ≠ [])
    (h : SectionOf doc s) :
    collectFunc file doc fd =
      .ok { Collected.empty with programs := [⟨fd.name.name, s, file.position fd.pos, fd⟩] } ↔
      OneArgument s := by
  rw [collectFunc, docDirective_of_sectionOf h, ← head?_arguments_iff hne]
  cases arguments s with
  | nil => exact iff_of_false (fun heq => nomatch heq) (fun heq => nomatch heq)
  | cons a args =>
      simp only [Except.ok.injEq, List.head?_cons, Option.some.injEq]
      constructor
      · intro heq
        have hprograms := congrArg Collected.programs heq
        simp only [List.cons.injEq, ProgramFunc.mk.injEq, and_true, true_and] at hprograms
        exact hprograms
      · rintro rfl
        rfl

theorem license_stored {file : File} {prog : Program} (hs : OneArgument s) (hne : s ≠ [])
    (h : LicenseOf file s) (hparse : parseFile file = .ok prog) : prog.license = s := by
  obtain ⟨pre, c, post, hcomments, hc, hpost⟩ := h
  obtain ⟨license, hlicense, hparse⟩ := bind_ok hparse
  obtain ⟨cs, -, hparse⟩ := bind_ok hparse
  rw [hcomments] at hlicense
  obtain ⟨license', hlicense'⟩ := collectLicense_append hlicense
  rw [collectLicense_cons post license' hc] at hlicense'
  obtain ⟨args, hargs⟩ := List.head?_eq_some_iff.mp ((head?_arguments_iff hne).mpr hs)
  rw [hargs] at hlicense'
  have heq := collectLicense_keeps hpost hlicense'
  split at hparse
  · cases hparse
  · split at hparse
    · cases hparse
    · cases hparse
      exact heq

theorem section_stored {file : File} {prog : Program} {doc : List Comment} {fd : FuncDecl}
    (hs : OneArgument s) (hne : s ≠ []) (hmem : (doc, fd) ∈ funcDecls file.decls)
    (h : SectionOf doc s) (hparse : parseFile file = .ok prog) :
    ⟨fd.name.name, s, file.position fd.pos, fd⟩ ∈ prog.programs := by
  obtain ⟨args, hargs⟩ := List.head?_eq_some_iff.mp ((head?_arguments_iff hne).mpr hs)
  have hprogram : programOf file (doc, fd) = some ⟨fd.name.name, s, file.position fd.pos, fd⟩ := by
    rw [programOf, docDirective_of_sectionOf h, hargs]
  rw [(parseFile_ok hparse).1]
  exact List.mem_filterMap.mpr ⟨_, hmem, hprogram⟩

theorem writeProgram_section {prog : Program} {p : ProgramFunc} {n n' : Names} {acts : List Act}
    (h : writeProgram prog p n = .ok ((), n', acts)) :
    ∃ rest, acts = .recordPos p.decl.pos ::
      .writef (sectionLine (quoteWith prog.isPrint p.section_)) :: rest := by
  have hout := out_eq_some.mpr h
  rw [writeProgram, out_bind, recordPos, out_perform, Option.bind_some] at hout
  obtain ⟨r, hr, heq⟩ := Option.map_eq_some_iff.mp hout
  rw [out_bind, writef, out_perform, Option.bind_some] at hr
  obtain ⟨r', -, rfl⟩ := Option.map_eq_some_iff.mp hr
  cases heq
  exact ⟨_, rfl⟩

theorem license_in_text {prog : Program} {label text : Text} {ms : List SourceMapping}
    (h : emit prog label = .ok (text, ms)) :
    ∃ before after, text = before ++ licenseLine (quoteWith prog.isPrint prog.license) ++ after := by
  obtain ⟨n, defs, -, htext, -⟩ := emit_defs h
  have hsplit : supportActs prog label ++ defs =
      headerActs label (usesKernelFieldAccess prog) (usesEndianHelpers prog) ++
        .writef (licenseLine (quoteWith prog.isPrint prog.license)) ::
          (preludeActs (usedPreludeHelpers prog) ++ defs) := by
    rw [supportActs, List.append_assoc]
    rfl
  obtain ⟨before, after, hbuf⟩ := writef_in_text hsplit
  exact ⟨before, after, htext.trans hbuf⟩

theorem section_in_text {prog : Program} {label text : Text} {ms : List SourceMapping}
    {p : ProgramFunc} (hp : p ∈ prog.programs) (h : emit prog label = .ok (text, ms)) :
    ∃ before after, text = before ++ sectionLine (quoteWith prog.isPrint p.section_) ++ after := by
  obtain ⟨⟨_, n, acts⟩, hacts, heq⟩ := bind_ok h
  obtain ⟨occs, hocc⟩ := emit_composed hacts
  cases heq
  -- the place where the program is written
  have hmem : Construct.program p ∈ occs.map Occurrence.construct := by
    rw [hocc.constructs]
    exact List.mem_append_right _ (List.mem_flatMap.mpr ⟨p, hp, List.mem_cons_self⟩)
  obtain ⟨o, ho, hconstruct⟩ := List.mem_map.mp hmem
  obtain ⟨hsplit, -, n₁, n₂, hwrite⟩ := hocc.within o ho
  replace hsplit : acts = o.before ++ o.own ++ o.after := hsplit
  rw [hconstruct] at hwrite
  obtain ⟨rest, hown⟩ := writeProgram_section hwrite
  have hat : acts = (o.before ++ [.recordPos p.decl.pos]) ++
      .writef (sectionLine (quoteWith prog.isPrint p.section_)) :: (rest ++ o.after) := by
    rw [hsplit, hown]
    simp
  exact writef_in_text hat

/-- **A license arrives exactly if it is one argument that C reads back.** -/
theorem licenseVerbatim_iff (hprint : ∀ c, isUpperControl c = true → isPrint c = false)
    (hne : s ≠ []) : LicenseVerbatim isPrint s ↔ OneArgument s ∧ ReadsBack s := by
  constructor
  · rintro ⟨haccepted, -, hwritten, -⟩
    constructor
    · let c : Comment := ⟨1, directiveComment "license" s⟩
      exact (collectLicense_iff (c := c) hne rfl).mp (haccepted methodFile c [] rfl)
    · obtain ⟨lit, hwrite, hlit⟩ :=
        hwritten { methodProgram with license := s, isPrint := isPrint } ⟨[], 0⟩ rfl rfl
      obtain rfl : quoteWith isPrint s = lit := by
        have hacts := congrArg (fun r => r.2.2) (Except.ok.inj hwrite)
        exact licenseLine_inj (Act.writef.inj (List.cons.inj hacts).1)
      exact (stringLiteral_quoteWith_iff hprint s).mp hlit
  · rintro ⟨hs, hreads⟩
    have hlit := (stringLiteral_quoteWith_iff hprint s).mpr hreads
    refine ⟨fun file c license hc => (collectLicense_iff hne hc).mpr hs,
      fun file prog h hparse => license_stored hs hne h hparse, ?_, ?_⟩
    · rintro prog n rfl rfl
      exact ⟨_, rfl, hlit⟩
    · rintro prog label text ms rfl rfl hemit
      obtain ⟨before, after, htext⟩ := license_in_text hemit
      exact ⟨_, before, after, htext, hlit⟩

/-- **A section arrives exactly in the same cases.** -/
theorem sectionVerbatim_iff (hprint : ∀ c, isUpperControl c = true → isPrint c = false)
    (hne : s ≠ []) : SectionVerbatim isPrint s ↔ OneArgument s ∧ ReadsBack s := by
  constructor
  · rintro ⟨haccepted, -, hwritten, -⟩
    constructor
    · have hdoc : SectionOf [⟨1, directiveComment "section" s⟩] s :=
        ⟨[], _, [], rfl, rfl, by simp⟩
      exact (collectFunc_iff hne hdoc).mp (haccepted methodFile _ passDecl hdoc)
    · have hwrite : ∃ n acts, writeProgram { methodProgram with isPrint := isPrint }
          ⟨"Pass", s, ⟨"x.go", 100, 1⟩, passDecl⟩ ⟨[], 0⟩ = .ok ((), n, acts) := ⟨_, _, rfl⟩
      obtain ⟨n, acts, hwrite⟩ := hwrite
      obtain ⟨lit, rest, hacts, hlit⟩ := hwritten _ _ _ _ _ rfl rfl hwrite
      obtain ⟨rest', hacts'⟩ := writeProgram_section hwrite
      rw [hacts] at hacts'
      obtain rfl : lit = quoteWith isPrint s := by
        have hline := List.cons.inj (List.cons.inj hacts').2
        exact sectionLine_inj (Act.writef.inj hline.1)
      exact (stringLiteral_quoteWith_iff hprint s).mp hlit
  · rintro ⟨hs, hreads⟩
    have hlit := (stringLiteral_quoteWith_iff hprint s).mpr hreads
    refine ⟨fun file doc fd h => (collectFunc_iff hne h).mpr hs,
      fun file prog doc fd hmem h hparse => section_stored hs hne hmem h hparse, ?_, ?_⟩
    · rintro prog p n n' acts rfl rfl hwrite
      obtain ⟨rest, hacts⟩ := writeProgram_section hwrite
      exact ⟨_, rest, hacts, hlit⟩
    · rintro prog label text ms p rfl hp rfl hemit
      obtain ⟨before, after, htext⟩ := section_in_text hp hemit
      exact ⟨_, before, after, htext, hlit⟩

/-- **The values that arrive verbatim**: one argument without `=`, which C reads back. -/
theorem directives_verbatim_iff (hprint : ∀ c, isUpperControl c = true → isPrint c = false)
    (hne : s ≠ []) :
    (LicenseVerbatim isPrint s ↔ OneArgument s ∧ ReadsBack s) ∧
      (SectionVerbatim isPrint s ↔ OneArgument s ∧ ReadsBack s) :=
  ⟨licenseVerbatim_iff hprint hne, sectionVerbatim_iff hprint hne⟩

end

/-! ## Two licenses -/

/-- Everything from the no-break space on is printable. -/
def latinPrint (c : Char) : Bool := 160 ≤ c.toNat

theorem latinPrint_control (c : Char) (h : isUpperControl c = true) : latinPrint c = false := by
  simp only [isUpperControl, Bool.and_eq_true, decide_eq_true_eq] at h
  simp only [latinPrint, decide_eq_false_iff_not]
  omega

theorem plain_verbatim {s : Text}
    (h : (s.all fun c => !isSpace c && c != '=' && !isUpperControl c && !hexEscaped c) = true) :
    OneArgument s ∧ ReadsBack s := by
  have hchars : ∀ c ∈ s, ((isSpace c = false ∧ c ≠ '=') ∧ isUpperControl c = false) ∧
      hexEscaped c = false := by
    intro c hc
    simpa using List.all_eq_true.mp h c hc
  refine ⟨fun c hc => (hchars c hc).1.1, fun c hc => (hchars c hc).1.2, ?_⟩
  refine (List.pairwise_of_forall_mem_list fun c hc d _ hhex => ?_).isChain
  rw [(hchars c hc).2] at hhex
  cases hhex

/-- `GPL` and `xdp` arrive. -/
theorem gpl_verbatim : LicenseVerbatim latinPrint "GPL" ∧ SectionVerbatim latinPrint "xdp" := by
  have hgpl := plain_verbatim (s := "GPL") (by decide)
  have hxdp := plain_verbatim (s := "xdp") (by decide)
  exact ⟨(directives_verbatim_iff latinPrint_control (s := "GPL") (by decide)).1.mpr hgpl,
    (directives_verbatim_iff latinPrint_control (s := "xdp") (by decide)).2.mpr hxdp⟩

/-- The file with another license. -/
def dualFile : File :=
  { methodFile with
    comments := [⟨20, directiveComment "license" "Dual BSD/GPL"⟩, ⟨80, "//bpf:section xdp"⟩] }

/-- Its program. -/
def dualProgram : Program := { methodProgram with license := "Dual" }

/-- The license `Dual BSD/GPL` becomes `Dual`. -/
theorem dual_truncated :
    parseFile dualFile = .ok dualProgram ∧ validate dualProgram = [] ∧
      (∃ out, emit dualProgram "x.go" = .ok out) ∧
      ¬ LicenseVerbatim latinPrint "Dual BSD/GPL" := by
  have hparse : parseFile dualFile = .ok dualProgram := rfl
  have hfindings : findings dualProgram = [] := rfl
  refine ⟨hparse, validate_eq_nil.mpr hfindings, ⟨_, rfl⟩, fun h => ?_⟩
  have hlicense : LicenseOf dualFile "Dual BSD/GPL" := by
    refine ⟨[], _, [⟨80, "//bpf:section xdp"⟩], rfl, rfl, ?_⟩
    intro d hd
    rw [List.mem_singleton.mp hd]
    rintro ⟨args, hargs⟩
    have hsection : Comment.directive ⟨80, "//bpf:section xdp"⟩ = some ⟨"section", ["xdp"]⟩ := rfl
    rw [hsection] at hargs
    exact absurd (Directive.mk.inj (Option.some.inj hargs)).1 (by decide)
  exact absurd (h.stored _ _ hlicense hparse) (by decide)

end Gobee
