/-
# The package name of the bindings

`sanitizePackageName` makes the package name of the generated bindings from the name of
their directory, byte by byte.

* `sanitizePackageName_idempotent` : a second run changes nothing;
* `packageName_legal_iff` : **exactly which directories give a legal package name**.
-/
import Gobee.BindingNames
import Gobee.CString

namespace Gobee

open CSyntax

/-! ## The bytes of a name -/

/-- `a` to `z`. -/
def isLowerByte (c : UInt8) : Bool := 97 ≤ c && c ≤ 122

/-- `A` to `Z`. -/
def isUpperByte (c : UInt8) : Bool := 65 ≤ c && c ≤ 90

/-- `0` to `9`. -/
def isDigitByte (c : UInt8) : Bool := 48 ≤ c && c ≤ 57

/-- A capital letter in lower case, any other byte as it is. -/
def lowerByte (c : UInt8) : UInt8 := if isUpperByte c then c + (97 - 65) else c

/-- The byte that the loop of `sanitizePackageName` appends. -/
def packageByte (c : UInt8) : UInt8 :=
  if isLowerByte c || isDigitByte c then c
  else if isUpperByte c then c + (97 - 65)
  else 95

/-- `sanitizePackageName`. -/
def sanitizePackageName (s : List UInt8) : List UInt8 :=
  if s = [] then utf8 "bpf"
  else
    let out := s.map packageByte
    if out.length = 0 then utf8 "bpf"
    else if out.head?.any isDigitByte then 95 :: out
    else out

/-- A byte of a package name: a small letter, a digit or the underscore. -/
def isPackageByte (c : UInt8) : Bool := isLowerByte c || isDigitByte c || c == 95

/-- What a statement about one byte comes to. -/
theorem forall_byte {P : UInt8 → Bool}
    (h : ((List.range 256).all fun n => P (UInt8.ofNat n)) = true) (c : UInt8) : P c = true := by
  have hc := List.all_eq_true.mp h c.toNat (List.mem_range.mpr c.toNat_lt)
  rwa [UInt8.ofNat_toNat] at hc

theorem isPackageByte_packageByte (c : UInt8) : isPackageByte (packageByte c) = true :=
  forall_byte (P := fun c => isPackageByte (packageByte c)) (by decide +kernel) c

/-- The loop keeps the bytes of a package name. -/
theorem packageByte_eq {c : UInt8} (h : isPackageByte c = true) : packageByte c = c := by
  have hall := forall_byte (P := fun c => !isPackageByte c || packageByte c == c)
    (by decide +kernel) c
  simpa [h] using hall

/-- Where the loop or the lower case gives a small letter, they agree. -/
theorem packageByte_eq_lowerByte {c : UInt8}
    (h : isLowerByte (packageByte c) = true ∨ isLowerByte (lowerByte c) = true) :
    packageByte c = lowerByte c := by
  have hall := forall_byte (P := fun c => !(isLowerByte (packageByte c) || isLowerByte (lowerByte c)) ||
    packageByte c == lowerByte c) (by decide +kernel) c
  have hor : (isLowerByte (packageByte c) || isLowerByte (lowerByte c)) = true := by
    rwa [Bool.or_eq_true]
  simpa [hor] using hall

/-- What the loop replaces by the underscore. -/
theorem packageByte_underscore (c : UInt8) :
    packageByte c = 95 ↔ (isLowerByte c || isUpperByte c || isDigitByte c) = false := by
  have hall := forall_byte (P := fun c => (packageByte c == 95) ==
    !(isLowerByte c || isUpperByte c || isDigitByte c)) (by decide +kernel) c
  rw [beq_iff_eq] at hall
  rw [← beq_iff_eq, hall, Bool.not_eq_true']

theorem isDigitByte_packageByte (c : UInt8) : isDigitByte (packageByte c) = isDigitByte c := by
  have hall := forall_byte (P := fun c => isDigitByte (packageByte c) == isDigitByte c)
    (by decide +kernel) c
  exact beq_iff_eq.mp hall

theorem not_isLowerByte_of_digit {c : UInt8} (h : isDigitByte c = true) :
    isLowerByte (lowerByte c) = false := by
  have hall := forall_byte (P := fun c => !isDigitByte c || !isLowerByte (lowerByte c))
    (by decide +kernel) c
  simpa [h] using hall

/-! ## The names that come out -/

/-- The keywords of Go, in bytes. -/
def keywordBytes : List (List UInt8) := goKeywords.map utf8

/-- The shape of what `sanitizePackageName` returns: small letters, digits and underscores,
no digit in front. -/
structure IsSanitized (n : List UInt8) : Prop where
  ne_nil : n ≠ []
  bytes : ∀ c ∈ n, isPackageByte c = true
  head : ∀ c ∈ n.head?, isDigitByte c = false

/-- A legal name of a Go package, in this shape: no keyword and not the blank identifier. -/
structure LegalPackageName (n : List UInt8) : Prop extends IsSanitized n where
  not_keyword : n ∉ keywordBytes
  not_blank : n ≠ [95]

/-- A keyword is a word of small letters. -/
theorem keywordBytes_lower {k : List UInt8} (h : k ∈ keywordBytes) :
    k ≠ [] ∧ ∀ c ∈ k, isLowerByte c = true := by
  have hall : (keywordBytes.all fun k => !k.isEmpty && k.all isLowerByte) = true := by
    decide +kernel
  have hk := List.all_eq_true.mp hall k h
  rw [Bool.and_eq_true, List.all_eq_true] at hk
  refine ⟨?_, hk.2⟩
  rintro rfl
  cases hk.1

theorem isSanitized_bpf : IsSanitized (utf8 "bpf") where
  ne_nil := by decide
  bytes := List.all_eq_true.mp (by decide : ((utf8 "bpf").all isPackageByte) = true)
  head := by
    rintro c ⟨⟩
    rfl

/-- The function on a name that is not empty. -/
theorem sanitizePackageName_cons (c : UInt8) (s : List UInt8) :
    sanitizePackageName (c :: s) =
      if isDigitByte c then 95 :: (c :: s).map packageByte else (c :: s).map packageByte := by
  have hdigit := isDigitByte_packageByte c
  simp only [sanitizePackageName, if_neg (List.cons_ne_nil c s), List.map_cons, List.length_cons,
    if_neg (Nat.succ_ne_zero _), List.head?_cons, Option.any_some, hdigit]

theorem bytes_map_packageByte (s : List UInt8) :
    ∀ b ∈ s.map packageByte, isPackageByte b = true := by
  intro b hb
  obtain ⟨c, -, rfl⟩ := List.mem_map.mp hb
  exact isPackageByte_packageByte c

theorem isSanitized_sanitizePackageName (s : List UInt8) : IsSanitized (sanitizePackageName s) := by
  cases s with
  | nil => exact isSanitized_bpf
  | cons c s =>
      rw [sanitizePackageName_cons]
      by_cases hc : isDigitByte c = true
      · rw [if_pos hc]
        refine ⟨List.cons_ne_nil _ _, List.forall_mem_cons.mpr ⟨rfl, bytes_map_packageByte _⟩, ?_⟩
        rintro b ⟨⟩
        rfl
      · rw [if_neg hc]
        refine ⟨by simp, bytes_map_packageByte _, ?_⟩
        intro b hb
        obtain rfl : packageByte c = b := by simpa using hb
        rw [isDigitByte_packageByte]
        simpa using hc

theorem sanitizePackageName_eq {n : List UInt8} (h : IsSanitized n) : sanitizePackageName n = n := by
  obtain ⟨hne, hbytes, hhead⟩ := h
  cases n with
  | nil => exact absurd rfl hne
  | cons c s =>
      rw [sanitizePackageName_cons, hhead c rfl, if_neg (by simp)]
      exact (List.map_congr_left fun b hb => packageByte_eq (hbytes b hb)).trans (List.map_id _)

/-- **Sanitizing a second time changes nothing.** -/
theorem sanitizePackageName_idempotent (s : List UInt8) :
    sanitizePackageName (sanitizePackageName s) = sanitizePackageName s :=
  sanitizePackageName_eq (isSanitized_sanitizePackageName s)

/-! ## Keywords and the blank identifier -/

theorem map_packageByte_eq_iff {k : List UInt8} (hk : ∀ c ∈ k, isLowerByte c = true)
    (s : List UInt8) : s.map packageByte = k ↔ s.map lowerByte = k := by
  induction s generalizing k with
  | nil => rfl
  | cons c s ih =>
      cases k with
      | nil => simp
      | cons b k =>
          rw [List.forall_mem_cons] at hk
          rw [List.map_cons, List.map_cons, List.cons.injEq, List.cons.injEq, ih hk.2]
          refine and_congr_left fun _ => ⟨fun h => ?_, fun h => ?_⟩
          · rw [← packageByte_eq_lowerByte (Or.inl (h ▸ hk.1)), h]
          · rw [packageByte_eq_lowerByte (Or.inr (h ▸ hk.1)), h]

/-- A keyword comes out exactly if the name in lower case is one. -/
theorem sanitizePackageName_mem_keywordBytes (s : List UInt8) :
    sanitizePackageName s ∈ keywordBytes ↔ s.map lowerByte ∈ keywordBytes := by
  cases s with
  | nil => decide +kernel
  | cons c s =>
      rw [sanitizePackageName_cons]
      by_cases hc : isDigitByte c = true
      · rw [if_pos hc]
        refine iff_of_false (fun h => ?_) (fun h => ?_)
        · have hlower := (keywordBytes_lower h).2 95 List.mem_cons_self
          exact absurd hlower (by decide)
        · have hlower := (keywordBytes_lower h).2 (lowerByte c) List.mem_cons_self
          rw [not_isLowerByte_of_digit hc] at hlower
          cases hlower
      · rw [if_neg hc]
        refine ⟨fun h => ?_, fun h => ?_⟩
        · rwa [(map_packageByte_eq_iff (keywordBytes_lower h).2 _).mp rfl]
        · rwa [(map_packageByte_eq_iff (keywordBytes_lower h).2 _).mpr rfl]

/-- A single byte that the loop replaces. -/
def IsReplacedByte (s : List UInt8) : Prop :=
  ∃ c, s = [c] ∧ (isLowerByte c || isUpperByte c || isDigitByte c) = false

theorem sanitizePackageName_eq_blank (s : List UInt8) :
    sanitizePackageName s = [95] ↔ IsReplacedByte s := by
  cases s with
  | nil =>
      refine iff_of_false (by decide +kernel) ?_
      rintro ⟨c, h, -⟩
      cases h
  | cons c s =>
      rw [sanitizePackageName_cons]
      by_cases hc : isDigitByte c = true
      · rw [if_pos hc]
        refine iff_of_false (by simp) ?_
        rintro ⟨c', h, hother⟩
        obtain ⟨rfl, -⟩ := List.cons.inj h
        rw [hc, Bool.or_true] at hother
        cases hother
      · rw [if_neg hc, List.map_cons, List.cons.injEq, packageByte_underscore, List.map_eq_nil_iff]
        refine ⟨fun ⟨hother, hnil⟩ => ⟨c, by rw [hnil], hother⟩, ?_⟩
        rintro ⟨c', h, hother⟩
        obtain ⟨rfl, rfl⟩ := List.cons.inj h
        exact ⟨hother, rfl⟩

/-- **The package name is legal** exactly for the directories whose name in lower case is no
keyword, and whose name is not a single byte other than a letter or a digit; sanitizing again
never changes it. -/
theorem packageName_legal_iff (s : List UInt8) :
    (LegalPackageName (sanitizePackageName s) ∧
        sanitizePackageName (sanitizePackageName s) = sanitizePackageName s) ↔
      s.map lowerByte ∉ keywordBytes ∧ ¬ IsReplacedByte s := by
  rw [and_iff_left (sanitizePackageName_idempotent s), ← sanitizePackageName_mem_keywordBytes,
    ← sanitizePackageName_eq_blank]
  exact ⟨fun h => ⟨h.not_keyword, h.not_blank⟩,
    fun h => { isSanitized_sanitizePackageName s with not_keyword := h.1, not_blank := h.2 }⟩

/-- The directories `.`, whose package would be `_`, and `Go`, whose package would be `go`. -/
theorem dotDirectory_illegal :
    sanitizePackageName (utf8 ".") = utf8 "_" ∧ sanitizePackageName (utf8 "Go") = utf8 "go" ∧
      ¬ ∀ s : List UInt8, LegalPackageName (sanitizePackageName s) ∧
        sanitizePackageName (sanitizePackageName s) = sanitizePackageName s := by
  refine ⟨by decide, by decide, fun h => ?_⟩
  exact (h (utf8 ".")).1.not_blank (by decide)

end Gobee
