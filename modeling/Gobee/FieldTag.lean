/-
# Struct tags

A struct tag is a list of pairs `key:"value"`, the values quoted as in Go.  `parseBpfTag`
looks for the text `bpf:"` in the tag and takes what stands before the next quote.

* `parseBpfTag_cons` : where the search stops: at a key that ends in `bpf` or at a value that
  ends in `bpf:`;
* `parseBpfTag_iff` : **exactly for which tags it returns the value of `bpf`**.
-/
import Gobee.CString
import Gobee.FormatExpr
import Mathlib.Data.List.TakeWhile

namespace Gobee

open CSyntax

/-! ## Quoted strings of Go -/

/-- The letters behind a backslash in a string of Go, with their bytes. -/
def goEscapes : List (Char × UInt8) :=
  [('a', 7), ('b', 8), ('f', 12), ('n', 10), ('r', 13), ('t', 9), ('v', 11), ('\\', 92), ('"', 34)]

/-- An escape by its number, without the backslash, and its bytes. -/
inductive NumericEscape : Text → List UInt8 → Prop where
  | octal (ds : Text) (n : ℕ) : ds.length = 3 → digitsValue 8 ds = some n → n < 256 →
      NumericEscape ds [UInt8.ofNat n]
  | hex (ds : Text) (n : ℕ) : ds.length = 2 → digitsValue 16 ds = some n →
      NumericEscape ('x' :: ds) [UInt8.ofNat n]
  | unicode (mark : Char) (k : ℕ) (ds : Text) (n : ℕ) : (mark, k) ∈ [('u', 4), ('U', 8)] →
      ds.length = k → digitsValue 16 ds = some n → n.isValidChar →
      NumericEscape (mark :: ds) (String.utf8EncodeChar (Char.ofNat n))

/-- What stands between the quotes of a string of Go, and the bytes of the string. -/
inductive GoQuoted : Text → List UInt8 → Prop where
  | nil : GoQuoted [] []
  | char (c : Char) (s : Text) (bs : List UInt8) : c ∉ ['\\', '"', '\n'] → GoQuoted s bs →
      GoQuoted (c :: s) (String.utf8EncodeChar c ++ bs)
  | letter (c : Char) (b : UInt8) (s : Text) (bs : List UInt8) : (c, b) ∈ goEscapes →
      GoQuoted s bs → GoQuoted ('\\' :: c :: s) (b :: bs)
  | number (e : Text) (eb : List UInt8) (s : Text) (bs : List UInt8) : NumericEscape e eb →
      GoQuoted s bs → GoQuoted ('\\' :: (e ++ s)) (eb ++ bs)

/-! ## Tags -/

/-- A character of a key: no control character, space, colon or quote. -/
def isTagKeyChar (c : Char) : Bool := 32 < c.toNat && c != '\x7f' && c != ':' && c != '"'

/-- A pair of a struct tag: the spaces in front of it, its key, and its value as it is quoted
and as it is meant. -/
structure TagPair where
  gap : ℕ
  key : Text
  raw : Text
  value : List UInt8
  key_ne : key ≠ []
  key_chars : key.all isTagKeyChar = true
  quoted : GoQuoted raw value

/-- The key of a pair with the spaces in front of it and the colon. -/
def TagPair.name (p : TagPair) : Text := List.replicate p.gap ' ' ++ p.key ++ [':']

/-- A struct tag, with some spaces at its end. -/
def tagText (pairs : List TagPair) (trailing : ℕ) : Text :=
  pairs.flatMap (fun p => p.name ++ '"' :: (p.raw ++ ['"'])) ++ List.replicate trailing ' '

/-- The value of the first pair whose key is `bpf`; empty if there is none. -/
def bpfValue (pairs : List TagPair) : List UInt8 :=
  match pairs.find? fun p => p.key = ("bpf" : Text) with
  | some p => p.value
  | none => []

/-- The name of the first pair. -/
def nextName : List TagPair → Text
  | [] => []
  | p :: _ => p.name

/-- The tags that `parseBpfTag` reads.  It stops at the first key that ends in `bpf` or the
first value that ends in `bpf:`, and takes the text up to the next quote. -/
def ReadsTag : List TagPair → Prop
  | [] => True
  | p :: ps =>
      if p.key = "bpf" then '\\' ∉ p.raw
      else if ("bpf" : Text) <:+ p.key then utf8 (p.raw.takeWhile (· != '"')) = bpfValue ps
      else if ("bpf:" : Text) <:+ p.raw then utf8 (nextName ps) = bpfValue ps
      else ReadsTag ps

/-! ## Escapes -/

theorem quote_not_mem_digits {base n : ℕ} {ds : Text} (h : digitsValue base ds = some n) :
    '"' ∉ ds := by
  intro hmem
  have hnone : digitsValue base ds = none :=
    digitsValue_eq_none hmem fun d hd => absurd hd (by simp [digitValue])
  rw [hnone] at h
  cases h

theorem NumericEscape.quote_not_mem {e : Text} {eb : List UInt8} (h : NumericEscape e eb) :
    '"' ∉ e := by
  cases h with
  | octal _ n _ hds _ => exact quote_not_mem_digits hds
  | hex ds n _ hds =>
      rw [List.mem_cons, not_or]
      exact ⟨by decide, quote_not_mem_digits hds⟩
  | unicode mark k ds n hmark _ hds _ =>
      rw [List.mem_cons, not_or]
      refine ⟨?_, quote_not_mem_digits hds⟩
      rintro rfl
      simp at hmark

theorem NumericEscape.length_le {e : Text} {eb : List UInt8} (h : NumericEscape e eb) :
    eb.length ≤ e.length := by
  cases h with
  | octal _ n hlen _ _ =>
      rw [hlen]
      exact Nat.le_add_left 1 2
  | hex ds n hlen _ =>
      have hds : ('x' :: ds).length = 3 := by rw [List.length_cons, hlen]
      rw [hds]
      exact Nat.le_add_left 1 2
  | unicode mark k ds n hmark hlen _ _ =>
      have hsize := (Char.ofNat n).utf8Size_le_four
      have hk : 4 ≤ k := by
        simp only [List.mem_cons, Prod.mk.injEq, List.not_mem_nil, or_false] at hmark
        omega
      rw [String.length_utf8EncodeChar, List.length_cons]
      omega

theorem length_le_utf8 (s : Text) : s.length ≤ (utf8 s).length := by
  induction s with
  | nil => exact Nat.le_refl _
  | cons c s ih =>
      have hlt := utf8_length_cons c s
      rw [List.length_cons]
      omega

section

variable {s : Text} {bs : List UInt8} (h : GoQuoted s bs)

include h

/-- Without a backslash the string is what is written. -/
theorem GoQuoted.plain (hs : '\\' ∉ s) : bs = utf8 s ∧ '"' ∉ s := by
  induction h with
  | nil => exact ⟨rfl, List.not_mem_nil⟩
  | char c s bs hc _ ih =>
      rw [List.mem_cons, not_or] at hs
      obtain ⟨hbs, hquote⟩ := ih hs.2
      refine ⟨by rw [hbs, utf8_cons], ?_⟩
      rw [List.mem_cons, not_or]
      refine ⟨?_, hquote⟩
      rintro rfl
      exact hc (by decide)
  | letter c b s bs _ _ _ => exact absurd List.mem_cons_self hs
  | number e eb s bs _ _ _ => exact absurd List.mem_cons_self hs

/-- The string is no longer than what is written, and shorter if there is a backslash. -/
theorem GoQuoted.length_le :
    bs.length ≤ (utf8 s).length ∧ ('\\' ∈ s → bs.length < (utf8 s).length) := by
  induction h with
  | nil => exact ⟨Nat.le_refl _, fun h => absurd h List.not_mem_nil⟩
  | char c s bs hc _ ih =>
      rw [utf8_cons, List.length_append, List.length_append]
      refine ⟨by omega, fun hmem => ?_⟩
      have hlt : bs.length < (utf8 s).length := by
        refine ih.2 ((List.mem_cons.mp hmem).resolve_left ?_)
        rintro rfl
        exact hc (by decide)
      omega
  | letter c b s bs _ _ ih =>
      have h₁ := utf8_length_cons '\\' (c :: s)
      have h₂ := utf8_length_cons c s
      rw [List.length_cons]
      exact ⟨by omega, fun _ => by omega⟩
  | number e eb s bs he _ ih =>
      have h₁ := utf8_length_cons '\\' (e ++ s)
      have h₂ := he.length_le
      have h₃ := length_le_utf8 e
      rw [utf8_append, List.length_append] at h₁
      rw [List.length_append]
      exact ⟨by omega, fun _ => by omega⟩

/-- A quote that is written is a quote of the string. -/
theorem GoQuoted.quote_mem (hs : '"' ∈ s) : 34 ∈ bs := by
  induction h with
  | nil => cases hs
  | char c s bs hc _ ih =>
      refine List.mem_append_right _ (ih ((List.mem_cons.mp hs).resolve_left ?_))
      rintro rfl
      exact hc (by decide)
  | letter c b s bs hcb _ ih =>
      rcases List.mem_cons.mp hs with hs | hs
      · cases hs
      · rcases List.mem_cons.mp hs with rfl | hs
        · obtain rfl : b = 34 := by simpa [goEscapes] using hcb
          exact List.mem_cons_self
        · exact List.mem_cons_of_mem _ (ih hs)
  | number e eb s bs he _ ih =>
      rcases List.mem_cons.mp hs with hs | hs
      · cases hs
      · rcases List.mem_append.mp hs with hs | hs
        · exact absurd hs he.quote_not_mem
        · exact List.mem_append_right _ (ih hs)

/-- What stands before the first quote is the string, exactly if there is no escape. -/
theorem GoQuoted.takeWhile_iff : utf8 (s.takeWhile (· != '"')) = bs ↔ '\\' ∉ s := by
  have htake : '"' ∉ s → s.takeWhile (· != '"') = s := fun hs =>
    List.takeWhile_eq_self_iff.mpr fun c hc => by
      rw [bne_iff_ne]
      rintro rfl
      exact hs hc
  refine ⟨fun heq hslash => ?_, fun hslash => ?_⟩
  · by_cases hs : '"' ∈ s
    · -- the string has a quote, the text before the first quote has none
      have hmem := h.quote_mem hs
      rw [← heq] at hmem
      obtain ⟨c, hc, hbyte⟩ := List.mem_flatMap.mp hmem
      obtain rfl := (@mem_utf8EncodeChar '"' c (by decide)).mp hbyte
      exact absurd (List.mem_takeWhile_imp hc) (by decide)
    · have hlt := h.length_le.2 hslash
      rw [← heq, htake hs] at hlt
      exact absurd hlt (Nat.lt_irrefl _)
  · obtain ⟨hbs, hs⟩ := h.plain hslash
    rw [htake hs, hbs]

end

/-! ## The search -/

theorem suffix_append_cons_iff {x : Text} {a : Char} (ha : a ∉ x) (u v : Text) :
    x <:+ u ++ a :: v ↔ x <:+ v := by
  induction u with
  | nil =>
      have hne : ¬ x = a :: v := fun h => ha (h ▸ List.mem_cons_self)
      rw [List.nil_append, List.suffix_cons_iff, or_iff_right hne]
  | cons c u ih =>
      have hne : ¬ x = c :: (u ++ a :: v) := fun h => ha (h ▸ by simp)
      rw [List.cons_append, List.suffix_cons_iff, or_iff_right hne, ih]

theorem append_quote_inj {w w' s s' : Text} (hw : '"' ∉ w) (hw' : '"' ∉ w')
    (h : w ++ '"' :: s = w' ++ '"' :: s') : w = w' ∧ s = s' := by
  induction w generalizing w' with
  | nil =>
      cases w' with
      | nil => exact ⟨rfl, (List.cons.inj h).2⟩
      | cons c' w' =>
          rw [(List.cons.inj h).1] at hw'
          exact absurd List.mem_cons_self hw'
  | cons c w ih =>
      cases w' with
      | nil =>
          rw [← (List.cons.inj h).1] at hw
          exact absurd List.mem_cons_self hw
      | cons c' w' =>
          obtain ⟨hc, htail⟩ := List.cons.inj h
          rw [List.mem_cons, not_or] at hw hw'
          obtain ⟨hww', hs⟩ := ih hw.2 hw'.2 htail
          exact ⟨by rw [hc, hww'], hs⟩

/-- The search goes from quote to quote. -/
theorem afterFirst_quote {w : Text} (s : Text) (hw : '"' ∉ w) :
    afterFirst "bpf:\"" (w ++ '"' :: s) =
      if ("bpf:" : Text) <:+ w then some s else afterFirst "bpf:\"" s := by
  induction w with
  | nil => rfl
  | cons c w ih =>
      rw [List.cons_append, afterFirst]
      by_cases hpre : List.isPrefixOf ("bpf:\"" : Text) (c :: (w ++ '"' :: s)) = true
      · obtain ⟨t, ht⟩ := List.isPrefixOf_iff_prefix.mp hpre
        obtain ⟨hkey, rfl⟩ := append_quote_inj (w := "bpf:") (by decide) hw
          (ht : "bpf:" ++ '"' :: t = (c :: w) ++ '"' :: s)
        rw [if_pos hpre, ← ht, ← hkey, if_pos (List.suffix_refl _)]
        rfl
      · rw [List.mem_cons, not_or] at hw
        have hne : ¬ ("bpf:" : Text) = c :: w := by
          intro hkey
          refine hpre (List.isPrefixOf_iff_prefix.mpr ⟨s, ?_⟩)
          rw [← List.cons_append, ← hkey]
          rfl
        rw [if_neg hpre, ih hw.2]
        simp only [List.suffix_cons_iff, or_iff_right hne]

theorem afterFirst_noQuote {w : Text} (hw : '"' ∉ w) : afterFirst "bpf:\"" w = none := by
  induction w with
  | nil => rfl
  | cons c w ih =>
      rw [List.mem_cons, not_or] at hw
      rw [afterFirst, if_neg, ih hw.2]
      intro hpre
      have hmem := (List.isPrefixOf_iff_prefix.mp hpre).subset
        (by decide : '"' ∈ ("bpf:\"" : Text))
      exact absurd hmem (List.not_mem_cons_of_ne_of_not_mem hw.1 hw.2)

/-- No quote inside a value is behind a colon. -/
theorem GoQuoted.afterFirst {raw : Text} {bs : List UInt8} (h : GoQuoted raw bs) (w s : Text)
    (hw : '"' ∉ w) :
    afterFirst "bpf:\"" (w ++ raw ++ '"' :: s) =
      if ("bpf:" : Text) <:+ w ++ raw then some s else afterFirst "bpf:\"" s := by
  induction h generalizing w with
  | nil =>
      rw [List.append_nil]
      exact afterFirst_quote s hw
  | char c raw bs hc _ ih =>
      have hcw : '"' ∉ w ++ [c] := by
        rw [List.mem_append, not_or, List.mem_singleton]
        refine ⟨hw, ?_⟩
        rintro rfl
        exact hc (by decide)
      have hstep := ih (w ++ [c]) hcw
      rwa [List.append_assoc w, List.singleton_append] at hstep
  | letter c b raw bs _ _ ih =>
      by_cases hc : c = '"'
      · have hslash : '"' ∉ w ++ ['\\'] := by simpa using hw
        have hno : ¬ ("bpf:" : Text) <:+ w ++ ['\\'] := by
          intro hsuf
          have hsub := suffix_append_cons_iff (x := "bpf:") (a := '\\') (by decide) w []
          exact absurd (List.suffix_nil.mp (hsub.mp hsuf)) (by decide)
        have hsplit : w ++ '\\' :: c :: raw ++ '"' :: s =
            (w ++ ['\\']) ++ '"' :: ([] ++ raw ++ '"' :: s) := by
          rw [hc]
          simp
        have hiff : ("bpf:" : Text) <:+ w ++ '\\' :: c :: raw ↔ ("bpf:" : Text) <:+ [] ++ raw := by
          rw [hc, List.nil_append]
          have happ : w ++ '\\' :: '"' :: raw = (w ++ ['\\']) ++ '"' :: raw := by simp
          rw [happ]
          exact suffix_append_cons_iff (by decide) _ _
        rw [hsplit, afterFirst_quote _ hslash, if_neg hno, ih [] List.not_mem_nil]
        simp only [hiff]
      · have hcw : '"' ∉ w ++ ['\\', c] := by
          rw [List.mem_append, not_or]
          refine ⟨hw, ?_⟩
          simpa using Ne.symm hc
        have hstep := ih (w ++ ['\\', c]) hcw
        rwa [List.append_assoc w] at hstep
  | number e eb raw bs he _ ih =>
      have hcw : '"' ∉ w ++ '\\' :: e := by
        rw [List.mem_append, not_or, List.mem_cons, not_or]
        exact ⟨hw, by decide, he.quote_not_mem⟩
      have hstep := ih (w ++ '\\' :: e) hcw
      rwa [List.append_assoc w] at hstep

/-! ## What is read -/

theorem TagPair.key_char (p : TagPair) {c : Char} (hc : isTagKeyChar c = false) : c ∉ p.key := by
  intro hmem
  rw [List.all_eq_true.mp p.key_chars c hmem] at hc
  cases hc

theorem TagPair.quote_not_mem_name (p : TagPair) : '"' ∉ p.name := by
  have hkey := p.key_char (c := '"') (by decide)
  have hgap : '"' ∉ List.replicate p.gap ' ' := fun h =>
    absurd (List.eq_of_mem_replicate h) (by decide)
  rw [TagPair.name, List.mem_append, List.mem_append, List.mem_singleton, not_or, not_or]
  exact ⟨⟨hgap, hkey⟩, by decide⟩

/-- The colon ends the text `bpf:` at the keys that end in `bpf`. -/
theorem TagPair.suffix_name_iff (p : TagPair) :
    ("bpf:" : Text) <:+ p.name ↔ ("bpf" : Text) <:+ p.key := by
  have hgap : ∀ n, ("bpf" : Text) <:+ List.replicate n ' ' ++ p.key ↔ ("bpf" : Text) <:+ p.key := by
    intro n
    induction n with
    | zero => rfl
    | succ n ih =>
        have hspace := suffix_append_cons_iff (x := "bpf") (a := ' ') (by decide) []
          (List.replicate n ' ' ++ p.key)
        rw [List.replicate_succ, List.cons_append, ← ih]
        exact hspace
  have hcolon : ("bpf:" : Text) = "bpf" ++ [':'] := rfl
  rw [TagPair.name, hcolon, List.suffix_append_self_iff, hgap]

theorem tagText_cons (p : TagPair) (ps : List TagPair) (n : ℕ) :
    tagText (p :: ps) n = p.name ++ '"' :: (p.raw ++ '"' :: tagText ps n) := by
  simp [tagText, List.flatMap_cons]

/-- The search stops at the first key or value with the right end. -/
theorem afterFirst_tagText (p : TagPair) (ps : List TagPair) (n : ℕ) :
    afterFirst "bpf:\"" (tagText (p :: ps) n) =
      if ("bpf" : Text) <:+ p.key then some (p.raw ++ '"' :: tagText ps n)
      else if ("bpf:" : Text) <:+ p.raw then some (tagText ps n)
      else afterFirst "bpf:\"" (tagText ps n) := by
  have hraw := p.quoted.afterFirst [] (tagText ps n) List.not_mem_nil
  rw [List.nil_append] at hraw
  rw [tagText_cons, afterFirst_quote _ p.quote_not_mem_name, hraw]
  simp only [p.suffix_name_iff]

/-- The text up to the first quote. -/
def upToQuote (s : Text) : Text := if '"' ∈ s then s.takeWhile (· != '"') else []

theorem parseBpfTag_eq (tag : Text) :
    parseBpfTag tag = ((afterFirst "bpf:\"" tag).map upToQuote).getD [] := by
  unfold parseBpfTag
  cases afterFirst "bpf:\"" tag with
  | none => rfl
  | some rest => rfl

theorem upToQuote_append (w s : Text) : upToQuote (w ++ '"' :: s) = w.takeWhile (· != '"') := by
  rw [upToQuote, if_pos (by simp)]
  induction w with
  | nil => rfl
  | cons c w ih =>
      rw [List.cons_append, List.takeWhile_cons, List.takeWhile_cons, ih]

theorem quote_not_mem_trailing (n : ℕ) : '"' ∉ tagText [] n := by
  intro h
  exact absurd (List.eq_of_mem_replicate (h : '"' ∈ List.replicate n ' ')) (by decide)

/-- What follows the quoted value of a pair, up to the next quote. -/
theorem upToQuote_tagText (ps : List TagPair) (n : ℕ) : upToQuote (tagText ps n) = nextName ps := by
  cases ps with
  | nil =>
      rw [upToQuote, if_neg (quote_not_mem_trailing n)]
      rfl
  | cons p ps =>
      rw [tagText_cons, upToQuote_append]
      refine List.takeWhile_eq_self_iff.mpr fun c hc => ?_
      rw [bne_iff_ne]
      rintro rfl
      exact p.quote_not_mem_name hc

/-- **What `parseBpfTag` reads**, pair by pair. -/
theorem parseBpfTag_cons (p : TagPair) (ps : List TagPair) (n : ℕ) :
    parseBpfTag (tagText (p :: ps) n) =
      if ("bpf" : Text) <:+ p.key then p.raw.takeWhile (· != '"')
      else if ("bpf:" : Text) <:+ p.raw then nextName ps
      else parseBpfTag (tagText ps n) := by
  rw [parseBpfTag_eq, parseBpfTag_eq, afterFirst_tagText]
  by_cases hkey : ("bpf" : Text) <:+ p.key
  · rw [if_pos hkey, if_pos hkey, Option.map_some, upToQuote_append]
    rfl
  · rw [if_neg hkey, if_neg hkey]
    by_cases hraw : ("bpf:" : Text) <:+ p.raw
    · rw [if_pos hraw, if_pos hraw, Option.map_some, upToQuote_tagText]
      rfl
    · rw [if_neg hraw, if_neg hraw]

theorem bpfValue_cons (p : TagPair) (ps : List TagPair) :
    bpfValue (p :: ps) = if p.key = ("bpf" : Text) then p.value else bpfValue ps := by
  unfold bpfValue
  by_cases hkey : p.key = ("bpf" : Text)
  · rw [if_pos hkey, List.find?_cons_of_pos (by simpa using hkey)]
  · rw [if_neg hkey, List.find?_cons_of_neg (by simpa using hkey)]

/-- **When `parseBpfTag` agrees with the grammar of struct tags**: for every list of pairs,
it returns the value of the first pair with the key `bpf`, or nothing if there is none,
exactly if `ReadsTag` holds. -/
theorem parseBpfTag_iff (pairs : List TagPair) (trailing : ℕ) :
    utf8 (parseBpfTag (tagText pairs trailing)) = bpfValue pairs ↔ ReadsTag pairs := by
  induction pairs with
  | nil =>
      refine iff_of_true ?_ trivial
      rw [parseBpfTag_eq, afterFirst_noQuote (quote_not_mem_trailing trailing)]
      rfl
  | cons p ps ih =>
      rw [parseBpfTag_cons, bpfValue_cons, ReadsTag]
      by_cases hkey : p.key = ("bpf" : Text)
      · rw [if_pos hkey, if_pos hkey, if_pos (hkey ▸ List.suffix_refl _)]
        exact p.quoted.takeWhile_iff
      · rw [if_neg hkey, if_neg hkey]
        by_cases hsuf : ("bpf" : Text) <:+ p.key
        · rw [if_pos hsuf, if_pos hsuf]
        · rw [if_neg hsuf, if_neg hsuf]
          by_cases hraw : ("bpf:" : Text) <:+ p.raw
          · rw [if_pos hraw, if_pos hraw]
          · rw [if_neg hraw, if_neg hraw, ih]

/-- Plain characters are their own quotation. -/
theorem goQuoted_plain {s : Text} (h : (s.all fun c => c ∉ ['\\', '"', '\n']) = true) :
    GoQuoted s (utf8 s) := by
  induction s with
  | nil => exact .nil
  | cons c s ih =>
      rw [List.all_cons, Bool.and_eq_true, decide_eq_true_eq] at h
      rw [utf8_cons]
      exact .char c s _ h.1 (ih h.2)

/-- The pair `ebpf:"name"` of the loader. -/
def ebpfPair : TagPair where
  gap := 0
  key := "ebpf"
  raw := "name"
  value := utf8 "name"
  key_ne := by decide
  key_chars := by decide
  quoted := goQuoted_plain (by decide)

/-- The tag `ebpf:"name"` has no key `bpf`, and `parseBpfTag` returns `name`. -/
theorem ebpfTag_misread :
    tagText [ebpfPair] 0 = "ebpf:\"name\"" ∧ parseBpfTag "ebpf:\"name\"" = "name" ∧
      ¬ ∀ pairs trailing, utf8 (parseBpfTag (tagText pairs trailing)) = bpfValue pairs := by
  refine ⟨by decide, by decide, fun h => ?_⟩
  exact absurd (h [ebpfPair] 0) (by decide)

end Gobee
