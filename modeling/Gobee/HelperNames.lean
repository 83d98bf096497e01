/-
# Helper names in the generator and in the transpiler

`tools/genhelpers` gives every C helper of libbpf a Go stub, whose name `goNameFor` makes
from the C name, and the emitter gets the C name back with `goNameToBpfHelper`.

* `goNameFor_roundTrip` : **the two are inverse to each other on helper names**, so that no
  two helpers share a stub.
-/
import Gobee.FormatExpr

namespace Gobee

/-! ## The generator -/

/-- `strings.TrimPrefix`. -/
def trimPrefix (head s : Text) : Text := if head.isPrefixOf s then s.drop head.length else s

/-- The first letter of a part, capitalised, and the rest as it is. -/
def capitalize : Text → Text
  | [] => []
  | c :: cs => c.toUpper :: cs

/-- `goNameFor`. -/
def goNameFor (c : Text) : Text := (((trimPrefix "bpf_" c).splitOn '_').map capitalize).flatten

/-! ## Helper names -/

/-- A small letter. -/
def isLowerAscii (c : Char) : Bool := 'a' ≤ c && c ≤ 'z'

/-- A segment of a helper name: a small letter, then small letters and digits. -/
def isSegment : Text → Bool
  | [] => false
  | c :: cs => isLowerAscii c && cs.all fun d => isLowerAscii d || d.isDigit

/-- A C helper name: `bpf_` and some segments joined by underscores. -/
def IsHelperName (c : Text) : Prop :=
  ∃ segs : List Text, segs ≠ [] ∧ (∀ s ∈ segs, isSegment s = true) ∧ c = "bpf_" ++ join ['_'] segs

theorem join_eq_intercalate (sep : Text) (ts : List Text) : join sep ts = sep.intercalate ts := by
  induction ts with
  | nil => rfl
  | cons a rest ih =>
      cases rest with
      | nil => simp [join, List.intercalate]
      | cons b rest =>
          rw [join, ih]
          simp [List.intercalate]

theorem lower_of_isLowerAscii {c : Char} (h : isLowerAscii c = true) :
    97 ≤ c.toNat ∧ c.toNat ≤ 122 := by
  rw [← lower_iff]
  simpa [isLowerAscii] using h

/-- A capitalised letter is a capital, and lowering it gives the letter back. -/
theorem toUpper_lower {c : Char} (h : isLowerAscii c = true) :
    isUpperAscii c.toUpper = true ∧ c.toUpper.toLower = c := by
  obtain ⟨hlo, hhi⟩ := lower_of_isLowerAscii h
  rw [← Char.ofNat_toNat c]
  generalize c.toNat = n at hlo hhi
  interval_cases n <;> decide

/-- No letter or digit of a segment after the first is a capital or an underscore. -/
theorem segment_char {c : Char} (h : (isLowerAscii c || c.isDigit) = true) :
    isUpperAscii c = false ∧ c ≠ '_' := by
  rw [Bool.or_eq_true] at h
  have hrange : 48 ≤ c.toNat ∧ c.toNat ≤ 57 ∨ 97 ≤ c.toNat ∧ c.toNat ≤ 122 := by
    rcases h with h | h
    · exact Or.inr (lower_of_isLowerAscii h)
    · refine Or.inl ?_
      simp only [Char.isDigit, Bool.and_eq_true, decide_eq_true_eq, ge_iff_le] at h
      rw [UInt32.le_iff_toNat_le, UInt32.le_iff_toNat_le] at h
      exact h
  rw [← Char.ofNat_toNat c]
  generalize c.toNat = n at hrange
  rcases hrange with ⟨hlo, hhi⟩ | ⟨hlo, hhi⟩
  · interval_cases n <;> decide
  · interval_cases n <;> decide

theorem underscore_not_mem_segment {s : Text} (h : isSegment s = true) : '_' ∉ s := by
  cases s with
  | nil => exact List.not_mem_nil
  | cons c cs =>
      rw [isSegment, Bool.and_eq_true, List.all_eq_true] at h
      intro hmem
      rcases List.mem_cons.mp hmem with heq | htail
      · exact (segment_char (by rw [h.1]; rfl)).2 heq.symm
      · exact (segment_char (h.2 '_' htail)).2 rfl

theorem snakeTail_append {cs : Text} (h : ∀ c ∈ cs, isUpperAscii c = false) (rest : Text) :
    snakeTail (cs ++ rest) = cs ++ snakeTail rest := by
  induction cs with
  | nil => rfl
  | cons c cs ih =>
      have hc := h c List.mem_cons_self
      rw [List.cons_append, snakeTail, if_neg (by rw [hc]; decide),
        ih fun d hd => h d (List.mem_cons_of_mem _ hd)]
      rfl

theorem segment_tail {c : Char} {cs : Text} (h : isSegment (c :: cs) = true) :
    isLowerAscii c = true ∧ ∀ d ∈ cs, isUpperAscii d = false := by
  rw [isSegment, Bool.and_eq_true, List.all_eq_true] at h
  exact ⟨h.1, fun d hd => (segment_char (h.2 d hd)).1⟩

/-- Capitalised segments are told apart by their capitals. -/
theorem snakeTail_capitalized (segs : List Text) (h : ∀ s ∈ segs, isSegment s = true) :
    snakeTail (segs.map capitalize).flatten = segs.flatMap fun s => '_' :: s := by
  induction segs with
  | nil => rfl
  | cons s rest ih =>
      have hs := h s List.mem_cons_self
      cases s with
      | nil => cases hs
      | cons c cs =>
          obtain ⟨hc, hcs⟩ := segment_tail hs
          obtain ⟨hup, hback⟩ := toUpper_lower hc
          rw [List.map_cons, List.flatten_cons, capitalize, List.cons_append, snakeTail, if_pos hup,
            hback, snakeTail_append hcs, ih fun t ht => h t (List.mem_cons_of_mem _ ht)]
          simp

theorem join_underscore (s : Text) (rest : List Text) :
    join ['_'] (s :: rest) = s ++ rest.flatMap fun t => '_' :: t := by
  induction rest generalizing s with
  | nil => simp [join]
  | cons t rest ih =>
      rw [join, ih]
      simp

theorem goCamelToSnake_capitalized (segs : List Text) (h : ∀ s ∈ segs, isSegment s = true) :
    goCamelToSnake (segs.map capitalize).flatten = join ['_'] segs := by
  cases segs with
  | nil => rfl
  | cons s rest =>
      have hs := h s List.mem_cons_self
      cases s with
      | nil => cases hs
      | cons c cs =>
          obtain ⟨hc, hcs⟩ := segment_tail hs
          obtain ⟨hup, hback⟩ := toUpper_lower hc
          have hrest := snakeTail_capitalized rest fun t ht => h t (List.mem_cons_of_mem _ ht)
          rw [List.map_cons, List.flatten_cons, capitalize, List.cons_append, goCamelToSnake,
            if_pos hup, hback, snakeTail_append hcs, hrest, join_underscore]
          rfl

/-- The generator capitalises the segments. -/
theorem goNameFor_segments {segs : List Text} (hne : segs ≠ [])
    (h : ∀ s ∈ segs, isSegment s = true) :
    goNameFor ("bpf_" ++ join ['_'] segs) = (segs.map capitalize).flatten := by
  have htrim : trimPrefix "bpf_" ("bpf_" ++ join ['_'] segs) = join ['_'] segs := by
    rw [trimPrefix, if_pos (by simp), List.drop_left]
  rw [goNameFor, htrim, join_eq_intercalate,
    List.splitOn_intercalate _ (fun s hs => underscore_not_mem_segment (h s hs)) hne]

/-- The transpiler undoes the generator. -/
theorem goNameToBpfHelper_goNameFor {c : Text} (h : IsHelperName c) :
    goNameToBpfHelper (goNameFor c) = c := by
  obtain ⟨segs, hne, hsegs, rfl⟩ := h
  rw [goNameFor_segments hne hsegs, goNameToBpfHelper, goCamelToSnake_capitalized segs hsegs]

/-- **Helper names round-trip**: the transpiler undoes the generator on every C helper
name; hence no two helpers share a Go stub, and the generator undoes the transpiler on
every stub. -/
theorem goNameFor_roundTrip :
    (∀ c, IsHelperName c → goNameToBpfHelper (goNameFor c) = c) ∧
    (∀ c c', IsHelperName c → IsHelperName c' → goNameFor c = goNameFor c' → c = c') ∧
    ∀ c g, IsHelperName c → g = goNameFor c → goNameFor (goNameToBpfHelper g) = g := by
  refine ⟨fun c h => goNameToBpfHelper_goNameFor h, fun c c' h h' heq => ?_, fun c g h hg => ?_⟩
  · rw [← goNameToBpfHelper_goNameFor h, heq, goNameToBpfHelper_goNameFor h']
  · rw [hg, goNameToBpfHelper_goNameFor h]

theorem mapLookupElem_roundTrip :
    IsHelperName "bpf_map_lookup_elem" ∧ goNameFor "bpf_map_lookup_elem" = "MapLookupElem" ∧
      goNameToBpfHelper (goNameFor "bpf_map_lookup_elem") = "bpf_map_lookup_elem" := by
  have h : IsHelperName "bpf_map_lookup_elem" :=
    ⟨["map", "lookup", "elem"], by decide, by decide, rfl⟩
  exact ⟨h, rfl, goNameFor_roundTrip.1 _ h⟩

end Gobee
