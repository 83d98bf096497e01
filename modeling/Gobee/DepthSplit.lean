/-
# Splitting at the top level

A list is split at a separator wherever as many brackets were opened as closed.  The height
of a list is the number of brackets it opens less the number it closes.

* `intercalate_split` : nothing is lost but separators;
* `mem_cuts_split` : **where the list is cut**;
* `not_enclosed_of_mem_cuts` : never inside brackets, unless a bracket was closed that was
  not open.
-/
import Mathlib.Algebra.Ring.Int.Defs
import Mathlib.Data.List.Basic

namespace DepthSplit

variable {α : Type} [DecidableEq α] (opening closing sep : α)

/-! ## The height of a list -/

/-- What one letter adds to the height. -/
def delta (c : α) : Int := if c = opening then 1 else if c = closing then -1 else 0

/-- The brackets a list opens less those it closes. -/
def height (w : List α) : Int := (w.map (delta opening closing)).sum

@[simp] theorem height_nil : height opening closing [] = 0 := rfl

@[simp] theorem height_cons (c : α) (w : List α) :
    height opening closing (c :: w) = delta opening closing c + height opening closing w :=
  List.sum_cons

theorem height_of_plain {w : List α} (h : ∀ c ∈ w, delta opening closing c = 0) :
    height opening closing w = 0 := by
  induction w with
  | nil => rfl
  | cons c w ih =>
      rw [List.forall_mem_cons] at h
      rw [height_cons, h.1, ih h.2]
      rfl

/-! ## Splitting -/

/-- The loop: the part read so far and the height. -/
def splitLoop : List α → List α → Int → List (List α)
  | [], buf, _ => if 0 < buf.length then [buf] else []
  | c :: s, buf, depth =>
      if c = sep ∧ depth + delta opening closing c = 0 then
        buf :: splitLoop s [] (depth + delta opening closing c)
      else splitLoop s (buf ++ [c]) (depth + delta opening closing c)

/-- The parts of a list; an empty last part is left out. -/
def split (s : List α) : List (List α) := splitLoop opening closing sep s [] 0

variable {opening closing sep}

theorem splitLoop_eq_nil {s buf : List α} {depth : Int}
    (h : splitLoop opening closing sep s buf depth = []) : s = [] ∧ buf = [] := by
  induction s generalizing buf depth with
  | nil =>
      refine ⟨rfl, List.eq_nil_of_length_eq_zero ?_⟩
      by_contra hne
      rw [splitLoop, if_pos (by omega)] at h
      cases h
  | cons c s ih =>
      rw [splitLoop] at h
      by_cases hc : c = sep ∧ depth + delta opening closing c = 0
      · rw [if_pos hc] at h
        cases h
      · rw [if_neg hc] at h
        have hbuf := (ih h).2
        simp at hbuf

theorem intercalate_splitLoop (s buf : List α) (depth : Int) :
    ∃ t ∈ [[], [sep]],
      [sep].intercalate (splitLoop opening closing sep s buf depth) ++ t = buf ++ s := by
  induction s generalizing buf depth with
  | nil =>
      refine ⟨[], by simp, ?_⟩
      rw [splitLoop]
      by_cases hbuf : 0 < buf.length
      · rw [if_pos hbuf]
        simp [List.intercalate]
      · rw [if_neg hbuf, List.eq_nil_of_length_eq_zero (by omega : buf.length = 0)]
        rfl
  | cons c s ih =>
      rw [splitLoop]
      by_cases hc : c = sep ∧ depth + delta opening closing c = 0
      · rw [if_pos hc, hc.1]
        obtain ⟨t, ht, heq⟩ := ih [] (depth + delta opening closing sep)
        cases hparts : splitLoop opening closing sep s [] (depth + delta opening closing sep) with
        | nil =>
            -- the separator was the last letter
            obtain ⟨rfl, -⟩ := splitLoop_eq_nil hparts
            exact ⟨[sep], by simp, by simp [List.intercalate]⟩
        | cons p ps =>
            rw [hparts] at heq
            refine ⟨t, ht, ?_⟩
            rw [List.intercalate_cons_cons, List.append_assoc, heq, List.append_assoc,
              List.nil_append, List.singleton_append]
      · rw [if_neg hc]
        obtain ⟨t, ht, heq⟩ := ih (buf ++ [c]) (depth + delta opening closing c)
        exact ⟨t, ht, by rw [heq, List.append_assoc, List.singleton_append]⟩

/-- **Nothing is lost**: with the separators put back between the parts, the list is there
again, up to a separator at its end. -/
theorem intercalate_split (s : List α) :
    ∃ t ∈ [[], [sep]], [sep].intercalate (split opening closing sep s) ++ t = s :=
  intercalate_splitLoop s [] 0

/-- A part is read whole up to the next separator. -/
theorem splitLoop_append {p : List α} (s buf : List α) (depth : Int) (hp : sep ∉ p) :
    splitLoop opening closing sep (p ++ s) buf depth =
      splitLoop opening closing sep s (buf ++ p) (depth + height opening closing p) := by
  induction p generalizing buf depth with
  | nil => simp
  | cons c p ih =>
      rw [List.mem_cons, not_or] at hp
      rw [List.cons_append, splitLoop, if_neg fun hc => hp.1 hc.1.symm, ih _ _ hp.2,
        height_cons, List.append_assoc, List.singleton_append, add_assoc]

/-- Parts without the separator whose brackets match come back as they are. -/
theorem split_intercalate {ps : List (List α)} (hsep : delta opening closing sep = 0)
    (h : ∀ p ∈ ps, p ≠ [] ∧ sep ∉ p ∧ height opening closing p = 0) :
    split opening closing sep ([sep].intercalate ps) = ps := by
  induction ps with
  | nil => rfl
  | cons p ps ih =>
      obtain ⟨⟨hne, hp, hheight⟩, hps⟩ := List.forall_mem_cons.mp h
      cases ps with
      | nil =>
          rw [List.intercalate_singleton, ← List.append_nil p, split, splitLoop_append _ _ _ hp,
            List.nil_append, splitLoop, if_pos (List.length_pos_of_ne_nil hne), List.append_nil]
      | cons q qs =>
          rw [List.intercalate_cons_cons, List.append_assoc, split, splitLoop_append _ _ _ hp,
            hheight, List.singleton_append, splitLoop, if_pos ⟨rfl, by rw [hsep]; rfl⟩, hsep]
          exact congrArg (p :: ·) (ih hps)

section

variable {β : Type} [DecidableEq β] {opening' closing' sep' : β} {f : α → List β}

theorem splitLoop_flatMap (hsep : f sep = [sep']) (hother : ∀ c, c ≠ sep → sep' ∉ f c)
    (hheight : ∀ c, height opening' closing' (f c) = delta opening closing c)
    (hne : ∀ c, f c ≠ []) (s buf : List α) (depth : Int) :
    splitLoop opening' closing' sep' (s.flatMap f) (buf.flatMap f) depth =
      (splitLoop opening closing sep s buf depth).map (List.flatMap f) := by
  induction s generalizing buf depth with
  | nil =>
      cases buf with
      | nil => rfl
      | cons c buf =>
          have hpos : 0 < ((c :: buf).flatMap f).length := by
            rw [List.flatMap_cons]
            exact List.length_pos_of_ne_nil (List.append_ne_nil_of_left_ne_nil (hne c) _)
          rw [List.flatMap_nil, splitLoop, splitLoop, if_pos hpos, if_pos (by simp)]
          rfl
  | cons c s ih =>
      rw [List.flatMap_cons]
      by_cases hc : c = sep
      · have hstep : delta opening' closing' sep' = delta opening closing sep := by
          have h := hheight sep
          rwa [hsep, height_cons, height_nil, add_zero] at h
        rw [hc, hsep, List.singleton_append, splitLoop, splitLoop, hstep]
        by_cases hd : depth + delta opening closing sep = 0
        · rw [if_pos ⟨rfl, hd⟩, if_pos ⟨rfl, hd⟩, List.map_cons, ← ih [], List.flatMap_nil]
        · rw [if_neg fun h => hd h.2, if_neg fun h => hd h.2, ← ih (buf ++ [sep]),
            List.flatMap_append, List.flatMap_singleton, hsep]
      · rw [splitLoop_append _ _ _ (hother c hc), hheight, splitLoop, if_neg fun h => hc h.1,
          ← ih (buf ++ [c]), List.flatMap_append, List.flatMap_singleton]

/-- Splitting commutes with spelling each letter out, if the spellings of the other letters
have no separator in them and keep the height. -/
theorem split_flatMap (hsep : f sep = [sep']) (hother : ∀ c, c ≠ sep → sep' ∉ f c)
    (hheight : ∀ c, height opening' closing' (f c) = delta opening closing c)
    (hne : ∀ c, f c ≠ []) (s : List α) :
    split opening' closing' sep' (s.flatMap f) =
      (split opening closing sep s).map (List.flatMap f) :=
  splitLoop_flatMap hsep hother hheight hne s [] 0

end

/-! ## Where a list is cut -/

/-- The positions behind the parts, the first part beginning at `n`. -/
def cuts (n : Nat) : List (List α) → List Nat
  | [] => []
  | p :: ps => (n + p.length) :: cuts (n + p.length + 1) ps

theorem le_of_mem_cuts_splitLoop {s buf : List α} {depth : Int} {n i : Nat}
    (h : i ∈ cuts n (splitLoop opening closing sep s buf depth)) : n + buf.length ≤ i := by
  induction s generalizing buf depth n with
  | nil =>
      rw [splitLoop] at h
      by_cases hbuf : 0 < buf.length
      · rw [if_pos hbuf, cuts, cuts, List.mem_singleton] at h
        omega
      · rw [if_neg hbuf] at h
        cases h
  | cons c s ih =>
      rw [splitLoop] at h
      by_cases hc : c = sep ∧ depth + delta opening closing c = 0
      · rw [if_pos hc, cuts, List.mem_cons] at h
        rcases h with h | h
        · omega
        · have hle := ih h
          omega
      · rw [if_neg hc] at h
        have hle := ih h
        rw [List.length_append] at hle
        omega

theorem mem_cuts_splitLoop {s : List α} (buf : List α) (depth : Int) (n : Nat) {i : Nat}
    (hi : i < s.length) :
    n + buf.length + i ∈ cuts n (splitLoop opening closing sep s buf depth) ↔
      s[i]? = some sep ∧ depth + height opening closing (s.take (i + 1)) = 0 := by
  induction s generalizing buf depth n i with
  | nil => cases hi
  | cons c s ih =>
      rw [splitLoop]
      by_cases hc : c = sep ∧ depth + delta opening closing c = 0
      · rw [if_pos hc, cuts, List.mem_cons]
        cases i with
        | zero =>
            refine iff_of_true (Or.inl rfl) ⟨congrArg some hc.1, ?_⟩
            simpa using hc.2
        | succ i =>
            have hih := ih [] (depth + delta opening closing c) (n + buf.length + 1)
              (Nat.lt_of_succ_lt_succ hi)
            have hpos : n + buf.length + (i + 1) = n + buf.length + 1 + ([] : List α).length + i := by
              rw [List.length_nil]
              omega
            rw [or_iff_right (by omega), hpos, hih, List.getElem?_cons_succ, List.take_succ_cons,
              height_cons, add_assoc]
      · rw [if_neg hc]
        cases i with
        | zero =>
            refine iff_of_false (fun h => ?_) ?_
            · have hle := le_of_mem_cuts_splitLoop h
              rw [List.length_append, List.length_singleton] at hle
              omega
            · simpa using hc
        | succ i =>
            have hih := ih (buf ++ [c]) (depth + delta opening closing c) n
              (Nat.lt_of_succ_lt_succ hi)
            have hpos : n + buf.length + (i + 1) = n + (buf ++ [c]).length + i := by
              rw [List.length_append, List.length_singleton]
              omega
            rw [hpos, hih, List.getElem?_cons_succ, List.take_succ_cons, height_cons, add_assoc]

/-- **A list is cut exactly at the separators at height zero.** -/
theorem mem_cuts_split {s : List α} {i : Nat} (hi : i < s.length) :
    i ∈ cuts 0 (split opening closing sep s) ↔
      s[i]? = some sep ∧ height opening closing (s.take (i + 1)) = 0 := by
  have h := @mem_cuts_splitLoop _ _ opening closing sep _ [] 0 0 _ hi
  rwa [List.length_nil, Nat.add_zero, Nat.zero_add, zero_add] at h

/-! ## Brackets -/

variable (opening closing)

/-- A position inside brackets: a bracket opened before it is still open behind it. -/
def Enclosed (s : List α) (i : Nat) : Prop :=
  ∃ j < i, s[j]? = some opening ∧ ∀ k, j ≤ k → k ≤ i →
    height opening closing (s.take j) < height opening closing (s.take (k + 1))

variable {opening closing}

/-- No cut is inside brackets, if no bracket before it was closed that was not open. -/
theorem not_enclosed_of_mem_cuts {s : List α} {i : Nat} (hi : i < s.length)
    (hcut : i ∈ cuts 0 (split opening closing sep s))
    (hopen : ∀ n ≤ i, 0 ≤ height opening closing (s.take n)) :
    ¬ Enclosed opening closing s i := by
  rintro ⟨j, hj, -, hheight⟩
  have hlevel := ((mem_cuts_split hi).mp hcut).2
  have hlow := hopen j (Nat.le_of_lt hj)
  have habove := hheight i (Nat.le_of_lt hj) (Nat.le_refl i)
  omega

end DepthSplit
