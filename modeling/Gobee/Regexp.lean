/-
# Regular expressions without alternatives

Patterns are built of character classes, each matched once or once and more often, and of
groups.  A matcher with backtracking tries the ways a pattern can match at a place in their
order of preference (the longer repetition first), takes the first, and goes on behind it.

* `LeftmostLongest` : cutting a text into the leftmost, longest, non-overlapping words of a
  language; a text is cut in one way only (`LeftmostLongest.unique`);
* `findAll_leftmostLongest` : **the matches of a pattern whose preferred match is its longest
  one are the leftmost, longest, non-overlapping ones**.
-/
import Mathlib.Data.List.Basic

namespace Regexp

variable {α : Type}

/-! ## Patterns and what they match -/

/-- A pattern; it never matches the empty text. -/
inductive Pattern (α : Type) where
  /-- a character of a class -/
  | one (p : α → Bool)
  /-- `+`: characters of a class, as many as fit -/
  | many (p : α → Bool)
  | seq (a b : Pattern α)
  /-- a group, whose text is reported -/
  | group (a : Pattern α)

/-- The text of a match and the texts of its groups. -/
structure Match (α : Type) where
  text : List α
  groups : List (List α)

/-- A match directly behind another. -/
def Match.append (m n : Match α) : Match α := ⟨m.text ++ n.text, m.groups ++ n.groups⟩

/-- A match of a group. -/
def Match.grouped (m : Match α) : Match α := ⟨m.text, m.text :: m.groups⟩

/-- The matches of `p+` at the front of a text, the longest first, with what follows. -/
def manyRuns (p : α → Bool) : List α → List (List α × List α)
  | [] => []
  | c :: cs =>
      if p c then (manyRuns p cs).map (fun r => (c :: r.1, r.2)) ++ [([c], cs)]
      else []

namespace Pattern

/-- The matches at the front of a text in their order of preference, with what follows. -/
def runs : Pattern α → List α → List (Match α × List α)
  | .one p, s => (s.take 1).filterMap fun c => if p c then some (⟨[c], []⟩, s.drop 1) else none
  | .many p, s => (manyRuns p s).map fun r => (⟨r.1, []⟩, r.2)
  | .seq a b, s =>
      (a.runs s).flatMap fun m => (b.runs m.2).map fun n => (m.1.append n.1, n.2)
  | .group a, s => (a.runs s).map fun m => (m.1.grouped, m.2)

/-- The preferred match at the front of a text. -/
def first (p : Pattern α) (s : List α) : Option (Match α) := (p.runs s).head?.map Prod.fst

/-- The matches of a text from left to right, the next `skip` characters left out. -/
def findAllFrom (p : Pattern α) : Nat → List α → List (Match α)
  | _, [] => []
  | skip + 1, _ :: cs => p.findAllFrom skip cs
  | 0, c :: cs =>
      match p.first (c :: cs) with
      | some m => m :: p.findAllFrom (m.text.length - 1) cs
      | none => p.findAllFrom 0 cs

/-- All matches of a text, from left to right and without overlaps. -/
def findAll (p : Pattern α) (s : List α) : List (Match α) := p.findAllFrom 0 s

/-- A pattern followed by the characters of a word. -/
def word [DecidableEq α] (p : Pattern α) : List α → Pattern α
  | [] => p
  | c :: cs => (Pattern.seq p (.one (· == c))).word cs

/-- The language of a pattern. -/
def Fits : Pattern α → List α → Prop
  | .one p, w => ∃ c, w = [c] ∧ p c = true
  | .many p, w => w ≠ [] ∧ ∀ c ∈ w, p c = true
  | .seq a b, w => ∃ u v, w = u ++ v ∧ a.Fits u ∧ b.Fits v
  | .group a, w => a.Fits w

/-- The preferred match at any place is the longest one there. -/
def Greedy (p : Pattern α) : Prop :=
  ∀ s m rest, (p.runs s).head? = some (m, rest) →
    ∀ w rest', s = w ++ rest' → p.Fits w → w.length ≤ m.text.length

end Pattern

/-! ## The matches at one place -/

theorem mem_manyRuns {p : α → Bool} {s w rest : List α} :
    (w, rest) ∈ manyRuns p s ↔ s = w ++ rest ∧ w ≠ [] ∧ ∀ c ∈ w, p c = true := by
  induction s generalizing w with
  | nil =>
      simp only [manyRuns, List.not_mem_nil, false_iff]
      rintro ⟨h, hne, -⟩
      exact hne (List.append_eq_nil_iff.mp h.symm).1
  | cons c cs ih =>
      rw [manyRuns]
      by_cases hc : p c = true
      · rw [if_pos hc, List.mem_append, List.mem_map, List.mem_singleton]
        constructor
        · rintro (⟨⟨u, r⟩, hmem, heq⟩ | heq)
          · cases heq
            obtain ⟨hs, -, hall⟩ := ih.mp hmem
            refine ⟨by rw [hs, List.cons_append], by simp, ?_⟩
            exact List.forall_mem_cons.mpr ⟨hc, hall⟩
          · cases heq
            exact ⟨rfl, by simp, by simpa using hc⟩
        · rintro ⟨hs, hne, hall⟩
          cases w with
          | nil => exact absurd rfl hne
          | cons d u =>
              rw [List.cons_append, List.cons.injEq] at hs
              obtain ⟨rfl, hs⟩ := hs
              -- a run of one character is the last candidate, longer ones come from the rest
              cases u with
              | nil => exact .inr (by rw [hs, List.nil_append])
              | cons e u =>
                  refine .inl ⟨(e :: u, rest), ih.mpr ⟨hs, by simp, ?_⟩, rfl⟩
                  exact (List.forall_mem_cons.mp hall).2
      · rw [if_neg hc]
        simp only [List.not_mem_nil, false_iff]
        rintro ⟨hs, hne, hall⟩
        cases w with
        | nil => exact hne rfl
        | cons d u =>
            rw [List.cons_append, List.cons.injEq] at hs
            rw [hs.1] at hc
            exact hc (hall d List.mem_cons_self)

/-- What is tried at a place matches there. -/
theorem Pattern.fits_of_mem_runs {p : Pattern α} :
    ∀ {s : List α} {m : Match α} {rest : List α}, (m, rest) ∈ p.runs s →
      s = m.text ++ rest ∧ p.Fits m.text := by
  induction p with
  | one p =>
      intro s m rest h
      cases s with
      | nil => cases h
      | cons c cs =>
          by_cases hc : p c = true
          · simp only [runs, List.take_succ_cons, List.take_zero, List.filterMap_cons, hc, if_true,
              List.filterMap_nil, List.mem_singleton] at h
            cases h
            exact ⟨rfl, c, rfl, hc⟩
          · simp [runs, hc] at h
  | many p =>
      intro s m rest h
      obtain ⟨⟨w, r⟩, hmem, heq⟩ := List.mem_map.mp h
      cases heq
      obtain ⟨hs, hfits⟩ := mem_manyRuns.mp hmem
      exact ⟨hs, hfits⟩
  | seq a b iha ihb =>
      intro s m rest h
      obtain ⟨⟨ma, ra⟩, ha, h⟩ := List.mem_flatMap.mp h
      obtain ⟨⟨mb, rb⟩, hb, heq⟩ := List.mem_map.mp h
      cases heq
      obtain ⟨hs, hfa⟩ := iha ha
      have hr : ra = mb.text ++ rb := (ihb hb).1
      refine ⟨?_, ma.text, mb.text, rfl, hfa, (ihb hb).2⟩
      rw [hs, hr]
      exact (List.append_assoc ..).symm
  | group a iha =>
      intro s m rest h
      obtain ⟨⟨ma, ra⟩, ha, heq⟩ := List.mem_map.mp h
      cases heq
      exact ⟨(iha ha).1, (iha ha).2⟩

/-- Whatever matches at a place is tried there. -/
theorem Pattern.exists_run {p : Pattern α} :
    ∀ {w : List α}, p.Fits w → ∀ rest, ∃ m, (m, rest) ∈ p.runs (w ++ rest) ∧ m.text = w := by
  induction p with
  | one p =>
      rintro w ⟨c, rfl, hc⟩ rest
      exact ⟨⟨[c], []⟩, by simp [runs, hc], rfl⟩
  | many p =>
      intro w hw rest
      exact ⟨⟨w, []⟩, List.mem_map.mpr ⟨(w, rest), mem_manyRuns.mpr ⟨rfl, hw⟩, rfl⟩, rfl⟩
  | seq a b iha ihb =>
      rintro w ⟨u, v, rfl, hu, hv⟩ rest
      obtain ⟨ma, hma, rfl⟩ := iha hu (v ++ rest)
      obtain ⟨mb, hmb, rfl⟩ := ihb hv rest
      refine ⟨ma.append mb, ?_, rfl⟩
      rw [List.append_assoc]
      exact List.mem_flatMap.mpr ⟨_, hma, List.mem_map.mpr ⟨_, hmb, rfl⟩⟩
  | group a iha =>
      intro w hw rest
      obtain ⟨m, hm, rfl⟩ := iha hw rest
      exact ⟨m.grouped, List.mem_map.mpr ⟨_, hm, rfl⟩, rfl⟩

/-- A pattern matches no empty text. -/
theorem Pattern.Fits.ne_nil {p : Pattern α} : ∀ {w : List α}, p.Fits w → w ≠ [] := by
  induction p with
  | one p =>
      rintro w ⟨c, rfl, -⟩
      simp
  | many p => exact fun h => h.1
  | seq a b iha ihb =>
      rintro w ⟨u, v, rfl, hu, -⟩ h
      exact iha hu (List.append_eq_nil_iff.mp h).1
  | group a iha => exact fun h => iha h

theorem Pattern.fits_word [DecidableEq α] {w : List α} :
    ∀ {p : Pattern α} {s : List α}, (p.word w).Fits s ↔ ∃ u, s = u ++ w ∧ p.Fits u := by
  induction w with
  | nil => simp [Pattern.word]
  | cons c cs ih =>
      intro p s
      rw [Pattern.word, ih]
      constructor
      · rintro ⟨u, rfl, v, x, rfl, hv, d, rfl, hd⟩
        obtain rfl := beq_iff_eq.mp hd
        exact ⟨v, by rw [List.append_assoc, List.singleton_append], hv⟩
      · rintro ⟨u, rfl, hu⟩
        exact ⟨u ++ [c], by simp, u, [c], rfl, hu, c, rfl, by simp⟩

/-! ## Patterns whose preferred match is the longest -/

theorem head?_flatMap {β γ : Type} {f : β → List γ} {l : List β} {x : γ}
    (h : (l.flatMap f).head? = some x) : ∃ y ∈ l, (f y).head? = some x := by
  induction l with
  | nil => cases h
  | cons y l ih =>
      rw [List.flatMap_cons, List.head?_append] at h
      cases hy : (f y).head? with
      | some z =>
          rw [hy, Option.some_or] at h
          exact ⟨y, List.mem_cons_self, hy.trans h⟩
      | none =>
          rw [hy, Option.none_or] at h
          obtain ⟨z, hz, hx⟩ := ih h
          exact ⟨z, List.mem_cons_of_mem _ hz, hx⟩

/-- The preferred repetition takes all characters of the class. -/
theorem head?_manyRuns {p : α → Bool} {s w rest : List α}
    (h : (manyRuns p s).head? = some (w, rest)) : w = s.takeWhile p := by
  induction s generalizing w rest with
  | nil => cases h
  | cons c cs ih =>
      rw [manyRuns] at h
      by_cases hc : p c = true
      · rw [if_pos hc, List.head?_append, List.head?_map] at h
        rw [List.takeWhile_cons_of_pos hc]
        cases hcs : (manyRuns p cs).head? with
        | some r =>
            rw [hcs] at h
            cases h
            rw [ih hcs]
        | none =>
            rw [hcs] at h
            cases h
            cases cs with
            | nil => rfl
            | cons d ds =>
                have hd : ¬ p d = true := by
                  intro hd
                  rw [manyRuns, if_pos hd] at hcs
                  simp at hcs
                rw [List.takeWhile_cons_of_neg hd]
      · rw [if_neg hc] at h
        cases h

theorem Pattern.greedy_many (p : α → Bool) : (Pattern.many p).Greedy := by
  intro s m rest h w rest' hs hw
  rw [runs, List.head?_map] at h
  obtain ⟨⟨u, r⟩, hu, heq⟩ := Option.map_eq_some_iff.mp h
  cases heq
  rw [head?_manyRuns hu, hs, List.takeWhile_append_of_pos hw.2, List.length_append]
  exact Nat.le_add_right ..

theorem Pattern.Greedy.group {a : Pattern α} (h : a.Greedy) : (Pattern.group a).Greedy := by
  intro s m rest hm w rest' hs hw
  rw [runs, List.head?_map] at hm
  obtain ⟨⟨ma, ra⟩, hma, heq⟩ := Option.map_eq_some_iff.mp hm
  cases heq
  exact h s ma ra hma w rest' hs hw

/-- A sequence whose first part can only end in one place. -/
theorem Pattern.Greedy.seq {a b : Pattern α} (hb : b.Greedy)
    (hends : ∀ u v u' v' rest rest', a.Fits u → a.Fits u' → b.Fits v → b.Fits v' →
      u ++ (v ++ rest) = u' ++ (v' ++ rest') → u = u') :
    (Pattern.seq a b).Greedy := by
  rintro s m rest h w rest' hs ⟨u, v, rfl, hu, hv⟩
  rw [runs] at h
  obtain ⟨⟨ma, ra⟩, hma, h⟩ := head?_flatMap h
  rw [List.head?_map] at h
  obtain ⟨⟨mb, rb⟩, hmb, heq⟩ := Option.map_eq_some_iff.mp h
  cases heq
  obtain ⟨hsa, hfa⟩ := fits_of_mem_runs hma
  obtain ⟨hsb, hfb⟩ := fits_of_mem_runs (List.mem_of_mem_head? (by rw [hmb]; rfl))
  have hra : ra = mb.text ++ rb := hsb
  have hsplit : u ++ (v ++ rest') = ma.text ++ (mb.text ++ rb) := by
    rw [← List.append_assoc, ← hs, hsa, hra]
  obtain rfl := hends _ _ _ _ _ _ hu hfa hv hfb hsplit
  have hrest : ra = v ++ rest' := by
    rw [hra]
    exact (List.append_cancel_left hsplit).symm
  have hlen := hb ra mb rb hmb v rest' hrest hv
  simp only [Match.append, List.length_append]
  omega

/-! ## All matches of a text -/

/-- The words of the language `L` in a text: the leftmost one, the longest there, and those
of the rest. -/
inductive LeftmostLongest (L : List α → Prop) : List α → List (List α) → Prop where
  | done {s : List α} (none : ∀ a w b, s = a ++ (w ++ b) → ¬ L w) : LeftmostLongest L s []
  | next {s a w b : List α} {ws : List (List α)} (split : s = a ++ (w ++ b)) (fits : L w)
      (leftmost : ∀ a' w' b', s = a' ++ (w' ++ b') → L w' → a.length ≤ a'.length)
      (longest : ∀ w' b', s = a ++ (w' ++ b') → L w' → w'.length ≤ w.length)
      (rest : LeftmostLongest L b ws) : LeftmostLongest L s (w :: ws)

/-- A text is cut in one way only. -/
theorem LeftmostLongest.unique {L : List α → Prop} {s : List α} {ws ws' : List (List α)}
    (h : LeftmostLongest L s ws) (h' : LeftmostLongest L s ws') : ws = ws' := by
  induction h generalizing ws' with
  | done none =>
      cases h' with
      | done => rfl
      | next split fits => exact absurd fits (none _ _ _ split)
  | @next s a w b ws split fits leftmost longest _ ih =>
      cases h' with
      | done none => exact absurd fits (none _ _ _ split)
      | @next _ a' w' b' _ split' fits' leftmost' longest' rest' =>
          have hlen : a.length = a'.length :=
            Nat.le_antisymm (leftmost _ _ _ split' fits') (leftmost' _ _ _ split fits)
          obtain ⟨rfl, hrest⟩ := List.append_inj (split.symm.trans split') hlen
          have hlen' : w.length = w'.length :=
            Nat.le_antisymm (longest' _ _ split fits) (longest _ _ split' fits')
          obtain ⟨rfl, rfl⟩ := List.append_inj hrest hlen'
          rw [ih rest']

/-- A character in front at which no word starts changes nothing. -/
theorem LeftmostLongest.cons {L : List α → Prop} {c : α} {s : List α} {ws : List (List α)}
    (hnone : ∀ w b, c :: s = w ++ b → ¬ L w) (h : LeftmostLongest L s ws) :
    LeftmostLongest L (c :: s) ws := by
  cases h with
  | done none =>
      refine .done fun a w b hs hw => ?_
      cases a with
      | nil => exact hnone w b hs hw
      | cons d a => exact none a w b (List.cons.inj hs).2 hw
  | next split fits leftmost longest rest =>
      rename_i a w b ws
      refine .next (a := c :: a) (by rw [split]; rfl) fits ?_ ?_ rest
      · intro a' w' b' hs hw
        cases a' with
        | nil => exact absurd hw (hnone w' b' hs)
        | cons d a' => exact Nat.succ_le_succ (leftmost a' w' b' (List.cons.inj hs).2 hw)
      · intro w' b' hs hw
        exact longest w' b' (List.cons.inj hs).2 hw

namespace Pattern

theorem first_eq_none {p : Pattern α} {s : List α} (h : p.first s = none) :
    ∀ w b, s = w ++ b → ¬ p.Fits w := by
  rintro w b rfl hw
  obtain ⟨m, hm, -⟩ := exists_run hw b
  rw [first, Option.map_eq_none_iff, List.head?_eq_none_iff] at h
  rw [h] at hm
  cases hm

theorem findAllFrom_drop (p : Pattern α) :
    ∀ (n : Nat) (s : List α), p.findAllFrom n s = p.findAllFrom 0 (s.drop n) := by
  intro n s
  induction s generalizing n with
  | nil => cases n <;> rfl
  | cons c cs ih =>
      cases n with
      | zero => rfl
      | succ n => exact ih n

/-- Behind a match the search goes on. -/
theorem findAll_match {p : Pattern α} {s b : List α} {m : Match α}
    (h : (p.runs s).head? = some (m, b)) : p.findAll s = m :: p.findAll b := by
  obtain ⟨hs, hfits⟩ := fits_of_mem_runs (List.mem_of_mem_head? (by rw [h]; rfl))
  have hfirst : p.first s = some m := by rw [first, h]; rfl
  cases s with
  | nil => exact absurd (List.append_eq_nil_iff.mp hs.symm).1 hfits.ne_nil
  | cons c cs =>
      rw [findAll, findAllFrom, hfirst]
      simp only [List.cons.injEq, true_and]
      rw [findAllFrom_drop, findAll]
      congr 1
      have hlen : m.text.length = (m.text.length - 1) + 1 :=
        (Nat.sub_add_cancel (List.length_pos_iff.mpr hfits.ne_nil)).symm
      calc cs.drop (m.text.length - 1)
          = (c :: cs).drop m.text.length := by rw [hlen]; rfl
        _ = b := by rw [hs, List.drop_left]

/-- **The matches of a pattern whose preferred match is its longest one are the leftmost,
longest, non-overlapping ones.** -/
theorem findAll_leftmostLongest {p : Pattern α} (hp : p.Greedy) (s : List α) :
    LeftmostLongest p.Fits s ((p.findAll s).map Match.text) := by
  induction hn : s.length using Nat.strongRecOn generalizing s with
  | ind n ih =>
      cases s with
      | nil =>
          refine .done fun a w b hs hw => hw.ne_nil ?_
          have hnil := List.append_eq_nil_iff.mp hs.symm
          exact (List.append_eq_nil_iff.mp hnil.2).1
      | cons c cs =>
          cases h : (p.runs (c :: cs)).head? with
          | none =>
              have hfirst : p.first (c :: cs) = none := by rw [first, h]; rfl
              have hfind : p.findAll (c :: cs) = p.findAll cs := by
                rw [findAll, findAllFrom, hfirst]
                rfl
              rw [hfind]
              refine .cons (first_eq_none hfirst) (ih cs.length ?_ cs rfl)
              rw [← hn]
              exact Nat.lt_succ_self _
          | some r =>
              obtain ⟨m, b⟩ := r
              obtain ⟨hs, hfits⟩ := fits_of_mem_runs (List.mem_of_mem_head? (by rw [h]; rfl))
              rw [findAll_match h]
              refine .next (a := []) hs hfits (by simp) ?_ (ih b.length ?_ b rfl)
              · intro w' b' hs' hw'
                exact hp _ _ _ h _ _ hs' hw'
              · have hpos := List.length_pos_iff.mpr hfits.ne_nil
                rw [← hn, hs, List.length_append]
                omega

/-- Every match is one of those tried at some place. -/
theorem mem_findAll {p : Pattern α} {m : Match α} :
    ∀ {s : List α}, m ∈ p.findAll s → ∃ s' rest, (m, rest) ∈ p.runs s' := by
  intro s
  induction hn : s.length using Nat.strongRecOn generalizing s with
  | ind n ih =>
      intro hm
      cases s with
      | nil => cases hm
      | cons c cs =>
          cases h : (p.runs (c :: cs)).head? with
          | none =>
              have hfirst : p.first (c :: cs) = none := by rw [first, h]; rfl
              have hfind : p.findAll (c :: cs) = p.findAll cs := by
                rw [findAll, findAllFrom, hfirst]
                rfl
              rw [hfind] at hm
              exact ih cs.length (by rw [← hn]; exact Nat.lt_succ_self _) rfl hm
          | some r =>
              obtain ⟨m', b⟩ := r
              have hmem := List.mem_of_mem_head? (by rw [h]; rfl)
              rw [findAll_match h] at hm
              rcases List.mem_cons.mp hm with rfl | hm
              · exact ⟨_, b, hmem⟩
              · obtain ⟨hs, hfits⟩ := fits_of_mem_runs hmem
                have hpos := List.length_pos_iff.mpr hfits.ne_nil
                refine ih b.length ?_ rfl hm
                rw [← hn, hs, List.length_append]
                omega

end Pattern

end Regexp
