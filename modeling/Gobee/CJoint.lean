/-
# Parts of a text that keep their tokens

A text is often put together from parts that are themselves texts of several tokens.  When
two parts stand side by side without a blank, the last token of the first may go on into the
second; nothing else can go wrong.

* `lex_joinParts_iff` : the tokens of a list of parts are those of the parts exactly when no
  part runs into the next (`Unfused`);
* `lex_render_parts_iff` : **an expression is read as the tokens of its parts exactly when
  no prefix operator runs into its operand and no operand into the operator behind it**
  (`Apart`); brackets never do.
-/
import Gobee.CExpr

namespace CSyntax

/-! ## Parts -/

/-- The tokens of a text. -/
def tokensOf (w : Text) : List Text := (lex w).getD []

/-- The last token of a text. -/
def lastToken (w : Text) : Text := (tokensOf w).getLastD []

/-- The text is a sequence of tokens without blanks at its ends. -/
structure IsPart (w : Text) : Prop where
  ne_nil : w ≠ []
  head : ∀ c ∈ w.head?, isBlank c = false
  last : ∀ c ∈ w.getLast?, isBlank c = false
  lexed : (lex w).isSome = true

instance (w : Text) : Decidable (IsPart w) :=
  decidable_of_iff (w ≠ [] ∧ (w.head?.all fun c => !isBlank c) = true ∧
      (w.getLast?.all fun c => !isBlank c) = true ∧ (lex w).isSome = true) (by
    simp only [Option.all_eq_true, Bool.not_eq_true']
    exact ⟨fun h => ⟨h.1, h.2.1, h.2.2.1, h.2.2.2⟩, fun h => ⟨h.ne_nil, h.head, h.last, h.lexed⟩⟩)

theorem lexFrom_skip {ws : Text} (h : ∀ c ∈ ws, isBlank c = true) (s : Text) :
    lexFrom none (ws ++ s) = lexFrom none s := by
  induction ws with
  | nil => rfl
  | cons c cs ih =>
      rw [List.forall_mem_cons] at h
      rw [List.cons_append, lexFrom, if_pos h.1, ih h.2]

/-- A text that does not end in a blank is read up to its last token. -/
theorem lexFrom_append {ts : List Text} :
    ∀ {w : Text}, w ≠ [] → (∀ c ∈ w.getLast?, isBlank c = false) → lexFrom none w = some ts →
      ∃ init t q, ts = init ++ [t] ∧ scan t = some q ∧ finish q = some t ∧
        ∀ rest, lexFrom none (w ++ rest) = (lexFrom (some q) rest).map (init ++ ·) := by
  induction ts with
  | nil =>
      intro w hne hlast h
      have hblank := lex_nil h (w.getLast hne) (List.getLast_mem hne)
      have hnot := hlast (w.getLast hne) (List.getLast?_eq_some_getLast hne)
      rw [hblank] at hnot
      cases hnot
  | cons t ts ih =>
      intro w hne hlast h
      obtain ⟨ws, r, q, hw, hws, hscan, hfin, hstop, hlex⟩ := lex_cons h
      by_cases hr : r = []
      · subst hr
        rw [lexFrom, Option.some.injEq] at hlex
        refine ⟨[], t, q, by rw [← hlex]; rfl, hscan, hfin, fun rest => ?_⟩
        rw [hw, List.append_nil, List.append_assoc, lexFrom_skip hws, lex_scan _ hscan]
        simp
      · have hlast' : ∀ c ∈ r.getLast?, isBlank c = false := by
          intro c hc
          refine hlast c ?_
          rw [hw, List.getLast?_append_of_ne_nil _ hr]
          exact hc
        obtain ⟨init, t', q', hts, hscan', hfin', hrest⟩ := ih hr hlast' hlex
        refine ⟨t :: init, t', q', by rw [hts]; rfl, hscan', hfin', fun rest => ?_⟩
        have hstop' : ∀ c ∈ (r ++ rest).head?, extend q c = none := by
          intro c hc
          refine hstop c ?_
          rwa [List.head?_append_of_ne_nil _ hr] at hc
        rw [hw, List.append_assoc, List.append_assoc, lexFrom_skip hws, lex_scan _ hscan,
          lexFrom_stop hfin hstop', hrest, Option.map_map]
        rfl

/-- A part is read up to its last token. -/
theorem IsPart.lex_append {w : Text} (h : IsPart w) :
    ∃ init q, tokensOf w = init ++ [lastToken w] ∧ scan (lastToken w) = some q ∧
      finish q = some (lastToken w) ∧
        ∀ rest, lex (w ++ rest) = (lexFrom (some q) rest).map (init ++ ·) := by
  obtain ⟨ts, hts⟩ := Option.isSome_iff_exists.mp h.lexed
  have htokens : tokensOf w = ts := by rw [tokensOf, hts, Option.getD_some]
  obtain ⟨init, t, q, heq, hscan, hfin, hrest⟩ := lexFrom_append h.ne_nil h.last hts
  have ht : lastToken w = t := by
    rw [lastToken, htokens, heq]
    simp
  rw [ht, htokens]
  exact ⟨init, q, heq, hscan, hfin, hrest⟩

/-! ## Parts side by side -/

/-- The first text does not run into the second. -/
def Joint (w s : Text) : Prop := ∀ c ∈ s.head?, fusesWith (lastToken w) c = false

instance (w s : Text) : Decidable (Joint w s) :=
  decidable_of_iff ((s.head?.all fun c => !fusesWith (lastToken w) c) = true) (by
    simp only [Option.all_eq_true, Bool.not_eq_true']
    exact Iff.rfl)

/-- No part runs into the next. -/
def Unfused : List Piece → Prop
  | [] => True
  | (w, sp) :: ps => (sp = true ∨ Joint w (joinPieces ps)) ∧ Unfused ps

/-- **The tokens of a list of parts are those of the parts exactly when no part runs into
the next.** -/
theorem lex_joinParts_iff : ∀ {ps : List Piece}, (∀ p ∈ ps, IsPart p.1) →
    (lex (joinPieces ps) = some (ps.flatMap fun p => tokensOf p.1) ↔ Unfused ps)
  | [], _ => by simp [joinPieces, Unfused, lex, lexFrom]
  | (w, sp) :: ps, h => by
      rw [List.forall_mem_cons] at h
      obtain ⟨init, q, htokens, hscan, hfin, hrest⟩ := h.1.lex_append
      have ih := lex_joinParts_iff h.2
      have hgap : lexFrom none ((if sp then [' '] else []) ++ joinPieces ps) =
          lexFrom none (joinPieces ps) := by
        cases sp with
        | true => rfl
        | false => rfl
      have hstop : (∀ c ∈ ((if sp then [' '] else []) ++ joinPieces ps).head?,
          extend q c = none) ↔ (sp = true ∨ Joint w (joinPieces ps)) := by
        cases sp with
        | true =>
            simp only [if_true, true_or, iff_true]
            intro c hc
            have hcs : c = ' ' := by simpa [eq_comm] using hc
            exact extend_blank hfin (by rw [hcs]; rfl)
        | false => simp [Joint, fusesWith, hscan]
      rw [joinPieces, List.append_assoc, hrest, List.flatMap_cons, htokens, Unfused, ← ih, ← hstop]
      constructor
      · intro hlex
        obtain ⟨us, hus, heq⟩ := Option.map_eq_some_iff.mp hlex
        rw [List.append_assoc, List.append_cancel_left_eq] at heq
        rw [heq] at hus
        -- the last token comes out as it stands, so nothing was added to it
        obtain ⟨w', rest, q', hsplit, hscan', hfin', hend, hlex'⟩ := lexFrom_some_cons hus
        have htext : lastToken w = lastToken w ++ w' := by
          have hq' := finish_eq hfin'
          rw [scanFrom_text hscan', scan_text hscan] at hq'
          exact hq'
        have hnil : w' = [] := by simpa using htext
        subst hnil
        rw [scanFrom, Option.some.injEq] at hscan'
        rw [List.nil_append] at hsplit
        rw [← hsplit, ← hscan'] at hend
        rw [← hsplit, hgap] at hlex'
        exact ⟨hend, hlex'⟩
      · rintro ⟨hend, hlex⟩
        have hlex' : lexFrom none (joinPieces ps) = _ := hlex
        rw [lexFrom_stop hfin hend, hgap, hlex']
        simp

theorem joint_append {w s t : Text} (hs : s ≠ []) : Joint w (s ++ t) ↔ Joint w s := by
  unfold Joint
  rw [List.head?_append_of_ne_nil _ hs]

theorem joint_nil (w : Text) : Joint w [] := by
  intro c hc
  cases hc

/-- Two lists of parts, one behind the other. -/
theorem unfused_append {ps qs : List Piece} {w : Text} {sp : Bool}
    (hparts : ∀ p ∈ ps ++ [(w, sp)], IsPart p.1) :
    Unfused ((ps ++ [(w, sp)]) ++ qs) ↔
      Unfused (ps ++ [(w, sp)]) ∧ (sp = true ∨ Joint w (joinPieces qs)) ∧ Unfused qs := by
  induction ps with
  | nil =>
      simp only [List.nil_append, List.singleton_append, Unfused, joinPieces]
      have hnil := joint_nil w
      tauto
  | cons p ps ih =>
      obtain ⟨w', sp'⟩ := p
      rw [List.cons_append, List.forall_mem_cons] at hparts
      have hne : joinPieces (ps ++ [(w, sp)]) ≠ [] := by
        have hw := (hparts.2 (w, sp) (by simp)).ne_nil
        simp [joinPieces, hw]
      rw [List.cons_append, List.cons_append, Unfused, Unfused, ih hparts.2, joinPieces_append,
        joint_append hne]
      tauto

/-! ## Brackets -/

/-- The brackets and the comma. -/
def brackets : List Char := ['(', ')', '[', ']', ',']

/-- Nothing goes on into a bracket. -/
theorem extend_bracket {p : Partial} {t : Text} {c : Char} (hp : finish p = some t)
    (hne : p.text ≠ []) (hc : c ∈ brackets) : extend p c = none := by
  obtain ⟨mode, text⟩ := p
  have hcs : c = '(' ∨ c = ')' ∨ c = '[' ∨ c = ']' ∨ c = ',' := by simpa [brackets] using hc
  have hchar : isIdentChar c = false ∧ c.isDigit = false ∧ (c == '.') = false ∧
      (c == '+') = false ∧ (c == '-') = false := by
    rcases hcs with rfl | rfl | rfl | rfl | rfl <;> decide
  cases mode with
  | ident => simp [extend, hchar.1]
  | number => simp [extend, signFits, hchar]
  | punct =>
      have hlong : ∀ w ∈ puncts, 2 ≤ w.length → w.getLast? ≠ some c := by
        rcases hcs with rfl | rfl | rfl | rfl | rfl <;> decide
      have htext : text ++ [c] ∉ puncts := by
        intro hmem
        refine hlong _ hmem ?_ (by simp)
        have hpos := List.length_pos_of_ne_nil hne
        rw [List.length_append, List.length_singleton]
        exact Nat.succ_le_succ hpos
      simp [extend, htext, hchar]
  | quoted q esc => simp [finish] at hp
  | closed => rfl

theorem joint_bracket {w s : Text} {c : Char} (hw : IsPart w) (hc : c ∈ brackets) :
    Joint w (c :: s) := by
  obtain ⟨-, q, -, hscan, hfin, -⟩ := hw.lex_append
  have hne : q.text ≠ [] := by
    rw [scan_text hscan]
    intro hnil
    rw [hnil] at hscan
    cases hscan
  intro d hd
  have hcd : d = c := by simpa [eq_comm] using hd
  have hstop := extend_bracket hfin hne hc
  simp [fusesWith, hscan, hcd, hstop]

/-- A bracket does not go on. -/
theorem joint_of_bracket {c : Char} (hc : c ∈ brackets) (s : Text) : Joint [c] s := by
  have hcs : c = '(' ∨ c = ')' ∨ c = '[' ∨ c = ']' ∨ c = ',' := by simpa [brackets] using hc
  have hscan : lastToken [c] = [c] ∧ scan [c] = some ⟨.punct, [c]⟩ ∧ c ≠ '.' := by
    rcases hcs with rfl | rfl | rfl | rfl | rfl <;> decide
  have hlong : ∀ w ∈ puncts, 2 ≤ w.length → w.head? ≠ some c := by
    rcases hcs with rfl | rfl | rfl | rfl | rfl <;> decide
  intro d hd
  have hpunct : [c] ++ [d] ∉ puncts := fun hmem => hlong _ hmem (by simp) (by simp)
  have hdot : ([c] == ['.']) = false := by simpa using hscan.2.2
  rw [hscan.1, fusesWith, hscan.2.1]
  simp only [extend]
  rw [if_neg hpunct, hdot]
  rfl

/-! ## Expressions -/

namespace CExpr

variable {ι : Type}

/-- The first part of an expression. -/
def headWord : CExpr ι → Text
  | .leaf w _ => w
  | .paren _ | .cast _ _ => ['(']
  | .unary op _ => op
  | .post e _ => headWord e
  | .binary _ _ l _ => headWord l
  | .index b _ => headWord b
  | .member b _ _ => headWord b
  | .call f _ => headWord f

/-- The last part of an expression. -/
def tailWord : CExpr ι → Text
  | .leaf w _ => w
  | .paren _ | .call _ _ => [')']
  | .unary _ e => tailWord e
  | .post _ op => op
  | .binary _ _ _ r => tailWord r
  | .index _ _ => [']']
  | .member _ _ f => f
  | .cast _ e => tailWord e

mutual
/-- **No prefix operator runs into its operand, and no operand into the operator or the
member behind it.** -/
def Apart : CExpr ι → Prop
  | .leaf _ _ => True
  | .paren e => Apart e
  | .unary op e => Joint op (headWord e) ∧ Apart e
  | .post e op => Apart e ∧ Joint (tailWord e) op
  | .binary sp op l r =>
      Apart l ∧ (sp = true ∨ Joint (tailWord l) op) ∧ (sp = true ∨ Joint op (headWord r)) ∧ Apart r
  | .index b i => Apart b ∧ Apart i
  | .member b op f => Apart b ∧ Joint (tailWord b) op ∧ Joint op f
  | .call f args => Apart f ∧ ApartArgs args
  | .cast ty e => Unfused (typePieces ty) ∧ Apart e

/-- `Apart` on an argument list. -/
def ApartArgs : List (CExpr ι) → Prop
  | [] => True
  | a :: rest => Apart a ∧ ApartArgs rest
end

theorem pieces_head : ∀ (sp : Bool) (e : CExpr ι), ∃ sp' ps, pieces e sp = (headWord e, sp') :: ps
  | sp, .leaf w tag => ⟨_, _, rfl⟩
  | sp, .paren e => ⟨_, _, rfl⟩
  | sp, .unary op e => ⟨_, _, rfl⟩
  | sp, .post e op => by
      obtain ⟨sp', ps, h⟩ := pieces_head false e
      exact ⟨sp', _, by rw [pieces, h, List.cons_append]; rfl⟩
  | sp, .binary b op l r => by
      obtain ⟨sp', ps, h⟩ := pieces_head b l
      exact ⟨sp', _, by rw [pieces, h, List.cons_append]; rfl⟩
  | sp, .index b i => by
      obtain ⟨sp', ps, h⟩ := pieces_head false b
      exact ⟨sp', _, by rw [pieces, h, List.cons_append]; rfl⟩
  | sp, .member b op f => by
      obtain ⟨sp', ps, h⟩ := pieces_head false b
      exact ⟨sp', _, by rw [pieces, h, List.cons_append]; rfl⟩
  | sp, .call f args => by
      obtain ⟨sp', ps, h⟩ := pieces_head false f
      exact ⟨sp', _, by rw [pieces, h, List.cons_append]; rfl⟩
  | sp, .cast ty e => ⟨_, _, rfl⟩

theorem pieces_last : ∀ (sp : Bool) (e : CExpr ι), ∃ ps, pieces e sp = ps ++ [(tailWord e, sp)]
  | sp, .leaf w tag => ⟨[], rfl⟩
  | sp, .paren e => ⟨(['('], false) :: pieces e false, rfl⟩
  | sp, .unary op e => by
      obtain ⟨ps, h⟩ := pieces_last sp e
      exact ⟨(op, false) :: ps, by rw [pieces, h]; rfl⟩
  | sp, .post e op => ⟨_, rfl⟩
  | sp, .binary b op l r => by
      obtain ⟨ps, h⟩ := pieces_last sp r
      exact ⟨pieces l b ++ (op, b) :: ps, by rw [pieces, h, List.append_assoc]; rfl⟩
  | sp, .index b i =>
      ⟨pieces b false ++ (['['], false) :: pieces i false, by rw [pieces, List.append_assoc]; rfl⟩
  | sp, .member b op f =>
      ⟨pieces b false ++ [(op, false)], by rw [pieces, List.append_assoc]; rfl⟩
  | sp, .call f args =>
      ⟨pieces f false ++ (['('], false) :: piecesArgs args, by
        rw [pieces, List.append_assoc]
        rfl⟩
  | sp, .cast ty e => by
      obtain ⟨ps, h⟩ := pieces_last sp e
      refine ⟨(['('], false) :: (typePieces ty ++ ([')'], false) :: ps), ?_⟩
      rw [pieces, h]
      simp [tailWord]

section

variable {e : CExpr ι} {sp : Bool} {qs : List Piece}

/-- An expression and what stands behind it. -/
theorem unfused_pieces_append (hparts : ∀ p ∈ pieces e sp, IsPart p.1) :
    Unfused (pieces e sp ++ qs) ↔
      Unfused (pieces e sp) ∧ (sp = true ∨ Joint (tailWord e) (joinPieces qs)) ∧ Unfused qs := by
  obtain ⟨ps, h⟩ := pieces_last sp e
  rw [h] at hparts ⊢
  exact unfused_append hparts

/-- What runs into an expression runs into its first part. -/
theorem joint_pieces {w : Text} (hparts : ∀ p ∈ pieces e sp, IsPart p.1) :
    Joint w (joinPieces (pieces e sp)) ↔ Joint w (headWord e) := by
  obtain ⟨sp', ps, h⟩ := pieces_head sp e
  rw [h] at hparts ⊢
  have hne := (hparts _ List.mem_cons_self).ne_nil
  rw [joinPieces, List.append_assoc, joint_append hne]

theorem isPart_tailWord (hparts : ∀ p ∈ pieces e sp, IsPart p.1) : IsPart (tailWord e) := by
  obtain ⟨ps, h⟩ := pieces_last sp e
  rw [h] at hparts
  exact hparts _ (List.mem_append_right _ List.mem_cons_self)

/-- An expression in front of a bracket. -/
theorem unfused_bracket {c : Char} {sp' : Bool} (hparts : ∀ p ∈ pieces e false, IsPart p.1)
    (hc : c ∈ brackets) :
    Unfused (pieces e false ++ ([c], sp') :: qs) ↔ Unfused (pieces e false) ∧ Unfused qs := by
  have hjoint : Joint (tailWord e) (joinPieces (([c], sp') :: qs)) :=
    joint_bracket (isPart_tailWord hparts) hc
  rw [unfused_pieces_append hparts, Unfused]
  have hafter := joint_of_bracket hc (joinPieces qs)
  tauto

end

mutual
theorem unfused_pieces : ∀ (e : CExpr ι) (sp : Bool), (∀ p ∈ pieces e sp, IsPart p.1) →
    (Unfused (pieces e sp) ↔ Apart e)
  | .leaf w tag, sp, _ => by simp [pieces, Unfused, Apart, joinPieces, joint_nil]
  | .paren e, sp, h => by
      rw [pieces, List.forall_mem_cons, List.forall_mem_append] at h
      rw [pieces, Unfused, unfused_bracket h.2.1 (by decide), Apart, unfused_pieces e false h.2.1]
      have hopen := @joint_of_bracket '(' (by decide)
      simp [hopen, Unfused]
  | .unary op e, sp, h => by
      rw [pieces, List.forall_mem_cons] at h
      rw [pieces, Unfused, joint_pieces h.2, Apart, unfused_pieces e sp h.2]
      simp
  | .post e op, sp, h => by
      rw [pieces, List.forall_mem_append, List.forall_mem_singleton] at h
      have hop : Joint (tailWord e) (joinPieces [(op, sp)]) ↔ Joint (tailWord e) op := by
        rw [joinPieces, List.append_assoc, joint_append h.2.ne_nil]
      rw [pieces, unfused_pieces_append h.1, hop, Apart, unfused_pieces e false h.1]
      simp [Unfused, joinPieces, joint_nil]
  | .binary b op l r, sp, h => by
      rw [pieces, List.forall_mem_append, List.forall_mem_cons] at h
      have hop : Joint (tailWord l) (joinPieces ((op, b) :: pieces r sp)) ↔
          Joint (tailWord l) op := by
        rw [joinPieces, List.append_assoc, joint_append h.2.1.ne_nil]
      rw [pieces, unfused_pieces_append h.1, hop, Unfused, joint_pieces h.2.2, Apart,
        unfused_pieces l b h.1, unfused_pieces r sp h.2.2]
  | .index b i, sp, h => by
      rw [pieces, List.forall_mem_append, List.forall_mem_cons, List.forall_mem_append] at h
      rw [pieces, unfused_bracket h.1 (by decide), unfused_bracket h.2.2.1 (by decide), Apart,
        unfused_pieces b false h.1, unfused_pieces i false h.2.2.1]
      simp [Unfused]
  | .member b op f, sp, h => by
      rw [pieces, List.forall_mem_append, List.forall_mem_cons, List.forall_mem_singleton] at h
      have hop : Joint (tailWord b) (joinPieces [(op, false), (f, sp)]) ↔
          Joint (tailWord b) op := by
        rw [joinPieces, List.append_assoc, joint_append h.2.1.ne_nil]
      have hf : Joint op (joinPieces [(f, sp)]) ↔ Joint op f := by
        rw [joinPieces, List.append_assoc, joint_append h.2.2.ne_nil]
      rw [pieces, unfused_pieces_append h.1, hop, Unfused, hf, Apart, unfused_pieces b false h.1]
      simp [Unfused, joinPieces, joint_nil]
  | .call f args, sp, h => by
      rw [pieces, List.forall_mem_append, List.forall_mem_cons, List.forall_mem_append] at h
      rw [pieces, unfused_bracket h.1 (by decide), unfused_args args [] sp h.2.2.1, Apart,
        unfused_pieces f false h.1]
      simp [Unfused]
  | .cast ty e, sp, h => by
      rw [pieces, List.forall_mem_cons, List.forall_mem_append, List.forall_mem_cons] at h
      have hty : Unfused (typePieces ty ++ ([')'], false) :: pieces e sp) ↔
          Unfused (typePieces ty) ∧ Unfused (pieces e sp) := by
        have hclose := @joint_of_bracket ')' (by decide) (joinPieces (pieces e sp))
        -- the parenthesis after the type name meets its last word
        rcases List.eq_nil_or_concat (typePieces ty) with hnil | ⟨ps, ⟨w, sp'⟩, hconcat⟩
        · rw [hnil]
          simp [Unfused, hclose]
        · rw [hconcat, List.concat_eq_append] at h ⊢
          have hw : IsPart w := h.2.1 (w, sp') (by simp)
          have hjoint : Joint w (joinPieces (([')'], false) :: pieces e sp)) :=
            joint_bracket hw (by decide)
          rw [unfused_append h.2.1, Unfused]
          tauto
      have hopen := @joint_of_bracket '(' (by decide)
      rw [pieces, Unfused, hty, Apart, unfused_pieces e sp h.2.2.2]
      simp [hopen]

theorem unfused_args : ∀ (args : List (CExpr ι)) (qs : List Piece) (sp : Bool),
    (∀ p ∈ piecesArgs args, IsPart p.1) →
      (Unfused (piecesArgs args ++ ([')'], sp) :: qs) ↔ ApartArgs args ∧ Unfused qs)
  | [], qs, sp, _ => by
      have hclose := @joint_of_bracket ')' (by decide) (joinPieces qs)
      simp [piecesArgs, ApartArgs, Unfused, hclose]
  | [a], qs, sp, h => by
      rw [piecesArgs] at h ⊢
      rw [unfused_bracket h (by decide), unfused_pieces a false h]
      simp [ApartArgs]
  | a :: b :: rest, qs, sp, h => by
      rw [piecesArgs, List.forall_mem_append, List.forall_mem_cons] at h
      rw [piecesArgs, List.append_assoc, List.cons_append, unfused_bracket h.1 (by decide),
        unfused_args (b :: rest) qs sp h.2.2, unfused_pieces a false h.1, ApartArgs.eq_def (a :: _),
        and_assoc]
end

/-- The tokens of the parts of an expression. -/
def partTokens (e : CExpr ι) : List Text := (pieces e false).flatMap fun p => tokensOf p.1

/-- **An expression is read as the tokens of its parts exactly when they stand apart.** -/
theorem lex_render_parts_iff {e : CExpr ι} (hparts : ∀ p ∈ pieces e false, IsPart p.1) :
    lex (render e) = some (partTokens e) ↔ Apart e := by
  have hrender : joinPieces (pieces e false) = render e := by
    rw [joinPieces_pieces]
    simp [gap]
  rw [← hrender, ← unfused_pieces e false hparts]
  exact lex_joinParts_iff hparts

end CExpr

end CSyntax
