/-
# Legible expressions

An expression is *legible* if its text is read back as the expression itself.  For each
way of putting an expression together this module says what makes the result legible,
given that its operands are.

* `readBack_eq_iff` : **the text of an expression is read back as its operator tree exactly
  when the expression is legible.**
-/
import Gobee.CJoint
import Gobee.CParse

namespace CSyntax

open CExpr

/-! ## Tokens are parts -/

/-- A literal that is being read was opened by a quote. -/
def Partial.Opened (p : Partial) : Prop := ∀ q esc, p.mode = .quoted q esc → isBlank q = false

theorem opened_start {c : Char} {p : Partial} (h : start c = some p) : p.Opened := by
  intro q esc hmode
  unfold start at h
  split_ifs at h with h₁ h₂ h₃ h₄ <;> cases h
  · cases hmode
  · cases hmode
  · cases hmode
    rw [Bool.or_eq_true, beq_iff_eq, beq_iff_eq] at h₃
    rcases h₃ with rfl | rfl <;> rfl
  · cases hmode

/-- One more character of a token keeps the quote, and the last one is no blank. -/
theorem opened_extend {p q : Partial} {c : Char} (hp : p.Opened) (h : extend p c = some q) :
    q.Opened ∧ ((finish q).isSome = true → isBlank c = false) := by
  obtain ⟨mode, text⟩ := p
  have hstop : ∀ {t : Text}, finish ⟨mode, text⟩ = some t → isBlank c = false := by
    intro t ht
    by_contra hb
    rw [extend_blank ht (by simpa using hb)] at h
    cases h
  -- only a quoted word can stay open over a blank
  cases mode with
  | ident =>
      refine ⟨?_, fun _ => hstop rfl⟩
      simp only [extend] at h
      split_ifs at h
      cases h
      intro q esc hmode
      cases hmode
  | number =>
      refine ⟨?_, fun _ => hstop rfl⟩
      simp only [extend] at h
      split_ifs at h
      cases h
      intro q esc hmode
      cases hmode
  | punct =>
      refine ⟨?_, fun _ => hstop rfl⟩
      simp only [extend] at h
      split_ifs at h <;> cases h <;> (intro q esc hmode; cases hmode)
  | quoted d esc =>
      have hd := hp d esc rfl
      cases esc with
      | true =>
          cases h
          refine ⟨?_, fun hfin => by cases hfin⟩
          intro q esc hmode
          cases hmode
          exact hd
      | false =>
          simp only [extend] at h
          split_ifs at h with hq hesc
          · cases h
            refine ⟨?_, fun _ => ?_⟩
            · intro q esc hmode
              cases hmode
            · rw [beq_iff_eq] at hq
              rw [hq]
              exact hd
          · cases h
            refine ⟨?_, fun hfin => by cases hfin⟩
            intro q esc hmode
            cases hmode
            exact hd
          · cases h
            refine ⟨?_, fun hfin => by cases hfin⟩
            intro q esc hmode
            cases hmode
            exact hd
  | closed => cases h

theorem last_of_scanFrom {w : Text} : ∀ {p q : Partial}, p.Opened → scanFrom p w = some q →
    (finish q).isSome = true → ∀ c ∈ w.getLast?, isBlank c = false := by
  induction w with
  | nil =>
      intro p q _ _ _ c hc
      cases hc
  | cons d ds ih =>
      intro p q hp h hfin c hc
      rw [scanFrom] at h
      obtain ⟨p', hp', hq⟩ := Option.bind_eq_some_iff.mp h
      obtain ⟨hopened, hblank⟩ := opened_extend hp hp'
      cases ds with
      | nil =>
          cases hq
          have hcd : c = d := by simpa [eq_comm] using hc
          rw [hcd]
          exact hblank hfin
      | cons e es => exact ih hopened hq hfin c (by simpa using hc)

theorem IsPart.of_isToken {w : Text} (h : isToken w = true) : IsPart w := by
  obtain ⟨q, hq, hfin⟩ := exists_scan_of_isToken h
  have hlex : lex w = some [w] := by
    have hread := lex_scan [] hq
    rw [List.append_nil, lexFrom, hfin] at hread
    exact hread
  cases w with
  | nil => cases hq
  | cons c cs =>
      refine ⟨List.cons_ne_nil _ _, ?_, ?_, by rw [hlex]; rfl⟩
      · intro d hd
        have hcd : d = c := by simpa [eq_comm] using hd
        rw [hcd]
        exact scan_head_not_blank hq
      · intro d hd
        have hb := scan_head_not_blank hq
        rw [scan, if_neg (by rw [hb]; simp)] at hq
        obtain ⟨p, hp, hscan⟩ := Option.bind_eq_some_iff.mp hq
        cases cs with
        | nil =>
            have hcd : d = c := by simpa [eq_comm] using hd
            rw [hcd]
            exact hb
        | cons e es =>
            exact last_of_scanFrom (opened_start hp) hscan (by rw [hfin]; rfl) d (by simpa using hd)

theorem lastToken_of_isToken {w : Text} (h : isToken w = true) : lastToken w = w := by
  obtain ⟨q, hq, hfin⟩ := exists_scan_of_isToken h
  have hread := lex_scan [] hq
  rw [List.append_nil, lexFrom, hfin] at hread
  rw [lastToken, tokensOf, lex, hread]
  rfl

/-- Separated pieces are tokens that do not fuse. -/
theorem separated_iff : ∀ {ps : List Piece},
    Separated ps ↔ (∀ p ∈ ps, isToken p.1 = true) ∧ Unfused ps
  | [] => by simp [Separated, Unfused]
  | (w, sp) :: ps => by
      rw [Separated, separated_iff, List.forall_mem_cons, Unfused]
      constructor
      · rintro ⟨htok, hjoint, htoks, hrest⟩
        refine ⟨⟨htok, htoks⟩, hjoint.imp id fun hj => ?_, hrest⟩
        rw [Joint, lastToken_of_isToken htok]
        exact hj
      · rintro ⟨⟨htok, htoks⟩, hjoint, hrest⟩
        refine ⟨htok, hjoint.imp id fun hj => ?_, htoks, hrest⟩
        rw [Joint, lastToken_of_isToken htok] at hj
        exact hj

/-! ## Legible expressions -/

variable {ι : Type}

/-- Every part is a token, the parts stand apart, and every operand binds tightly enough. -/
structure Legible (e : CExpr ι) : Prop where
  tokens : ∀ w ∈ toks e, isToken w = true
  apart : Apart e
  fits : Fits e

/-- **The text of an expression is read back as its operator tree exactly when the
expression is legible.** -/
theorem readBack_eq_iff (e : CExpr ι) :
    readBack (render e) = some (erase e) ↔ Legible e := by
  have htoks : (∀ p ∈ pieces e false, isToken p.1 = true) ↔ ∀ w ∈ toks e, isToken w = true := by
    rw [← pieces_fst e false, List.forall_mem_map]
  rw [readBack_iff, separated_iff, htoks]
  constructor
  · rintro ⟨⟨htok, hunfused⟩, hfits⟩
    refine ⟨htok, ?_, hfits⟩
    exact (unfused_pieces e false fun p hp => .of_isToken (htoks.mpr htok p hp)).mp hunfused
  · rintro ⟨htok, hapart, hfits⟩
    refine ⟨⟨htok, ?_⟩, hfits⟩
    exact (unfused_pieces e false fun p hp => .of_isToken (htoks.mpr htok p hp)).mpr hapart

section

variable {e : CExpr ι} {op : Text}

theorem legible_paren : Legible (.paren e) ↔ Legible e := by
  constructor
  · rintro ⟨htok, hapart, hfits⟩
    refine ⟨fun w hw => htok w ?_, hapart, hfits⟩
    rw [toks]
    simp [hw]
  · rintro ⟨htok, hapart, hfits⟩
    refine ⟨?_, hapart, hfits⟩
    rw [toks, List.forall_mem_cons, List.forall_mem_append, List.forall_mem_singleton]
    exact ⟨rfl, htok, rfl⟩

theorem legible_unary (hop : op ∈ prefixOps) :
    Legible (.unary op e) ↔ unaryLevel ≤ level e ∧ Joint op (headWord e) ∧ Legible e := by
  have htok : isToken op = true := by
    revert op
    decide
  constructor
  · rintro ⟨htoks, hapart, hfits⟩
    rw [toks, List.forall_mem_cons] at htoks
    exact ⟨hfits.2.1, hapart.1, htoks.2, hapart.2, hfits.2.2⟩
  · rintro ⟨hlevel, hjoint, htoks, hapart, hfits⟩
    refine ⟨?_, ⟨hjoint, hapart⟩, hop, hlevel, hfits⟩
    rw [toks, List.forall_mem_cons]
    exact ⟨htok, htoks⟩

theorem legible_post (hop : op ∈ postfixOps) :
    Legible (.post e op) ↔ postfixLevel ≤ level e ∧ Joint (tailWord e) op ∧ Legible e := by
  have htok : isToken op = true := by
    revert op
    decide
  constructor
  · rintro ⟨htoks, hapart, hfits⟩
    rw [toks, List.forall_mem_append] at htoks
    exact ⟨hfits.2.1, hapart.2, htoks.1, hapart.1, hfits.2.2⟩
  · rintro ⟨hlevel, hjoint, htoks, hapart, hfits⟩
    refine ⟨?_, ⟨hapart, hjoint⟩, hop, hlevel, hfits⟩
    rw [toks, List.forall_mem_append, List.forall_mem_singleton]
    exact ⟨htoks, htok⟩

theorem legible_leaf {w : Text} {tag : ι} (h : isOperand w = true) :
    Legible (.leaf w tag) := by
  refine ⟨?_, trivial, h⟩
  rw [toks, List.forall_mem_singleton]
  unfold isOperand isConstant isWord at h
  unfold isToken
  cases hscan : scan w with
  | none => simp [hscan] at h
  | some p =>
      obtain ⟨mode, text⟩ := p
      rw [hscan] at h
      cases mode <;> first | rfl | simp at h

theorem legibleArgs_iff (args : List (CExpr ι)) :
    ((∀ w ∈ toksArgs args, isToken w = true) ∧ ApartArgs args ∧ FitsArgs args) ↔
      ∀ a ∈ args, Legible a := by
  induction args with
  | nil => simp [toksArgs, ApartArgs, FitsArgs]
  | cons a rest ih =>
      have htoks : (∀ w ∈ toksArgs (a :: rest), isToken w = true) ↔
          (∀ w ∈ toks a, isToken w = true) ∧ ∀ w ∈ toksArgs rest, isToken w = true := by
        cases rest with
        | nil => simp [toksArgs]
        | cons b rest =>
            rw [toksArgs, List.forall_mem_append, List.forall_mem_cons]
            have hcomma : isToken [','] = true := rfl
            simp [hcomma]
      rw [List.forall_mem_cons, ← ih, htoks, ApartArgs, FitsArgs]
      constructor
      · rintro ⟨⟨ha, hrest⟩, ⟨hapart, hparts⟩, hfits, hargs⟩
        exact ⟨⟨ha, hapart, hfits⟩, hrest, hparts, hargs⟩
      · rintro ⟨⟨ha, hapart, hfits⟩, hrest, hparts, hargs⟩
        exact ⟨⟨ha, hrest⟩, ⟨hapart, hparts⟩, hfits, hargs⟩

/-- A call is legible if what is called and the arguments are. -/
theorem legible_call {f : CExpr ι} {args : List (CExpr ι)} :
    Legible (.call f args) ↔ postfixLevel ≤ level f ∧ Legible f ∧ ∀ a ∈ args, Legible a := by
  rw [← legibleArgs_iff]
  constructor
  · rintro ⟨htoks, hapart, hfits⟩
    rw [toks, List.forall_mem_append, List.forall_mem_cons, List.forall_mem_append] at htoks
    exact ⟨hfits.1, ⟨htoks.1, hapart.1, hfits.2.1⟩, htoks.2.2.1, hapart.2, hfits.2.2⟩
  · rintro ⟨hlevel, ⟨htok, hapart, hfits⟩, htoks, hparts, hargs⟩
    refine ⟨?_, ⟨hapart, hparts⟩, hlevel, hfits, hargs⟩
    rw [toks, List.forall_mem_append, List.forall_mem_cons, List.forall_mem_append,
      List.forall_mem_singleton]
    exact ⟨htok, rfl, htoks, rfl⟩

/-- A type name that may stand in a cast. -/
structure CastType (ty : List Text) : Prop where
  tokens : ∀ w ∈ ty, isToken w = true
  apart : Unfused (typePieces ty)
  fits : ∃ w ws, ty = w :: ws ∧ isTypeWord w = true ∧ ∀ v ∈ ws, isTypePart v = true

/-- A cast is legible if its operand binds as tightly as a prefix operator. -/
theorem legible_cast {ty : List Text} (hty : CastType ty) :
    Legible (.cast ty e) ↔ unaryLevel ≤ level e ∧ Legible e := by
  constructor
  · rintro ⟨htoks, hapart, hfits⟩
    rw [toks, List.forall_mem_cons, List.forall_mem_append, List.forall_mem_cons] at htoks
    exact ⟨hfits.2.1, htoks.2.2.2, hapart.2, hfits.2.2⟩
  · rintro ⟨hlevel, htoks, hapart, hfits⟩
    refine ⟨?_, ⟨hty.apart, hapart⟩, hty.fits, hlevel, hfits⟩
    rw [toks, List.forall_mem_cons, List.forall_mem_append, List.forall_mem_cons]
    exact ⟨rfl, hty.tokens, rfl, htoks⟩

/-- An expression begins with an operand, a prefix operator or a parenthesis. -/
theorem headWord_of_fits (e : CExpr ι) (h : Fits e) :
    isOperand (headWord e) = true ∨ headWord e ∈ prefixOps ∨ headWord e = ['('] := by
  cases e with
  | leaf w tag => exact .inl h
  | unary op e => exact .inr (.inl h.1)
  | post e op => exact headWord_of_fits e h.2.2
  | binary sp op l r => exact headWord_of_fits l h.2.2.2.1
  | index b i => exact headWord_of_fits b h.2.1
  | member b op f => exact headWord_of_fits b h.2.2.2
  | call f args => exact headWord_of_fits f h.2.1
  | _ => exact .inr (.inr rfl)

/-- A token that begins with a punctuator other than a dot is one. -/
theorem punct_of_scanFrom {w : Text} : ∀ {p q : Partial}, p.mode = .punct → p.text ≠ [] →
    p.text.head? ≠ some '.' → scanFrom p w = some q → q.mode = .punct := by
  induction w with
  | nil =>
      intro p q hp _ _ h
      cases h
      exact hp
  | cons c cs ih =>
      rintro ⟨mode, text⟩ q hp hne hdot h
      cases hp
      rw [scanFrom] at h
      obtain ⟨p', hp', hq⟩ := Option.bind_eq_some_iff.mp h
      have hnot : (text == ['.']) = false := by
        rw [beq_eq_false_iff_ne]
        rintro rfl
        exact hdot rfl
      simp only [extend, hnot, Bool.false_and, Bool.false_eq_true, if_false] at hp'
      split_ifs at hp'
      cases hp'
      refine ih rfl (by simp) ?_ hq
      rw [List.head?_append_of_ne_nil _ hne]
      exact hdot

theorem isOperand_equals (w : Text) : isOperand ('=' :: w) = false := by
  unfold isOperand isConstant isWord
  cases hscan : scan ('=' :: w) with
  | none => rfl
  | some q =>
      have hstart : scan ('=' :: w) = scanFrom ⟨.punct, ['=']⟩ w := rfl
      rw [hstart] at hscan
      have hmode := punct_of_scanFrom rfl (by simp) (by simp) hscan
      obtain ⟨mode, text⟩ := q
      cases hmode
      rfl

/-- An operand does not begin with a punctuator that goes on from a star. -/
theorem joint_star (h : Fits e) : Joint ['*'] (headWord e) := by
  have hstar : ∀ c, fusesWith (lastToken ['*']) c = true → c = '=' := by
    intro c hc
    have hlast : lastToken ['*'] = ['*'] := by decide
    rw [hlast] at hc
    by_contra hne
    have hnot : ['*'] ++ [c] ∉ puncts := by
      intro hmem
      have hall : ∀ w ∈ puncts, w.length = 2 → w.head? = some '*' → w.getLast? = some '=' := by
        decide
      have hlast := hall _ hmem rfl rfl
      exact hne (by simpa using hlast)
    have hscan : scan ['*'] = some ⟨.punct, ['*']⟩ := by decide
    rw [fusesWith, hscan] at hc
    simp only [extend] at hc
    rw [if_neg hnot] at hc
    cases hc
  intro c hc
  by_contra hfuse
  obtain rfl := hstar c (by simpa using hfuse)
  rcases headWord_of_fits _ h with hop | hop | hop
  · obtain ⟨w, hw⟩ := List.head?_eq_some_iff.mp hc
    rw [hw, isOperand_equals] at hop
    cases hop
  · have hall : ∀ w ∈ prefixOps, w.head? ≠ some '=' := by decide
    exact hall _ hop hc
  · rw [hop] at hc
    cases hc

end

/-! ## A postfix operator behind an expression -/

namespace CExpr

/-- Where a postfix operator ends up that is written behind an expression: below the
prefix operators and casts in front. -/
def suffixed (op : Text) : CExpr ι → CExpr ι
  | .unary p e => .unary p (suffixed op e)
  | .cast ty e => .cast ty (suffixed op e)
  | e => .post e op

/-- What the operator applies to. -/
def core : CExpr ι → CExpr ι
  | .unary _ e | .cast _ e => core e
  | e => e

variable {op : Text}

theorem render_suffixed : ∀ e : CExpr ι, render (suffixed op e) = render e ++ op
  | .unary p e => by
      rw [suffixed, render, render, render_suffixed e, List.append_assoc]
  | .cast ty e => by
      rw [suffixed, render, render, render_suffixed e]
      simp only [List.append_assoc]
  | .leaf _ _ | .paren _ | .post _ _ | .binary _ _ _ _ | .index _ _ | .member _ _ _ | .call _ _ =>
      rfl

theorem headWord_suffixed : ∀ e : CExpr ι, headWord (suffixed op e) = headWord e
  | .unary _ _ | .cast _ _ => rfl
  | .leaf _ _ | .paren _ | .post _ _ | .binary _ _ _ _ | .index _ _ | .member _ _ _ | .call _ _ =>
      rfl

theorem unaryLevel_le_suffixed : ∀ e : CExpr ι, unaryLevel ≤ level (suffixed op e)
  | .unary _ _ | .cast _ _ => le_refl unaryLevel
  | .leaf _ _ | .paren _ | .post _ _ | .binary _ _ _ _ | .index _ _ | .member _ _ _ | .call _ _ => by
      show unaryLevel ≤ postfixLevel
      decide

/-- **A postfix operator behind a legible expression is read at its core.** -/
theorem legible_suffixed (hop : op ∈ postfixOps) : ∀ {e : CExpr ι}, Legible e →
    unaryLevel ≤ level e → Joint (tailWord e) op → Legible (suffixed op e)
  | .unary p e, h, _, hjoint => by
      have hp : p ∈ prefixOps := h.fits.1
      obtain ⟨hlevel, hhead, he⟩ := (legible_unary hp).mp h
      rw [suffixed, legible_unary hp, headWord_suffixed]
      exact ⟨unaryLevel_le_suffixed e, hhead, legible_suffixed hop he hlevel hjoint⟩
  | .cast ty e, h, _, hjoint => by
      obtain ⟨htoks, hapart, hfits⟩ := h
      rw [toks, List.forall_mem_cons, List.forall_mem_append, List.forall_mem_cons] at htoks
      have hty : CastType ty := ⟨htoks.2.1, hapart.1, hfits.1⟩
      have he : Legible e := ⟨htoks.2.2.2, hapart.2, hfits.2.2⟩
      rw [suffixed, legible_cast hty]
      exact ⟨unaryLevel_le_suffixed e, legible_suffixed hop he hfits.2.1 hjoint⟩
  | .binary sp p l r, _, hlevel, _ => by
      have hlt := opLevel_lt_unaryLevel p
      have hle : unaryLevel ≤ opLevel p := hlevel
      omega
  | .leaf _ _, h, _, hjoint | .paren _, h, _, hjoint =>
      (legible_post hop).mpr ⟨postfixLevel_le_primaryLevel, hjoint, h⟩
  | .post _ _, h, _, hjoint | .index _ _, h, _, hjoint | .member _ _ _, h, _, hjoint
  | .call _ _, h, _, hjoint => (legible_post hop).mpr ⟨le_refl postfixLevel, hjoint, h⟩

end CExpr

end CSyntax
