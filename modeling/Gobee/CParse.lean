/-
# Reading C expressions back

A shift-reduce parser for C expressions with C's precedence levels and left
associativity (`parse`), as a machine that takes one token at a time, so that it is
structurally recursive and runs in the kernel.

* `parse_sound` : what the parser returns has exactly the tokens that were read, and
  every operand in it stands where it may;
* `parse_complete` : a tree that `Fits` is read back as itself;
* `toks_inj` : the tokens and the operator tree together determine the parentheses;
* `readBack_iff` : **the text of a tree is read back with the same operator tree if
  and only if the tree fits C's grammar and its tokens are separated.**
-/
import Gobee.CExpr

namespace CSyntax

open CExpr

variable {ι κ : Type}

/-! ## The machine -/

/-- What the parser still has to come back to. -/
inductive Frame where
  | pre (op : Text)
  | castTo (ty : List Text)
  | left (l : CExpr Unit) (op : Text)
  | openParen
  | openIndex (b : CExpr Unit)
  | openCall (f : CExpr Unit) (done : List (CExpr Unit))

/-- The parser expects an operand, has one, reads a type name, or expects the name
after a member operator. -/
inductive PState where
  | operand (s : List Frame)
  | operator (s : List Frame) (c : CExpr Unit)
  | inType (s : List Frame) (ty : List Text)
  | afterMember (s : List Frame) (c : CExpr Unit) (op : Text)

/-- Finish the pending operators of level at least `p`. -/
def reduce (p : Nat) : List Frame → CExpr Unit → List Frame × CExpr Unit
  | .pre op :: s, c => reduce p s (.unary op c)
  | .castTo ty :: s, c => reduce p s (.cast ty c)
  | .left l op :: s, c =>
      if p ≤ opLevel op then reduce p s (.binary true op l c) else (.left l op :: s, c)
  | s, c => (s, c)

/-- One token. -/
def step : PState → Text → Option PState
  | .operand s, w =>
      if w ∈ prefixOps then some (.operand (.pre w :: s))
      else if w = ['('] then some (.operand (.openParen :: s))
      else if isTypeWord w then
        match s with
        | .openParen :: s' => some (.inType s' [w])
        | _ => none
      else if w = [')'] then
        match s with
        | .openCall f [] :: s' => some (.operator s' (.call f []))
        | _ => none
      else if isOperand w then some (.operator s (.leaf w ()))
      else none
  | .operator s c, w =>
      if w = ['['] then some (.operand (.openIndex c :: s))
      else if w = ['('] then some (.operand (.openCall c [] :: s))
      else if w ∈ memberOps then some (.afterMember s c w)
      else if w ∈ postfixOps then some (.operator s (.post c w))
      else if 0 < opLevel w then
        match reduce (opLevel w) s c with
        | (s', c') => some (.operand (.left c' w :: s'))
      else if w = [')'] then
        match reduce 0 s c with
        | (.openParen :: s', c') => some (.operator s' (.paren c'))
        | (.openCall f done :: s', c') => some (.operator s' (.call f (done ++ [c'])))
        | _ => none
      else if w = [','] then
        match reduce 0 s c with
        | (.openCall f done :: s', c') => some (.operand (.openCall f (done ++ [c']) :: s'))
        | _ => none
      else if w = [']'] then
        match reduce 0 s c with
        | (.openIndex b :: s', c') => some (.operator s' (.index b c'))
        | _ => none
      else none
  | .inType s ty, w =>
      if w = [')'] then some (.operand (.castTo ty :: s))
      else if isTypePart w then some (.inType s (ty ++ [w]))
      else none
  | .afterMember s c op, w =>
      if isMemberName w then some (.operator s (.member c op w)) else none

/-- Feed a list of tokens. -/
def run : PState → List Text → Option PState
  | σ, [] => some σ
  | σ, w :: ws => (step σ w).bind fun σ' => run σ' ws

/-- The expression a list of tokens denotes, parentheses kept. -/
def parse (ts : List Text) : Option (CExpr Unit) :=
  match run (.operand []) ts with
  | some (.operator s c) =>
      match reduce 0 s c with
      | ([], c') => some c'
      | _ => none
  | _ => none

/-- The operator tree of a text. -/
def readBack (s : Text) : Option (CExpr Unit) :=
  (lex s).bind fun ts => (parse ts).map erase

theorem run_cons {σ τ : PState} {w : Text} (ws : List Text) (h : step σ w = some τ) :
    run σ (w :: ws) = run τ ws := by
  simp [run, h]

/-! ## Soundness -/

/-- The least level an operand on top of this stack must have. -/
def minLevel : List Frame → Nat
  | .pre _ :: _ | .castTo _ :: _ => unaryLevel
  | .left _ op :: _ => opLevel op + 1
  | _ => 0

theorem minLevel_le (s : List Frame) : minLevel s ≤ unaryLevel := by
  unfold minLevel
  split
  · exact le_rfl
  · exact le_rfl
  · exact opLevel_lt_unaryLevel _
  · exact Nat.zero_le _

/-- Tokens of the arguments already read, each with its comma. -/
def doneToks (done : List (CExpr Unit)) : List Text :=
  done.flatMap fun a => toks a ++ [[',']]

/-- The tokens a stack stands for, bottom frame first. -/
def flat : List Frame → List Text
  | [] => []
  | .pre op :: s => flat s ++ [op]
  | .castTo ty :: s => flat s ++ ['('] :: (ty ++ [[')']])
  | .left l op :: s => flat s ++ (toks l ++ [op])
  | .openParen :: s => flat s ++ [['(']]
  | .openIndex b :: s => flat s ++ (toks b ++ [['[']])
  | .openCall f done :: s => flat s ++ (toks f ++ ['('] :: doneToks done)

/-- The tokens read so far. -/
def PState.flat : PState → List Text
  | .operand s => CSyntax.flat s
  | .operator s c => CSyntax.flat s ++ toks c
  | .inType s ty => CSyntax.flat s ++ ['('] :: ty
  | .afterMember s c op => CSyntax.flat s ++ (toks c ++ [op])

/-- The words of a type name as `Fits` asks for them. -/
def TypeOk (ty : List Text) : Prop :=
  ∃ w ws, ty = w :: ws ∧ isTypeWord w = true ∧ ∀ v ∈ ws, isTypePart v = true

/-- Every completed part on the stack fits, and pending binary operators get looser
from top to bottom. -/
def StackOk : List Frame → Prop
  | [] => True
  | .pre op :: s => op ∈ prefixOps ∧ StackOk s
  | .castTo ty :: s => TypeOk ty ∧ StackOk s
  | .left l op :: s =>
      0 < opLevel op ∧ opLevel op ≤ level l ∧ Fits l ∧ minLevel s ≤ opLevel op ∧ StackOk s
  | .openParen :: s => StackOk s
  | .openIndex b :: s => postfixLevel ≤ level b ∧ Fits b ∧ StackOk s
  | .openCall f done :: s => postfixLevel ≤ level f ∧ Fits f ∧ FitsArgs done ∧ StackOk s

/-- The invariant of the machine. -/
def PState.Ok : PState → Prop
  | .operand s => StackOk s
  | .operator s c => StackOk s ∧ Fits c ∧ postfixLevel ≤ level c
  | .inType s ty => StackOk s ∧ TypeOk ty
  | .afterMember s c op => StackOk s ∧ Fits c ∧ postfixLevel ≤ level c ∧ op ∈ memberOps

theorem toksArgs_append_singleton (done : List (CExpr Unit)) (c : CExpr Unit) :
    toksArgs (done ++ [c]) = doneToks done ++ toks c := by
  induction done with
  | nil => simp [toksArgs, doneToks]
  | cons a rest ih =>
      cases rest with
      | nil => simp [toksArgs, doneToks]
      | cons b rest =>
          rw [List.cons_append, List.cons_append, toksArgs, ← List.cons_append, ih]
          simp [doneToks]

theorem fitsArgs_append (as bs : List (CExpr ι)) :
    FitsArgs (as ++ bs) ↔ FitsArgs as ∧ FitsArgs bs := by
  induction as with
  | nil => simp [FitsArgs]
  | cons a rest ih => simp [FitsArgs, ih, and_assoc]

/-- What `reduce` leaves: the same tokens, a fitting operand, and a stack whose top is
looser than `p`. -/
theorem reduce_spec (p : Nat) (hp : p < unaryLevel) (s : List Frame) :
    ∀ c, StackOk s → Fits c → minLevel s ≤ level c → p ≤ level c →
      flat (reduce p s c).1 ++ toks (reduce p s c).2 = flat s ++ toks c ∧
      StackOk (reduce p s c).1 ∧ Fits (reduce p s c).2 ∧ minLevel (reduce p s c).1 ≤ p ∧
      p ≤ level (reduce p s c).2 := by
  induction s with
  | nil =>
      intro c hs hc hm hl
      exact ⟨rfl, hs, hc, Nat.zero_le _, hl⟩
  | cons f s ih =>
      intro c hs hc hm hl
      cases f with
      | pre op =>
          have hu : Fits (CExpr.unary op c) := ⟨hs.1, hm, hc⟩
          have h := ih (.unary op c) hs.2 hu (minLevel_le s) (Nat.le_of_lt hp)
          rw [reduce]
          exact ⟨by rw [h.1]; simp [flat, toks], h.2⟩
      | castTo ty =>
          have hu : Fits (CExpr.cast ty c) := ⟨hs.1, hm, hc⟩
          have h := ih (.cast ty c) hs.2 hu (minLevel_le s) (Nat.le_of_lt hp)
          rw [reduce]
          exact ⟨by rw [h.1]; simp [flat, toks], h.2⟩
      | left l op =>
          obtain ⟨hop, hll, hfl, hms, hs'⟩ := hs
          rw [reduce]
          by_cases hpo : p ≤ opLevel op
          · have hb : Fits (CExpr.binary true op l c) := ⟨hop, hll, hm, hfl, hc⟩
            have h := ih (.binary true op l c) hs' hb hms hpo
            rw [if_pos hpo]
            exact ⟨by rw [h.1]; simp [flat, toks], h.2⟩
          · rw [if_neg hpo]
            exact ⟨rfl, ⟨hop, hll, hfl, hms, hs'⟩, hc, by simp only [minLevel]; omega, hl⟩
      | openParen => exact ⟨rfl, hs, hc, Nat.zero_le _, hl⟩
      | openIndex b => exact ⟨rfl, hs, hc, Nat.zero_le _, hl⟩
      | openCall g done => exact ⟨rfl, hs, hc, Nat.zero_le _, hl⟩

/-- In an operator state the operand is postfix, so it may stand on any stack. -/
theorem minLevel_le_of_tight {s : List Frame} {c : CExpr ι}
    (h : postfixLevel ≤ level c) : minLevel s ≤ level c :=
  (minLevel_le s).trans ((by decide : unaryLevel ≤ postfixLevel).trans h)

theorem opLevel_le_of_tight {c : CExpr Unit} (w : Text) (h : postfixLevel ≤ level c) :
    opLevel w ≤ level c :=
  (Nat.le_of_lt (opLevel_lt_unaryLevel w)).trans
    ((by decide : unaryLevel ≤ postfixLevel).trans h)

/-- **One token keeps the invariant and is accounted for.** -/
theorem step_spec {σ σ' : PState} {w : Text} (hσ : σ.Ok) (h : step σ w = some σ') :
    σ'.Ok ∧ σ'.flat = σ.flat ++ [w] := by
  -- one case per state; in each the token decides the frame
  cases σ with
  | operand s =>
      simp only [step] at h
      split_ifs at h with h1 h2 h3 h4 h5
      · cases h
        exact ⟨⟨h1, hσ⟩, by simp [PState.flat, flat]⟩
      · cases h
        exact ⟨hσ, by simp [PState.flat, flat, h2]⟩
      · split at h
        · cases h
          exact ⟨⟨hσ, w, [], rfl, h3, by simp⟩, by simp [PState.flat, flat]⟩
        · cases h
      · split at h
        · cases h
          obtain ⟨hl, hf, -, hs⟩ := hσ
          refine ⟨⟨hs, ⟨hl, hf, trivial⟩, le_rfl⟩, ?_⟩
          simp [PState.flat, flat, toks, toksArgs, doneToks, h4]
        · cases h
      · cases h
        exact ⟨⟨hσ, h5, postfixLevel_le_primaryLevel⟩, by simp [PState.flat, toks]⟩
  | operator s c =>
      obtain ⟨hs, hc, hl⟩ := hσ
      have hm : minLevel s ≤ level c := minLevel_le_of_tight hl
      simp only [step] at h
      split_ifs at h with h1 h2 h3 h4 h5 h6 h7 h8
      · cases h
        exact ⟨⟨hl, hc, hs⟩, by simp [PState.flat, flat, h1]⟩
      · cases h
        exact ⟨⟨hl, hc, trivial, hs⟩, by simp [PState.flat, flat, doneToks, h2]⟩
      · cases h
        exact ⟨⟨hs, hc, hl, h3⟩, by simp [PState.flat]⟩
      · cases h
        exact ⟨⟨hs, ⟨h4, hl, hc⟩, le_rfl⟩, by simp [PState.flat, toks]⟩
      · have hr := reduce_spec (opLevel w) (opLevel_lt_unaryLevel w) s c hs hc hm
          (opLevel_le_of_tight w hl)
        generalize hrs : reduce (opLevel w) s c = r at h hr
        obtain ⟨s', c'⟩ := r
        cases h
        obtain ⟨hflat, hs', hc', hms', hlc'⟩ := hr
        refine ⟨⟨h5, hlc', hc', hms', hs'⟩, ?_⟩
        simp only [PState.flat, flat]
        rw [← List.append_assoc, hflat, List.append_assoc]
      -- the closing tokens first reduce everything down to the open bracket
      all_goals
        have hr := reduce_spec 0 (by decide) s c hs hc hm (Nat.zero_le _)
        generalize hrs : reduce 0 s c = r at h hr
        obtain ⟨s', c'⟩ := r
        obtain ⟨hflat, hs', hc', -, -⟩ := hr
      · split at h
        · rename_i heq
          cases heq
          cases h
          refine ⟨⟨hs', hc', postfixLevel_le_primaryLevel⟩, ?_⟩
          simp only [PState.flat, flat, toks] at hflat ⊢
          rw [← hflat, h6]
          simp
        · rename_i f done _ _ heq
          cases heq
          cases h
          obtain ⟨hlf, hff, hfd, hs''⟩ := hs'
          refine ⟨⟨hs'', ⟨hlf, hff, (fitsArgs_append _ _).mpr ⟨hfd, hc', trivial⟩⟩, le_rfl⟩, ?_⟩
          simp only [PState.flat, flat, toks] at hflat ⊢
          rw [← hflat, h6, toksArgs_append_singleton]
          simp
        · cases h
      · split at h
        · rename_i heq
          cases heq
          cases h
          obtain ⟨hlf, hff, hfd, hs''⟩ := hs'
          refine ⟨⟨hlf, hff, (fitsArgs_append _ _).mpr ⟨hfd, hc', trivial⟩, hs''⟩, ?_⟩
          simp only [PState.flat, flat] at hflat ⊢
          rw [← hflat, h7]
          simp [doneToks]
        · cases h
      · split at h
        · rename_i heq
          cases heq
          cases h
          obtain ⟨hlb, hfb, hs''⟩ := hs'
          refine ⟨⟨hs'', ⟨hlb, hfb, hc'⟩, le_rfl⟩, ?_⟩
          simp only [PState.flat, flat, toks] at hflat ⊢
          rw [← hflat, h8]
          simp
        · cases h
  | inType s ty =>
      obtain ⟨hs, v, vs, hty, hv, hvs⟩ := hσ
      simp only [step] at h
      split_ifs at h with h1 h2
      · cases h
        exact ⟨⟨⟨v, vs, hty, hv, hvs⟩, hs⟩, by simp [PState.flat, flat, h1]⟩
      · cases h
        refine ⟨⟨hs, v, vs ++ [w], by rw [hty]; rfl, hv, ?_⟩, by simp [PState.flat]⟩
        intro u hu
        rcases List.mem_append.mp hu with hu | hu
        · exact hvs u hu
        · rw [List.mem_singleton.mp hu]; exact h2
  | afterMember s c op =>
      obtain ⟨hs, hc, hl, hop⟩ := hσ
      simp only [step] at h
      split_ifs at h with h1
      cases h
      exact ⟨⟨hs, ⟨hop, h1, hl, hc⟩, le_rfl⟩, by simp [PState.flat, toks]⟩

theorem run_spec {ts : List Text} :
    ∀ {σ σ' : PState}, σ.Ok → run σ ts = some σ' → σ'.Ok ∧ σ'.flat = σ.flat ++ ts := by
  induction ts with
  | nil =>
      intro σ σ' hσ h
      cases h
      exact ⟨hσ, by simp⟩
  | cons w ws ih =>
      intro σ σ' hσ h
      obtain ⟨σ₁, h₁, h₂⟩ := Option.bind_eq_some_iff.mp h
      obtain ⟨hok, hflat⟩ := step_spec hσ h₁
      obtain ⟨hok', hflat'⟩ := ih hok h₂
      exact ⟨hok', by rw [hflat', hflat]; simp⟩

/-- **Soundness.**  A parsed expression has exactly the tokens read and fits. -/
theorem parse_sound {ts : List Text} {c : CExpr Unit} (h : parse ts = some c) :
    toks c = ts ∧ Fits c := by
  unfold parse at h
  split at h
  · rename_i s c₀ hrun
    obtain ⟨⟨hs, hc, hl⟩, hflat⟩ := run_spec (σ := .operand []) trivial hrun
    have hr := reduce_spec 0 (by decide) s c₀ hs hc (minLevel_le_of_tight hl) (Nat.zero_le _)
    generalize reduce 0 s c₀ = r at h hr
    obtain ⟨s', c'⟩ := r
    split at h
    · rename_i heq
      cases heq
      cases h
      obtain ⟨htoks, -, hfits, -, -⟩ := hr
      refine ⟨?_, hfits⟩
      simpa [PState.flat, flat] using htoks.trans hflat
    · cases h
  · cases h

/-! ## Completeness -/

/-- The pending frames after reading an expression: its right spine. -/
def frames : CExpr ι → List Frame
  | .binary _ op l r => frames r ++ [.left (bare l) op]
  | .unary op e => frames e ++ [.pre op]
  | .cast ty e => frames e ++ [.castTo ty]
  | _ => []

/-- The operand at the end of the right spine. -/
def atom : CExpr ι → CExpr Unit
  | .binary _ _ _ r => atom r
  | .unary _ e => atom e
  | .cast _ e => atom e
  | .leaf w _ => .leaf w ()
  | .paren e => .paren (bare e)
  | .post e op => .post (bare e) op
  | .index b i => .index (bare b) (bare i)
  | .member b op f => .member (bare b) op f
  | .call f args => .call (bare f) (bareArgs args)

/-- Reducing the right spine of a tight enough expression rebuilds the expression. -/
theorem reduce_frames (p : Nat) (hp : p < unaryLevel) :
    ∀ (c : CExpr ι) (s : List Frame), Fits c → p ≤ level c →
      reduce p (frames c ++ s) (atom c) = reduce p s (bare c)
  | .binary b op l r, s, hf, hl => by
      obtain ⟨-, -, hr, -, hfr⟩ := hf
      have hpo : p ≤ opLevel op := hl
      rw [frames, atom, List.append_assoc,
        reduce_frames p hp r _ hfr (hpo.trans (Nat.le_of_lt hr))]
      simp [reduce, bare, hpo]
  | .unary op e, s, hf, _ => by
      obtain ⟨-, hle, hfe⟩ := hf
      rw [frames, atom, List.append_assoc,
        reduce_frames p hp e _ hfe ((Nat.le_of_lt hp).trans hle)]
      simp [reduce, bare]
  | .cast ty e, s, hf, _ => by
      obtain ⟨-, hle, hfe⟩ := hf
      rw [frames, atom, List.append_assoc,
        reduce_frames p hp e _ hfe ((Nat.le_of_lt hp).trans hle)]
      simp [reduce, bare]
  | .leaf w _, s, _, _ => rfl
  | .paren e, s, _, _ => rfl
  | .post e op, s, _, _ => rfl
  | .index b i, s, _, _ => rfl
  | .member b op f, s, _, _ => rfl
  | .call f args, s, _, _ => rfl

/-- A postfix or primary expression leaves nothing pending. -/
theorem frames_of_tight {c : CExpr ι} (h : postfixLevel ≤ level c) :
    frames c = [] ∧ atom c = bare c := by
  cases c with
  | binary b op l r =>
      have hop := opLevel_lt_unaryLevel op
      have hl : postfixLevel ≤ opLevel op := h
      have : unaryLevel < postfixLevel := by decide
      omega
  | unary op e => exact absurd h (by simp [level]; decide)
  | cast ty e => exact absurd h (by simp [level]; decide)
  | _ => exact ⟨rfl, rfl⟩

/-- On a stack that waits for something looser there is nothing to reduce. -/
theorem reduce_stop {p : Nat} {s : List Frame} (hp : p < unaryLevel) (h : minLevel s ≤ p)
    (c : CExpr Unit) : reduce p s c = (s, c) := by
  cases s with
  | nil => rfl
  | cons f s =>
      cases f with
      | pre op => exact absurd h (by simp only [minLevel]; omega)
      | castTo ty => exact absurd h (by simp only [minLevel]; omega)
      | left l op =>
          have h' : opLevel op + 1 ≤ p := h
          rw [reduce, if_neg (by omega)]
      | openParen => rfl
      | openIndex b => rfl
      | openCall g done => rfl

theorem not_prefix_of_isOperand {w : Text} (h : isOperand w = true) : w ∉ prefixOps := by
  intro hw
  have hall : ∀ v ∈ prefixOps, isOperand v = false := by decide
  rw [hall w hw] at h
  simp at h

theorem not_typeWord_of_isOperand {w : Text} (h : isOperand w = true) :
    isTypeWord w = false := by
  have h1 : ∀ v ∈ typeKeywords, isOperand v = false := by decide
  have h2 : ∀ v ∈ typedefNames, isOperand v = false := by decide
  by_contra hw
  rw [Bool.not_eq_false, isTypeWord, Bool.or_eq_true, decide_eq_true_eq,
    decide_eq_true_eq] at hw
  rcases hw with hw | hw
  · rw [h1 w hw] at h; simp at h
  · rw [h2 w hw] at h; simp at h

theorem not_prefix_of_typeWord {w : Text} (h : isTypeWord w = true) : w ∉ prefixOps := by
  intro hw
  have hall : ∀ v ∈ prefixOps, isTypeWord v = false := by decide
  rw [hall w hw] at h
  simp at h

theorem step_operand {w : Text} (s : List Frame) (h : isOperand w = true) :
    step (.operand s) w = some (.operator s (.leaf w ())) := by
  have h2 : w ≠ ['('] := by rintro rfl; revert h; decide
  have h4 : w ≠ [')'] := by rintro rfl; revert h; decide
  simp [step, not_prefix_of_isOperand h, not_typeWord_of_isOperand h, h2, h4, h]

theorem step_openParen (s : List Frame) :
    step (.operand s) ['('] = some (.operand (.openParen :: s)) := by
  have h1 : ['('] ∉ prefixOps := by decide
  simp [step, h1]

theorem step_binary {op : Text} (s : List Frame) (c : CExpr Unit) (h : 0 < opLevel op) :
    step (.operator s c) op =
      some (.operand (.left (reduce (opLevel op) s c).2 op :: (reduce (opLevel op) s c).1)) := by
  have hne : ∀ v ∈ [['['], ['(']] ++ memberOps ++ postfixOps, opLevel v = 0 := by decide
  have h1 : op ≠ ['['] := by rintro rfl; exact absurd h (by decide)
  have h2 : op ≠ ['('] := by rintro rfl; exact absurd h (by decide)
  have h3 : op ∉ memberOps := fun hm => by
    have := hne op (by simp [hm])
    omega
  have h4 : op ∉ postfixOps := fun hm => by
    have := hne op (by simp [hm])
    omega
  rw [step, if_neg h1, if_neg h2, if_neg h3, if_neg h4, if_pos h]

/-- The three closing tokens finish everything pending above the matching opener. -/
theorem step_close (s : List Frame) (c : CExpr Unit) :
    (step (.operator s c) [')'] =
      match reduce 0 s c with
      | (.openParen :: s', c') => some (.operator s' (.paren c'))
      | (.openCall f done :: s', c') => some (.operator s' (.call f (done ++ [c'])))
      | _ => none) ∧
    (step (.operator s c) [','] =
      match reduce 0 s c with
      | (.openCall f done :: s', c') => some (.operand (.openCall f (done ++ [c']) :: s'))
      | _ => none) ∧
    (step (.operator s c) [']'] =
      match reduce 0 s c with
      | (.openIndex b :: s', c') => some (.operator s' (.index b c'))
      | _ => none) := by
  refine ⟨?_, ?_, ?_⟩
  · rw [step, if_neg (by decide), if_neg (by decide), if_neg (by decide), if_neg (by decide),
      if_neg (by decide), if_pos rfl]
  · rw [step, if_neg (by decide), if_neg (by decide), if_neg (by decide), if_neg (by decide),
      if_neg (by decide), if_neg (by decide), if_pos rfl]
  · rw [step, if_neg (by decide), if_neg (by decide), if_neg (by decide), if_neg (by decide),
      if_neg (by decide), if_neg (by decide), if_neg (by decide), if_pos rfl]

/-- Reading the remaining words of a type name. -/
theorem run_typeParts (s : List Frame) (rest : List Text) :
    ∀ (ws ty : List Text), (∀ v ∈ ws, isTypePart v = true) →
      run (.inType s ty) (ws ++ [')'] :: rest) = run (.operand (.castTo (ty ++ ws) :: s)) rest
  | [], ty, _ => by
      rw [List.nil_append, run_cons (τ := .operand (.castTo ty :: s)) _ (by simp [step]),
        List.append_nil]
  | w :: ws, ty, h => by
      have hw : isTypePart w = true := h w (by simp)
      have hne : w ≠ [')'] := by rintro rfl; revert hw; decide
      rw [List.cons_append,
        run_cons (τ := .inType s (ty ++ [w])) _ (by simp [step, hne, hw]),
        run_typeParts s rest ws _ (fun v hv => h v (by simp [hv]))]
      simp

mutual
/-- **Reading the tokens of a fitting expression** leaves its right spine pending. -/
theorem run_toks : ∀ (c : CExpr ι) (s : List Frame) (rest : List Text), Fits c →
    minLevel s ≤ level c →
    run (.operand s) (toks c ++ rest) = run (.operator (frames c ++ s) (atom c)) rest
  | .leaf w _, s, rest, hf, _ => by
      rw [toks, List.singleton_append, run_cons _ (step_operand s hf)]
      rfl
  | .paren e, s, rest, hf, _ => by
      have hf' : Fits e := hf
      rw [toks, List.cons_append, run_cons _ (step_openParen s), List.append_assoc,
        run_toks e _ _ hf' (Nat.zero_le _), List.singleton_append]
      -- the closing parenthesis reduces the frames of what it encloses
      have hr : reduce 0 (frames e ++ .openParen :: s) (atom e) = (.openParen :: s, bare e) := by
        rw [reduce_frames 0 (by decide) e _ hf' (Nat.zero_le _)]
        rfl
      exact run_cons _ (by rw [(step_close _ _).1, hr]; rfl)
  | .unary op e, s, rest, hf, _ => by
      obtain ⟨hop, hle, hfe⟩ := hf
      rw [toks, List.cons_append,
        run_cons (τ := .operand (.pre op :: s)) _ (by simp [step, hop]),
        run_toks e (.pre op :: s) _ hfe hle, frames, atom, List.append_assoc]
      rfl
  | .post e op, s, rest, hf, _ => by
      obtain ⟨hop, hle, hfe⟩ := hf
      obtain ⟨hfr, hat⟩ := frames_of_tight hle
      rw [toks, List.append_assoc, run_toks e _ _ hfe (minLevel_le_of_tight hle), hfr, hat]
      refine run_cons _ ?_
      have hsplit : op = "++".toList ∨ op = "--".toList := by
        simpa [postfixOps] using hop
      rcases hsplit with rfl | rfl <;> rfl
  -- the operator reduces the frames of its left operand, and stops at those below it
  | .binary b op l r, s, rest, hf, hm => by
      obtain ⟨hop, hll, hlr, hfl, hfr⟩ := hf
      have hm' : minLevel s ≤ opLevel op := hm
      rw [toks, List.append_assoc, run_toks l _ _ hfl (hm'.trans hll), List.cons_append,
        run_cons _ (step_binary _ _ hop),
        reduce_frames _ (opLevel_lt_unaryLevel op) l _ hfl hll,
        reduce_stop (opLevel_lt_unaryLevel op) hm',
        run_toks r (.left (bare l) op :: s) _ hfr hlr, frames, atom, List.append_assoc]
      rfl
  | .index e i, s, rest, hf, _ => by
      obtain ⟨hle, hfe, hfi⟩ := hf
      obtain ⟨hfr, hat⟩ := frames_of_tight hle
      rw [toks, List.append_assoc, run_toks e _ _ hfe (minLevel_le_of_tight hle), hfr, hat,
        List.cons_append, run_cons (τ := .operand (.openIndex (bare e) :: s)) _ rfl,
        List.append_assoc, run_toks i _ _ hfi (Nat.zero_le _), List.singleton_append]
      have hr : reduce 0 (frames i ++ .openIndex (bare e) :: s) (atom i) =
          (.openIndex (bare e) :: s, bare i) := by
        rw [reduce_frames 0 (by decide) i _ hfi (Nat.zero_le _)]
        rfl
      exact run_cons _ (by rw [(step_close _ _).2.2, hr]; rfl)
  | .member e op f, s, rest, hf, _ => by
      obtain ⟨hop, hname, hle, hfe⟩ := hf
      obtain ⟨hfr, hat⟩ := frames_of_tight hle
      rw [toks, List.append_assoc, run_toks e _ _ hfe (minLevel_le_of_tight hle), hfr, hat,
        List.cons_append, List.singleton_append,
        run_cons (τ := .afterMember s (bare e) op),
        run_cons (τ := .operator s (.member (bare e) op f)) _ (by simp [step, hname])]
      · rfl
      · have hsplit : op = ".".toList ∨ op = "->".toList := by
          simpa [memberOps] using hop
        rcases hsplit with rfl | rfl <;> rfl
  | .call f args, s, rest, hf, _ => by
      obtain ⟨hle, hff, hfa⟩ := hf
      obtain ⟨hfr, hat⟩ := frames_of_tight hle
      rw [toks, List.append_assoc, run_toks f _ _ hff (minLevel_le_of_tight hle), hfr, hat,
        List.cons_append, run_cons (τ := .operand (.openCall (bare f) [] :: s)) _ rfl,
        List.append_assoc, List.singleton_append]
      cases args with
      | nil => exact run_cons _ rfl
      | cons a as => exact run_args (a :: as) (bare f) [] s rest hfa (by simp)
  | .cast ty e, s, rest, hf, _ => by
      obtain ⟨⟨w, ws, hty, hw, hws⟩, hle, hfe⟩ := hf
      subst hty
      have h2 : w ≠ ['('] := by rintro rfl; revert hw; decide
      rw [toks, List.cons_append, run_cons _ (step_openParen s), List.append_assoc,
        List.cons_append, run_cons (τ := .inType s [w]), List.cons_append,
        run_typeParts s _ ws [w] hws, List.singleton_append,
        run_toks e (.castTo (w :: ws) :: s) _ hfe hle, frames, atom, List.append_assoc]
      · rfl
      · simp [step, not_prefix_of_typeWord hw, h2, hw]

theorem run_args : ∀ (args : List (CExpr ι)) (f : CExpr Unit) (done : List (CExpr Unit))
    (s : List Frame) (rest : List Text), FitsArgs args → args ≠ [] →
    run (.operand (.openCall f done :: s)) (toksArgs args ++ [')'] :: rest) =
      run (.operator s (.call f (done ++ bareArgs args))) rest
  | [], _, _, _, _, _, hne => absurd rfl hne
  | [a], f, done, s, rest, hf, _ => by
      obtain ⟨hfa, -⟩ := hf
      rw [toksArgs, run_toks a _ _ hfa (Nat.zero_le _)]
      have hr : reduce 0 (frames a ++ .openCall f done :: s) (atom a) =
          (.openCall f done :: s, bare a) := by
        rw [reduce_frames 0 (by decide) a _ hfa (Nat.zero_le _)]
        rfl
      exact run_cons _ (by rw [(step_close _ _).1, hr]; rfl)
  | a :: b :: as, f, done, s, rest, hf, _ => by
      obtain ⟨hfa, hfas⟩ := hf
      rw [toksArgs, List.append_assoc, run_toks a _ _ hfa (Nat.zero_le _), List.cons_append]
      have hr : reduce 0 (frames a ++ .openCall f done :: s) (atom a) =
          (.openCall f done :: s, bare a) := by
        rw [reduce_frames 0 (by decide) a _ hfa (Nat.zero_le _)]
        rfl
      rw [run_cons (τ := .operand (.openCall f (done ++ [bare a]) :: s)),
        run_args (b :: as) f _ s rest hfas (by simp)]
      · simp [bareArgs]
      · rw [(step_close _ _).2.1, hr]
end

/-- **Completeness.**  A fitting expression is read back as itself. -/
theorem parse_complete {c : CExpr ι} (h : Fits c) : parse (toks c) = some (bare c) := by
  have hrun := run_toks c [] [] h (Nat.zero_le _)
  rw [List.append_nil, List.append_nil] at hrun
  have hr : reduce 0 (frames c) (atom c) = ([], bare c) := by
    have := reduce_frames 0 (by decide) c [] h (Nat.zero_le _)
    rwa [List.append_nil] at this
  rw [parse, hrun, run]
  simp only [hr]

/-! ## Parentheses are determined by tokens and operator tree -/

/-- A token that is not a parenthesis. -/
def notParen (w : Text) : Bool := w != ['('] && w != [')']

theorem notParen_iff {w : Text} : notParen w = true ↔ w ≠ ['('] ∧ w ≠ [')'] := by
  simp [notParen]

namespace CExpr

mutual
/-- No word of the expression is a parenthesis. -/
def Clean : CExpr ι → Prop
  | .leaf w _ => notParen w = true
  | .paren e => Clean e
  | .unary op e => notParen op = true ∧ Clean e
  | .post e op => Clean e ∧ notParen op = true
  | .binary _ op l r => notParen op = true ∧ Clean l ∧ Clean r
  | .index b i => Clean b ∧ Clean i
  | .member b op f => Clean b ∧ notParen op = true ∧ notParen f = true
  | .call f args => Clean f ∧ CleanArgs args
  | .cast ty e => (∀ w ∈ ty, notParen w = true) ∧ Clean e

/-- `Clean` on an argument list. -/
def CleanArgs : List (CExpr ι) → Prop
  | [] => True
  | a :: rest => Clean a ∧ CleanArgs rest
end

mutual
theorem clean_erase : ∀ e : CExpr ι, Clean (erase e) ↔ Clean e
  | .leaf w _ => Iff.rfl
  | .paren e => by simp [erase, Clean, clean_erase e]
  | .unary op e => by simp [erase, Clean, clean_erase e]
  | .post e op => by simp [erase, Clean, clean_erase e]
  | .binary b op l r => by simp [erase, Clean, clean_erase l, clean_erase r]
  | .index b i => by simp [erase, Clean, clean_erase b, clean_erase i]
  | .member b op f => by simp [erase, Clean, clean_erase b]
  | .call f args => by simp [erase, Clean, clean_erase f, cleanArgs_erase args]
  | .cast ty e => by simp [erase, Clean, clean_erase e]

theorem cleanArgs_erase : ∀ args : List (CExpr ι),
    CleanArgs (eraseArgs args) ↔ CleanArgs args
  | [] => Iff.rfl
  | a :: rest => by simp [eraseArgs, CleanArgs, clean_erase a, cleanArgs_erase rest]
end

end CExpr

theorem notParen_of_isOperand {w : Text} (h : isOperand w = true) : notParen w = true := by
  rw [notParen_iff]
  constructor <;> rintro rfl <;> revert h <;> decide

theorem notParen_of_isTypePart {w : Text} (h : isTypePart w = true) : notParen w = true := by
  rw [notParen_iff]
  constructor <;> rintro rfl <;> revert h <;> decide

theorem notParen_of_isTypeWord {w : Text} (h : isTypeWord w = true) : notParen w = true := by
  rw [notParen_iff]
  constructor <;> rintro rfl <;> revert h <;> decide

theorem notParen_of_isMemberName {w : Text} (h : isMemberName w = true) :
    notParen w = true := by
  rw [notParen_iff]
  constructor <;> rintro rfl <;> revert h <;> decide

theorem notParen_of_opLevel {w : Text} (h : 0 < opLevel w) : notParen w = true := by
  rw [notParen_iff]
  constructor <;> rintro rfl <;> revert h <;> decide

theorem notParen_of_mem_ops {w : Text} (h : w ∈ prefixOps ++ postfixOps ++ memberOps) :
    notParen w = true := by
  have hall : ∀ v ∈ prefixOps ++ postfixOps ++ memberOps, notParen v = true := by decide
  exact hall w h

mutual
theorem clean_of_fits : ∀ e : CExpr ι, Fits e → Clean e
  | .leaf w _, h => notParen_of_isOperand h
  | .paren e, h => clean_of_fits e h
  | .unary op e, h => ⟨notParen_of_mem_ops (by simp [h.1]), clean_of_fits e h.2.2⟩
  | .post e op, h => ⟨clean_of_fits e h.2.2, notParen_of_mem_ops (by simp [h.1])⟩
  | .binary b op l r, h =>
      ⟨notParen_of_opLevel h.1, clean_of_fits l h.2.2.2.1, clean_of_fits r h.2.2.2.2⟩
  | .index b i, h => ⟨clean_of_fits b h.2.1, clean_of_fits i h.2.2⟩
  | .member b op f, h =>
      ⟨clean_of_fits b h.2.2.2, notParen_of_mem_ops (by simp [h.1]),
        notParen_of_isMemberName h.2.1⟩
  | .call f args, h => ⟨clean_of_fits f h.2.1, cleanArgs_of_fits args h.2.2⟩
  | .cast ty e, h => by
      obtain ⟨⟨w, ws, rfl, hw, hws⟩, -, he⟩ := h
      refine ⟨fun v hv => ?_, clean_of_fits e he⟩
      rcases List.mem_cons.mp hv with rfl | hv
      · exact notParen_of_isTypeWord hw
      · exact notParen_of_isTypePart (hws v hv)

theorem cleanArgs_of_fits : ∀ args : List (CExpr ι), FitsArgs args → CleanArgs args
  | [], _ => trivial
  | a :: rest, h => ⟨clean_of_fits a h.1, cleanArgs_of_fits rest h.2⟩
end

/-- Lists of tokens whose parentheses are balanced. -/
inductive Balanced : List Text → Prop
  | nil : Balanced []
  | word {w : Text} {ts : List Text} : notParen w = true → Balanced ts → Balanced (w :: ts)
  | wrap {ts us : List Text} : Balanced ts → Balanced us →
      Balanced (['('] :: (ts ++ [')'] :: us))

theorem Balanced.append {ts us : List Text} (h : Balanced ts) (h' : Balanced us) :
    Balanced (ts ++ us) := by
  induction h with
  | nil => exact h'
  | word hw _ ih => exact .word hw ih
  | wrap ht _ _ ihu => simpa using Balanced.wrap ht ihu

/-- The parenthesis that closes a balanced list is where it is. -/
theorem Balanced.split {vs : List Text} (hv : Balanced vs) :
    ∀ {ts r r' : List Text}, Balanced ts → vs ++ [')'] :: r = ts ++ [')'] :: r' →
      vs = ts ∧ r = r' := by
  induction hv with
  | nil =>
      intro ts r r' ht h
      cases ht with
      | nil => simpa using h
      | word hw _ =>
          rw [List.nil_append, List.cons_append, List.cons.injEq] at h
          exact absurd h.1.symm (notParen_iff.mp hw).2
      | wrap _ _ =>
          rw [List.nil_append, List.cons_append, List.cons.injEq] at h
          exact absurd h.1 (by decide)
  | @word w vs hw _ ih =>
      intro ts r r' ht h
      cases ht with
      | nil =>
          rw [List.nil_append, List.cons_append, List.cons.injEq] at h
          exact absurd h.1 (notParen_iff.mp hw).2
      | word _ ht =>
          rw [List.cons_append, List.cons_append, List.cons.injEq] at h
          obtain ⟨hvs, hr⟩ := ih ht h.2
          exact ⟨by rw [h.1, hvs], hr⟩
      | wrap _ _ =>
          rw [List.cons_append, List.cons_append, List.cons.injEq] at h
          exact absurd h.1 (notParen_iff.mp hw).1
  | @wrap v₁ v₂ _ _ ih₁ ih₂ =>
      intro ts r r' ht h
      cases ht with
      | nil =>
          rw [List.nil_append, List.cons_append, List.cons.injEq] at h
          exact absurd h.1 (by decide)
      | word hw _ =>
          rw [List.cons_append, List.cons_append, List.cons.injEq] at h
          exact absurd h.1.symm (notParen_iff.mp hw).1
      | @wrap t₁ t₂ ht₁ ht₂ =>
          rw [List.cons_append, List.cons_append, List.cons.injEq, List.append_assoc,
            List.append_assoc, List.cons_append, List.cons_append] at h
          obtain ⟨hv₁, hrest⟩ := ih₁ ht₁ h.2
          obtain ⟨hv₂, hr⟩ := ih₂ ht₂ hrest
          exact ⟨by rw [hv₁, hv₂], hr⟩

theorem balanced_words {ty : List Text} (h : ∀ w ∈ ty, notParen w = true) : Balanced ty := by
  induction ty with
  | nil => exact .nil
  | cons w ws ih => exact .word (h w (by simp)) (ih fun v hv => h v (by simp [hv]))

mutual
theorem balanced_toks : ∀ e : CExpr ι, Clean e → Balanced (toks e)
  | .leaf w _, h => .word h .nil
  | .paren e, h => by
      rw [toks]
      exact .wrap (balanced_toks e h) .nil
  | .unary op e, h => .word h.1 (balanced_toks e h.2)
  | .post e op, h => (balanced_toks e h.1).append (.word h.2 .nil)
  | .binary b op l r, h => (balanced_toks l h.2.1).append (.word h.1 (balanced_toks r h.2.2))
  | .index b i, h => by
      rw [toks]
      exact (balanced_toks b h.1).append
        (.word (by decide) ((balanced_toks i h.2).append (.word (by decide) .nil)))
  | .member b op f, h => (balanced_toks b h.1).append (.word h.2.1 (.word h.2.2 .nil))
  | .call f args, h => by
      rw [toks]
      exact (balanced_toks f h.1).append (.wrap (balanced_toksArgs args h.2) .nil)
  | .cast ty e, h => by
      rw [toks]
      exact .wrap (balanced_words h.1) (balanced_toks e h.2)

theorem balanced_toksArgs : ∀ args : List (CExpr ι), CleanArgs args → Balanced (toksArgs args)
  | [], _ => .nil
  | [a], h => balanced_toks a h.1
  | a :: b :: rest, h => by
      rw [toksArgs]
      exact (balanced_toks a h.1).append
        (.word (by decide) (balanced_toksArgs (b :: rest) h.2))
end

/-- The weight of one token, given the next one: parentheses weigh nothing, except for
an empty pair of them. -/
def tokWeight (w : Text) (next : Option Text) : Nat :=
  if w = ['('] then (if next = some [')'] then 1 else 0) else if w = [')'] then 0 else 1

/-- How much a list of tokens holds besides grouping parentheses: the tokens other than
parentheses, and the empty argument lists. -/
def weight : List Text → Nat
  | [] => 0
  | w :: rest => tokWeight w rest.head? + weight rest

theorem weight_cons_le (w : Text) (ts : List Text) : weight ts ≤ weight (w :: ts) := by
  rw [weight]
  omega

theorem weight_word {w : Text} (h : notParen w = true) (ts : List Text) :
    weight (w :: ts) = weight ts + 1 := by
  obtain ⟨h1, h2⟩ := notParen_iff.mp h
  rw [weight, tokWeight, if_neg h1, if_neg h2]
  omega

theorem weight_close (ts : List Text) : weight ([')'] :: ts) = weight ts := by
  rw [weight, tokWeight, if_neg (by decide), if_pos rfl, Nat.zero_add]

mutual
theorem toks_head : ∀ e : CExpr ι, Clean e → ∃ w ts, toks e = w :: ts ∧ w ≠ [')']
  | .leaf w _, h => ⟨w, [], rfl, (notParen_iff.mp h).2⟩
  | .paren e, _ => ⟨['('], _, rfl, by decide⟩
  | .unary op e, h => ⟨op, _, rfl, (notParen_iff.mp h.1).2⟩
  | .post e op, h => toks_head_append e h.1 _
  | .binary b op l r, h => toks_head_append l h.2.1 _
  | .index b i, h => toks_head_append b h.1 _
  | .member b op f, h => toks_head_append b h.1 _
  | .call f args, h => toks_head_append f h.1 _
  | .cast ty e, _ => ⟨['('], _, rfl, by decide⟩

theorem toks_head_append : ∀ e : CExpr ι, Clean e → ∀ us : List Text,
    ∃ w ts, toks e ++ us = w :: ts ∧ w ≠ [')']
  | e, h, us => by
      obtain ⟨w, ts, heq, hw⟩ := toks_head e h
      exact ⟨w, ts ++ us, by rw [heq]; rfl, hw⟩
end

mutual
/-- The weight of an expression, read off the tree. -/
def mass : CExpr ι → Nat
  | .leaf _ _ => 1
  | .paren e => mass e
  | .unary _ e => mass e + 1
  | .post e _ => mass e + 1
  | .binary _ _ l r => mass l + mass r + 1
  | .index b i => mass b + mass i + 2
  | .member b _ _ => mass b + 2
  | .call f args => mass f + massArgs args
  | .cast ty e => max 1 ty.length + mass e

/-- The weight of an argument list with its parentheses. -/
def massArgs : List (CExpr ι) → Nat
  | [] => 1
  | [a] => mass a
  | a :: b :: rest => mass a + 1 + massArgs (b :: rest)
end

mutual
theorem mass_erase : ∀ e : CExpr ι, mass (erase e) = mass e
  | .leaf w _ => rfl
  | .paren e => by simp [erase, mass, mass_erase e]
  | .unary op e => by simp [erase, mass, mass_erase e]
  | .post e op => by simp [erase, mass, mass_erase e]
  | .binary b op l r => by simp [erase, mass, mass_erase l, mass_erase r]
  | .index b i => by simp [erase, mass, mass_erase b, mass_erase i]
  | .member b op f => by simp [erase, mass, mass_erase b]
  | .call f args => by simp [erase, mass, mass_erase f, massArgs_erase args]
  | .cast ty e => by simp [erase, mass, mass_erase e]

theorem massArgs_erase : ∀ args : List (CExpr ι), massArgs (eraseArgs args) = massArgs args
  | [] => rfl
  | [a] => by simp [eraseArgs, massArgs, mass_erase a]
  | a :: b :: rest => by
      have ih := massArgs_erase (b :: rest)
      rw [eraseArgs] at ih
      simp [eraseArgs, massArgs, mass_erase a, ih]
end

mutual
theorem mass_pos : ∀ e : CExpr ι, 0 < mass e
  | .leaf w _ => by simp [mass]
  | .paren e => by simpa [mass] using mass_pos e
  | .unary op e => by simp [mass]
  | .post e op => by simp [mass]
  | .binary b op l r => by simp [mass]
  | .index b i => by simp [mass]
  | .member b op f => by simp [mass]
  | .call f args => by simp [mass, mass_pos f]
  | .cast ty e => by simp [mass]

theorem massArgs_pos : ∀ args : List (CExpr ι), 0 < massArgs args
  | [] => by simp [massArgs]
  | [a] => by simpa [massArgs] using mass_pos a
  | a :: b :: rest => by simp [massArgs]
end

/-- An opening parenthesis weighs nothing in front of anything but its own closing one. -/
theorem weight_open {w : Text} (ts : List Text) (hw : w ≠ [')']) :
    weight (['('] :: w :: ts) = weight (w :: ts) := by
  rw [weight]
  simp [tokWeight, hw]

theorem weight_words {ty : List Text} (h : ∀ w ∈ ty, notParen w = true) (us : List Text) :
    weight (ty ++ us) = ty.length + weight us := by
  induction ty with
  | nil => simp
  | cons w ws ih =>
      rw [List.cons_append, weight_word (h w (by simp)), ih fun v hv => h v (by simp [hv]),
        List.length_cons]
      omega

theorem toksArgs_head : ∀ {a : CExpr ι} {rest : List (CExpr ι)}, CleanArgs (a :: rest) →
    ∃ w ts, toksArgs (a :: rest) = w :: ts ∧ w ≠ [')']
  | a, [], h => toks_head a h.1
  | a, _ :: _, h => toks_head_append a h.1 _

mutual
/-- The tokens of an expression weigh what its tree weighs. -/
theorem weight_toks : ∀ e : CExpr ι, Clean e → ∀ us : List Text,
    weight (toks e ++ us) = mass e + weight us
  | .leaf w _, h, us => by
      rw [toks, List.singleton_append, weight_word h, mass]
      omega
  | .paren e, h, us => by
      obtain ⟨w, ts, heq, hw⟩ := toks_head_append e h ([')'] :: us)
      rw [toks, List.cons_append, List.append_assoc, List.singleton_append, heq,
        weight_open _ hw, ← heq, weight_toks e h, weight_close, mass]
  | .unary op e, h, us => by
      rw [toks, List.cons_append, weight_word h.1, weight_toks e h.2, mass]
      omega
  | .post e op, h, us => by
      rw [toks, List.append_assoc, weight_toks e h.1, List.singleton_append, weight_word h.2, mass]
      omega
  | .binary b op l r, h, us => by
      rw [toks, List.append_assoc, weight_toks l h.2.1, List.cons_append, weight_word h.1,
        weight_toks r h.2.2, mass]
      omega
  | .index b i, h, us => by
      rw [toks, List.append_assoc, weight_toks b h.1, List.cons_append,
        weight_word (by decide), List.append_assoc, weight_toks i h.2, List.singleton_append,
        weight_word (by decide), mass]
      omega
  | .member b op f, h, us => by
      rw [toks, List.append_assoc, weight_toks b h.1, List.cons_append, weight_word h.2.1,
        List.singleton_append, weight_word h.2.2, mass]
      omega
  | .call f args, h, us => by
      rw [toks, List.append_assoc, weight_toks f h.1, List.cons_append, List.append_assoc,
        List.singleton_append, weight_toksArgs args h.2, mass]
      omega
  -- parentheses that enclose nothing weigh one, so an empty type name is apart
  | .cast [] e, h, us => by
      rw [toks, List.nil_append, List.cons_append, List.cons_append, weight, weight_close,
        weight_toks e h.2, mass]
      simp [tokWeight]
      omega
  | .cast (w :: ws) e, h, us => by
      have hw := notParen_iff.mp (h.1 w (by simp))
      have hsplit : w :: (ws ++ [')'] :: toks e ++ us) = (w :: ws) ++ [')'] :: (toks e ++ us) := by
        simp
      rw [toks, List.cons_append, List.cons_append, List.cons_append, weight_open _ hw.2, hsplit,
        weight_words h.1, weight_close, weight_toks e h.2, mass]
      simp
      omega

theorem weight_toksArgs : ∀ args : List (CExpr ι), CleanArgs args → ∀ us : List Text,
    weight (['('] :: (toksArgs args ++ [')'] :: us)) = massArgs args + weight us
  | [], _, us => by
      rw [toksArgs, List.nil_append, weight, weight_close, massArgs]
      simp [tokWeight]
  | [a], h, us => by
      obtain ⟨w, ts, heq, hw⟩ := toks_head_append a h.1 ([')'] :: us)
      rw [toksArgs, heq, weight_open _ hw, ← heq, weight_toks a h.1, weight_close, massArgs]
  | a :: b :: rest, h, us => by
      obtain ⟨w, ts, heq, hw⟩ :=
        toks_head_append a h.1 ([','] :: (toksArgs (b :: rest) ++ [')'] :: us))
      obtain ⟨w', ts', heq', hw'⟩ := toksArgs_head h.2
      have ih := weight_toksArgs (b :: rest) h.2 us
      rw [heq', List.cons_append, weight_open _ hw', ← List.cons_append, ← heq'] at ih
      rw [toksArgs, List.append_assoc, List.cons_append, heq, weight_open _ hw, ← heq,
        weight_toks a h.1, weight_word (by decide), ih, massArgs]
      omega
end

/-- A parenthesised expression does not start with a strictly smaller operand: the
balanced prefix would have to hold the whole of it. -/
theorem paren_not_leftmost {x : CExpr ι} {d : CExpr κ} (hx : Clean x) (hd : Clean d)
    {r t : List Text} (hmass : mass d < mass x)
    (h : ['('] :: (toks x ++ [')'] :: r) = toks d ++ t) : False := by
  have hbx := balanced_toks x hx
  have hbd := balanced_toks d hd
  have hwd := weight_toks d hd []
  rw [List.append_nil] at hwd
  generalize toks d = u at hbd h hwd
  cases hbd with
  | nil =>
      have := mass_pos d
      simp [weight] at hwd
      omega
  | word hw _ =>
      rw [List.cons_append, List.cons.injEq] at h
      exact (notParen_iff.mp hw).1 h.1.symm
  | @wrap t₁ t₂ ht hu =>
      rw [List.cons_append, List.cons.injEq, List.append_assoc, List.cons_append] at h
      obtain ⟨rfl, -⟩ := hbx.split ht h.2
      have hwx := weight_toks x hx ([')'] :: t₂)
      have hle := weight_cons_le ['('] (toks x ++ [')'] :: t₂)
      rw [hwd, hwx] at hle
      simp only [weight] at hle
      omega

/-- The expression is in parentheses. -/
def isParen : CExpr ι → Bool
  | .paren _ => true
  | _ => false

/-- A parenthesised expression and one with the same operator tree that is not in
parentheses do not start with the same tokens. -/
theorem paren_ne {x : CExpr ι} {d : CExpr κ} (hx : Clean (.paren x)) (hd : Clean d)
    (hne : isParen d = false) (he : erase (.paren x) = erase d) {r t : List Text} :
    toks (.paren x) ++ r ≠ toks d ++ t := by
  have hmass : mass x = mass d := by rw [← mass_erase x, ← erase, he, mass_erase]
  replace hx : Clean x := hx
  intro h
  rw [toks, List.cons_append, List.append_assoc, List.singleton_append] at h
  cases d with
  | leaf w _ =>
      rw [toks, List.singleton_append, List.cons.injEq] at h
      exact (notParen_iff.mp hd).1 h.1.symm
  | paren e => simp [isParen] at hne
  | unary op e =>
      rw [toks, List.cons_append, List.cons.injEq] at h
      exact (notParen_iff.mp hd.1).1 h.1.symm
  | cast ty e =>
      rw [toks, List.cons_append, List.cons.injEq, List.append_assoc, List.cons_append] at h
      obtain ⟨hty, -⟩ := (balanced_toks x hx).split (balanced_words hd.1) h.2
      have hwx := weight_toks x hx []
      have hwt := weight_words hd.1 []
      have hpos := mass_pos e
      rw [hty] at hwx
      simp only [mass, weight] at hmass hwx hwt
      omega
  | post e op =>
      rw [toks, List.append_assoc] at h
      exact paren_not_leftmost hx hd.1 (by rw [hmass, mass]; omega) h
  | binary b op l rr =>
      rw [toks, List.append_assoc] at h
      exact paren_not_leftmost hx hd.2.1 (by rw [hmass, mass]; omega) h
  | index b i =>
      rw [toks, List.append_assoc] at h
      exact paren_not_leftmost hx hd.1 (by rw [hmass, mass]; omega) h
  | member b op f =>
      rw [toks, List.append_assoc] at h
      exact paren_not_leftmost hx hd.1 (by rw [hmass, mass]; omega) h
  | call f args =>
      have hpos := massArgs_pos args
      rw [toks, List.append_assoc] at h
      exact paren_not_leftmost hx hd.1 (by rw [hmass, mass]; omega) h

mutual
/-- **Tokens and operator tree determine the parentheses.** -/
theorem toks_inj : ∀ (c : CExpr ι) (d : CExpr κ) (r r' : List Text), Clean c → Clean d →
    erase c = erase d → toks c ++ r = toks d ++ r' → bare c = bare d ∧ r = r'
  -- `paren_ne` is the crux: equal words cannot differ in an outer pair of parentheses
  | .paren x, d, r, r', hc, hd, he, h => by
      cases d with
      | paren y =>
          rw [toks, toks, List.cons_append, List.cons_append, List.cons.injEq, List.append_assoc,
            List.append_assoc] at h
          obtain ⟨hb, hr⟩ := toks_inj x y _ _ hc hd he h.2
          rw [List.singleton_append, List.singleton_append, List.cons.injEq] at hr
          exact ⟨by rw [bare, bare, hb], hr.2⟩
      | _ => exact absurd h (paren_ne hc hd rfl he)
  | .leaf w _, d, r, r', hc, hd, he, h => by
      cases d with
      | leaf v _ =>
          rw [erase, erase, CExpr.leaf.injEq] at he
          rw [toks, toks, he.1] at h
          exact ⟨by rw [bare, bare, he.1], List.append_cancel_left h⟩
      | paren y => exact absurd h.symm (paren_ne hd hc rfl he.symm)
      | _ => simp [erase] at he
  | .unary op x, d, r, r', hc, hd, he, h => by
      cases d with
      | unary op' y =>
          rw [erase, erase, CExpr.unary.injEq] at he
          rw [toks, toks, List.cons_append, List.cons_append, List.cons.injEq] at h
          obtain ⟨hb, hr⟩ := toks_inj x y _ _ hc.2 hd.2 he.2 h.2
          exact ⟨by rw [bare, bare, he.1, hb], hr⟩
      | paren y => exact absurd h.symm (paren_ne hd hc rfl he.symm)
      | _ => simp [erase] at he
  | .post x op, d, r, r', hc, hd, he, h => by
      cases d with
      | post y op' =>
          rw [erase, erase, CExpr.post.injEq] at he
          rw [toks, toks, List.append_assoc, List.append_assoc] at h
          obtain ⟨hb, hr⟩ := toks_inj x y _ _ hc.1 hd.1 he.1 h
          rw [List.singleton_append, List.singleton_append, List.cons.injEq] at hr
          exact ⟨by rw [bare, bare, he.2, hb], hr.2⟩
      | paren y => exact absurd h.symm (paren_ne hd hc rfl he.symm)
      | _ => simp [erase] at he
  | .binary b op l x, d, r, r', hc, hd, he, h => by
      cases d with
      | binary _ op' l' y =>
          rw [erase, erase, CExpr.binary.injEq] at he
          obtain ⟨-, hop, hl, hx⟩ := he
          rw [toks, toks, List.append_assoc, List.append_assoc] at h
          obtain ⟨hbl, hrest⟩ := toks_inj l l' _ _ hc.2.1 hd.2.1 hl h
          rw [List.cons_append, List.cons_append, List.cons.injEq] at hrest
          obtain ⟨hbx, hr⟩ := toks_inj x y _ _ hc.2.2 hd.2.2 hx hrest.2
          exact ⟨by rw [bare, bare, hop, hbl, hbx], hr⟩
      | paren y => exact absurd h.symm (paren_ne hd hc rfl he.symm)
      | _ => simp [erase] at he
  | .index b i, d, r, r', hc, hd, he, h => by
      cases d with
      | index b' i' =>
          rw [erase, erase, CExpr.index.injEq] at he
          rw [toks, toks, List.append_assoc, List.append_assoc] at h
          obtain ⟨hbb, hrest⟩ := toks_inj b b' _ _ hc.1 hd.1 he.1 h
          rw [List.cons_append, List.cons_append, List.cons.injEq, List.append_assoc,
            List.append_assoc] at hrest
          obtain ⟨hbi, hr⟩ := toks_inj i i' _ _ hc.2 hd.2 he.2 hrest.2
          rw [List.singleton_append, List.singleton_append, List.cons.injEq] at hr
          exact ⟨by rw [bare, bare, hbb, hbi], hr.2⟩
      | paren y => exact absurd h.symm (paren_ne hd hc rfl he.symm)
      | _ => simp [erase] at he
  | .member b op f, d, r, r', hc, hd, he, h => by
      cases d with
      | member b' op' f' =>
          rw [erase, erase, CExpr.member.injEq] at he
          obtain ⟨hb, hop, hf⟩ := he
          rw [toks, toks, List.append_assoc, List.append_assoc] at h
          obtain ⟨hbb, hrest⟩ := toks_inj b b' _ _ hc.1 hd.1 hb h
          rw [hop, hf] at hrest
          exact ⟨by rw [bare, bare, hbb, hop, hf], List.append_cancel_left hrest⟩
      | paren y => exact absurd h.symm (paren_ne hd hc rfl he.symm)
      | _ => simp [erase] at he
  | .call f args, d, r, r', hc, hd, he, h => by
      cases d with
      | call f' args' =>
          rw [erase, erase, CExpr.call.injEq] at he
          rw [toks, toks, List.append_assoc, List.append_assoc] at h
          obtain ⟨hbf, hrest⟩ := toks_inj f f' _ _ hc.1 hd.1 he.1 h
          rw [List.cons_append, List.cons_append, List.cons.injEq, List.append_assoc,
            List.append_assoc] at hrest
          obtain ⟨hba, hr⟩ := toksArgs_inj args args' _ _ hc.2 hd.2 he.2 hrest.2
          rw [List.singleton_append, List.singleton_append, List.cons.injEq] at hr
          exact ⟨by rw [bare, bare, hbf, hba], hr.2⟩
      | paren y => exact absurd h.symm (paren_ne hd hc rfl he.symm)
      | _ => simp [erase] at he
  | .cast ty x, d, r, r', hc, hd, he, h => by
      cases d with
      | cast ty' y =>
          rw [erase, erase, CExpr.cast.injEq] at he
          obtain ⟨hty, hx⟩ := he
          rw [toks, toks, hty, List.cons_append, List.cons_append, List.cons.injEq,
            List.append_assoc, List.append_assoc] at h
          have hrest := List.append_cancel_left h.2
          rw [List.cons_append, List.cons_append, List.cons.injEq] at hrest
          obtain ⟨hbx, hr⟩ := toks_inj x y _ _ hc.2 hd.2 hx hrest.2
          exact ⟨by rw [bare, bare, hty, hbx], hr⟩
      | paren y => exact absurd h.symm (paren_ne hd hc rfl he.symm)
      | _ => simp [erase] at he

theorem toksArgs_inj : ∀ (cs : List (CExpr ι)) (ds : List (CExpr κ)) (r r' : List Text),
    CleanArgs cs → CleanArgs ds → eraseArgs cs = eraseArgs ds →
    toksArgs cs ++ r = toksArgs ds ++ r' → bareArgs cs = bareArgs ds ∧ r = r'
  | [], [], r, r', _, _, _, h => ⟨rfl, h⟩
  | [], _ :: _, _, _, _, _, he, _ => by simp [eraseArgs] at he
  | _ :: _, [], _, _, _, _, he, _ => by simp [eraseArgs] at he
  | [a], [b], r, r', hc, hd, he, h => by
      simp only [eraseArgs, List.cons.injEq] at he
      obtain ⟨hb, hr⟩ := toks_inj a b _ _ hc.1 hd.1 he.1 h
      exact ⟨by simp [bareArgs, hb], hr⟩
  | [_], _ :: _ :: _, _, _, _, _, he, _ => by simp [eraseArgs] at he
  | _ :: _ :: _, [_], _, _, _, _, he, _ => by simp [eraseArgs] at he
  | a :: a' :: as, b :: b' :: bs, r, r', hc, hd, he, h => by
      rw [eraseArgs, eraseArgs.eq_2 b, List.cons.injEq] at he
      rw [toksArgs, toksArgs, List.append_assoc, List.append_assoc] at h
      obtain ⟨hb, hrest⟩ := toks_inj a b _ _ hc.1 hd.1 he.1 h
      rw [List.cons_append, List.cons_append, List.cons.injEq] at hrest
      obtain ⟨hbs, hr⟩ := toksArgs_inj (a' :: as) (b' :: bs) _ _ hc.2 hd.2 he.2 hrest.2
      exact ⟨by rw [bareArgs, hb, hbs, bareArgs.eq_2 b], hr⟩
end

/-! ## Reading an emitted text back -/

mutual
theorem filter_toks_erase : ∀ e : CExpr ι,
    (toks (erase e)).filter notParen = (toks e).filter notParen
  | .leaf w _ => rfl
  | .paren e => by simp [erase, toks, notParen, filter_toks_erase e]
  | .unary op e => by simp [erase, toks, List.filter_cons, filter_toks_erase e]
  | .post e op => by simp [erase, toks, filter_toks_erase e]
  | .binary b op l r => by
      simp [erase, toks, List.filter_cons, filter_toks_erase l, filter_toks_erase r]
  | .index b i => by
      simp [erase, toks, List.filter_cons, filter_toks_erase b, filter_toks_erase i]
  | .member b op f => by simp [erase, toks, filter_toks_erase b]
  | .call f args => by
      simp [erase, toks, List.filter_cons, filter_toks_erase f, filter_toksArgs_erase args]
  | .cast ty e => by simp [erase, toks, List.filter_cons, filter_toks_erase e]

theorem filter_toksArgs_erase : ∀ args : List (CExpr ι),
    (toksArgs (eraseArgs args)).filter notParen = (toksArgs args).filter notParen
  | [] => rfl
  | [a] => by simp [eraseArgs, toksArgs, filter_toks_erase a]
  | a :: b :: rest => by
      have ih := filter_toksArgs_erase (b :: rest)
      rw [eraseArgs] at ih
      simp [eraseArgs, toksArgs, List.filter_cons, filter_toks_erase a, ih]
end

/-- A token that starts with a parenthesis is the parenthesis: nothing extends it. -/
theorem eq_paren_of_token {c : Char} {cs : Text} (hc : c = '(' ∨ c = ')')
    (h : isToken (c :: cs) = true) : cs = [] := by
  obtain ⟨q, hq, -⟩ := exists_scan_of_isToken h
  cases cs with
  | nil => rfl
  | cons d ds =>
      have hstop : extend ⟨.punct, [c]⟩ d = none := by
        have hlast : ∀ v ∈ puncts, v.length = 2 → v.head? ≠ some '(' ∧ v.head? ≠ some ')' := by
          decide
        have hmem : [c, d] ∉ puncts := by
          intro hmem
          have := hlast _ hmem rfl
          simp at this
          tauto
        have hdot : c ≠ '.' := by rcases hc with rfl | rfl <;> decide
        simp [extend, hmem, hdot]
      have hstart : scan (c :: d :: ds) = scanFrom ⟨.punct, [c]⟩ (d :: ds) := by
        rcases hc with rfl | rfl <;> rfl
      rw [hstart, scanFrom, hstop] at hq
      simp at hq

/-- The first character of a token is not a blank. -/
theorem squeeze_token {w : Text} (h : isToken w = true) :
    ∃ c cs, w = c :: cs ∧ squeeze w = c :: squeeze cs := by
  obtain ⟨q, hq, -⟩ := exists_scan_of_isToken h
  cases w with
  | nil => simp [scan] at hq
  | cons c cs => exact ⟨c, cs, rfl, by simp [squeeze, scan_head_not_blank hq]⟩

theorem notParen_cons {c : Char} {cs : Text} (h : isToken (c :: cs) = true) :
    notParen (c :: cs) = true ↔ c ≠ '(' ∧ c ≠ ')' := by
  rw [notParen_iff]
  constructor
  · intro hne
    refine ⟨fun hc => hne.1 ?_, fun hc => hne.2 ?_⟩
    · rw [eq_paren_of_token (Or.inl hc) h, hc]
    · rw [eq_paren_of_token (Or.inr hc) h, hc]
  · rintro ⟨h1, h2⟩
    simp [h1, h2]

/-- The parentheses of a list of tokens can be read off its text, once the other tokens
are known. -/
theorem eq_of_squeeze : ∀ {us vs : List Text}, (∀ u ∈ us, isToken u = true) →
    (∀ v ∈ vs, isToken v = true) → us.filter notParen = vs.filter notParen →
    us.flatMap squeeze = vs.flatMap squeeze → us = vs
  | [], [], _, _, _, _ => rfl
  | [], v :: vs, _, hv, _, hs => by
      obtain ⟨c, cs, -, hsq⟩ := squeeze_token (hv v (by simp))
      simp [hsq] at hs
  | u :: us, [], hu, _, _, hs => by
      obtain ⟨c, cs, -, hsq⟩ := squeeze_token (hu u (by simp))
      simp [hsq] at hs
  | u :: us, v :: vs, hu, hv, hf, hs => by
      have hu' : ∀ w ∈ us, isToken w = true := fun w hw => hu w (by simp [hw])
      have hv' : ∀ w ∈ vs, isToken w = true := fun w hw => hv w (by simp [hw])
      have htu := hu u (by simp)
      have htv := hv v (by simp)
      obtain ⟨c, cs, rfl, hsu⟩ := squeeze_token htu
      obtain ⟨d, ds, rfl, hsv⟩ := squeeze_token htv
      rw [List.flatMap_cons, List.flatMap_cons] at hs
      have hcd : c = d := by
        rw [hsu, hsv, List.cons_append, List.cons_append, List.cons.injEq] at hs
        exact hs.1
      subst hcd
      by_cases hp : notParen (c :: cs) = true
      · have hq : notParen (c :: ds) = true := by
          rw [notParen_cons htv, ← notParen_cons htu]
          exact hp
        rw [List.filter_cons, List.filter_cons, if_pos hp, if_pos hq, List.cons.injEq] at hf
        rw [hf.1] at hs ⊢
        rw [eq_of_squeeze hu' hv' hf.2 (List.append_cancel_left hs)]
      · have hc : c = '(' ∨ c = ')' := by
          rw [notParen_cons htu] at hp
          tauto
        obtain rfl := eq_paren_of_token hc htu
        obtain rfl := eq_paren_of_token hc htv
        rw [List.filter_cons, List.filter_cons, if_neg hp, if_neg hp] at hf
        rw [eq_of_squeeze hu' hv' hf (List.append_cancel_left hs)]

/-- **The text of an expression is read back with the same operator tree exactly when the
expression fits C's grammar and its tokens do not run into each other.** -/
theorem readBack_iff (t : CExpr ι) :
    readBack (render t) = some (erase t) ↔ Separated (pieces t false) ∧ Fits t := by
  constructor
  · intro h
    obtain ⟨ts, hlex, hparse⟩ := Option.bind_eq_some_iff.mp h
    obtain ⟨c, hc, he⟩ := Option.map_eq_some_iff.mp hparse
    obtain ⟨rfl, hfits⟩ := parse_sound hc
    have hcleanc := clean_of_fits c hfits
    have hcleant : Clean t := by rwa [← clean_erase, ← he, clean_erase]
    have htok := isToken_of_mem_lex hlex
    have hfilter : (toks c).filter notParen = (toks t).filter notParen := by
      rw [← filter_toks_erase c, he, filter_toks_erase]
    have htok' : ∀ w ∈ toks t, isToken w = true := by
      intro w hw
      by_cases hp : notParen w = true
      · have hmem : w ∈ (toks c).filter notParen := by
          rw [hfilter]
          exact List.mem_filter.mpr ⟨hw, hp⟩
        exact htok w (List.mem_filter.mp hmem).1
      · have hpar : w = ['('] ∨ w = [')'] := by
          rw [notParen_iff] at hp
          tauto
        rcases hpar with rfl | rfl <;> rfl
    have hsq : (toks c).flatMap squeeze = (toks t).flatMap squeeze := by
      have hj := squeeze_joinPieces (pieces t false)
      rw [joinPieces_pieces, pieces_fst] at hj
      rw [← squeeze_lex hlex, ← hj]
      simp [gap]
    have hts := eq_of_squeeze htok htok' hfilter hsq
    obtain ⟨hb, -⟩ := toks_inj c t [] [] hcleanc hcleant he (by rw [hts])
    refine ⟨(lex_render_iff t).mp (by rw [← hts]; exact hlex), ?_⟩
    rw [← fits_bare, ← hb, fits_bare]
    exact hfits
  · rintro ⟨hsep, hfits⟩
    rw [readBack, (lex_render_iff t).mpr hsep, Option.bind_some, parse_complete hfits]
    simp [erase_bare]

end CSyntax
