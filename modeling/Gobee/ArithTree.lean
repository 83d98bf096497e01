/-
# The text of an integer expression

`formatExpr` prints an integer expression as it stands, and C reads the text as the same
tree: the operands are variables, parenthesised or casts, so nothing regroups and no two
tokens run into each other.

* `readBack_arith` : **C reads the emitted text as the tree of the expression**, if its names
  are names of C.
-/
import Gobee.ExprTree
import Gobee.Arith

namespace Gobee

open CSyntax MachineInt
open CSyntax.CExpr (render erase pieces Fits level)

/-! ## The emitted tree -/

/-- The conversion is written with the name of a type in `goBasicNameToC`. -/
def conversionNamed (prog : Program) (fn : Ident) : Bool :=
  match prog.info.uses fn with
  | some ⟨_, .typeName, .basic kind⟩ =>
      kind.name == fn.name && (goBasicNameToC.lookup fn.name).isSome
  | _ => false

/-- The names of an expression have a meaning in C: variables are not called like a keyword
or a type of C, and no conversion is written `byte`, `rune` or with another alias. -/
def named (prog : Program) (aliases : Aliases) : Expr → Bool
  | .ident id => isWord (formatIdent prog aliases id) && isOperand (formatIdent prog aliases id)
  | .paren _ x => named prog aliases x
  | .unary _ _ x => named prog aliases x
  | .binary x _ y => named prog aliases x && named prog aliases y
  | .call (.ident fn) [x] => conversionNamed prog fn && named prog aliases x
  | _ => false

/-- The C spelling of a unary operator. -/
def signText : SignOp → Text
  | .neg => ['-']
  | .not => ['~']

/-- The tree of an integer expression. -/
def arithTree (prog : Program) (aliases : Aliases) : Expr → CTree
  | .ident id => .leaf (formatIdent prog aliases id) (some id)
  | .paren _ x => .paren (arithTree prog aliases x)
  | .unary _ op x =>
      .unary (((signOf op).map signText).getD []) (arithTree prog aliases x)
  | .binary x op y =>
      .binary true op.string (arithTree prog aliases x) (arithTree prog aliases y)
  | .call (.ident fn) [x] =>
      .cast [(goBasicNameToC.lookup fn.name).getD []] (.paren (arithTree prog aliases x))
  | _ => name []

/-- The C name of a conversion denotes the type it converts to. -/
theorem conversionNamed_cScalar {prog : Program} {fn : Ident} {s : Scalar}
    (hn : conversionNamed prog fn = true) (hs : conversionScalar prog fn = some s) :
    ∃ cType, goBasicNameToC.lookup fn.name = some cType ∧ cScalar cType = some s := by
  unfold conversionNamed at hn
  unfold conversionScalar at hs
  split at hs
  · next kind huses =>
      rw [huses] at hn
      simp only [Bool.and_eq_true, beq_iff_eq] at hn
      rw [← hn.1]
      cases kind with
      | bool | int8 | int16 | int32 | int64 | uint8 | uint16 | uint32 | uint64 =>
          exact ⟨_, rfl, hs⟩
      | byte | rune =>
          rw [← hn.1] at hn
          cases hn.2
      | _ => cases hs
  · cases hs

theorem identTree_var {prog : Program} {aliases : Aliases} {id : Ident} {p : Ident × Scalar}
    (h : scalarVar prog id = some p) :
    identTree prog aliases id = .leaf (formatIdent prog aliases id) (some id) := by
  unfold scalarVar at h
  split at h
  · next decl kind huses =>
      unfold identTree formatIdent
      rw [huses]
      cases halias : aliases.lookup decl with
      | some c => simp [halias]
      | none => simp [halias]
  · cases h

/-- `formatExpr` emits this tree. -/
theorem exprTree_arith {prog : Program} {aliases : Aliases} {e : Expr} {s : Scalar}
    (h : Arith prog e s) (hn : named prog aliases e = true) :
    (nodeTree prog aliases e).text = .ok (arithTree prog aliases e) := by
  induction h with
  | ident var =>
      rw [nodeTree, identTree_var var]
      rfl
  | paren _ ih =>
      rw [named] at hn
      rw [nodeTree, Formatted.plain, ih hn]
      rfl
  | @unary _ op o _ _ sign _ _ ih =>
      rw [named] at hn
      rw [nodeTree, Formatted.plain, ih hn, arithTree, sign]
      cases op <;> cases sign <;> rfl
  | binary _ _ _ _ _ ihx ihy =>
      rw [named, Bool.and_eq_true] at hn
      rw [nodeTree, Formatted.plain, ihx hn.1, ihy hn.2]
      rfl
  | @call fn x _ _ _ target _ _ ih =>
      rw [named, Bool.and_eq_true] at hn
      obtain ⟨cType, hc, -⟩ := conversionNamed_cScalar hn.1 target
      have hconv : conversionType (.ident fn) = some cType := hc
      rw [nodeTree, Formatted.plain, nodeTrees, nodeTrees, ih hn.2]
      simp only [callTree, conversionTree, hconv]
      rw [arithTree, hc]
      rfl

/-! ## Reading the text -/

theorem level_arithTree {prog : Program} (aliases : Aliases) {e : Expr}
    (h : isAtomic e = true) {s : Scalar} (ht : Arith prog e s) :
    unaryLevel ≤ level (arithTree prog aliases e) := by
  have hle : unaryLevel ≤ primaryLevel := by decide
  cases ht with
  | ident => exact hle
  | paren => exact hle
  | call => exact le_refl unaryLevel
  | unary | binary => cases h

/-- The tree needs no further parentheses. -/
theorem fits_arithTree {prog : Program} {aliases : Aliases} {e : Expr} {s : Scalar}
    (h : Arith prog e s) (hn : named prog aliases e = true) :
    Fits (arithTree prog aliases e) := by
  induction h with
  | ident _ =>
      rw [named, Bool.and_eq_true] at hn
      exact hn.2
  | paren _ ih =>
      rw [named] at hn
      exact ih hn
  | @unary _ op o _ _ sign atomic operand ih =>
      rw [named] at hn
      rw [arithTree, sign]
      refine ⟨?_, level_arithTree aliases atomic operand, ih hn⟩
      cases o <;> decide
  | @binary _ _ op c _ _ _ cls atomic _ left right ihx ihy =>
      rw [named, Bool.and_eq_true] at hn
      have hlt := opLevel_lt_unaryLevel op.string
      have hx := level_arithTree aliases atomic.1 left
      have hy := level_arithTree aliases atomic.2 right
      refine ⟨?_, by omega, by omega, ihx hn.1, ihy hn.2⟩
      cases op <;> first | (cases cls; done) | decide
  | @call fn x _ _ _ target _ _ ih =>
      rw [named, Bool.and_eq_true] at hn
      obtain ⟨cType, hc, -⟩ := conversionNamed_cScalar hn.1 target
      rw [arithTree, hc]
      refine ⟨⟨cType, [], rfl, ?_, fun v hv => (by cases hv)⟩,
        (by decide : unaryLevel ≤ primaryLevel), ih hn.2⟩
      have hall : ∀ p ∈ goBasicNameToC, isTypeWord p.2 = true := by decide
      obtain ⟨_, _, hmem, -⟩ := List.lookup_eq_some_iff.mp hc
      exact hall (fn.name, cType) (by rw [hmem]; simp)

theorem fusesWith_punct {w : Text} {c : Char} (hscan : scan w = some ⟨.punct, w⟩)
    (hdot : (w == ['.']) = false) (h : w ++ [c] ∉ puncts) : fusesWith w c = false := by
  simp only [fusesWith, hscan, extend, if_neg h, hdot, Bool.false_and, Bool.false_eq_true,
    if_false, Option.isSome_none]

theorem fusesWith_open (c : Char) : fusesWith ['('] c = false :=
  fusesWith_punct rfl rfl (by simp [puncts])

theorem fusesWith_close (c : Char) : fusesWith [')'] c = false :=
  fusesWith_punct rfl rfl (by simp [puncts])

/-- A minus or a complement before an operand stays a token of its own. -/
theorem fusesWith_sign (o : SignOp) {c : Char} (hc : c = '(' ∨ isIdentStart c = true) :
    fusesWith (signText o) c = false := by
  cases o with
  | not => exact fusesWith_punct rfl rfl (by simp [signText, puncts])
  | neg =>
      refine fusesWith_punct rfl rfl fun hmem => ?_
      have hfused : c = '>' ∨ c = '-' ∨ c = '=' := by simpa [signText, puncts] using hmem
      obtain rfl | rfl | rfl := hfused <;> revert hc <;> decide

theorem scan_of_isWord {w : Text} (h : isWord w = true) : ∃ text, scan w = some ⟨.ident, text⟩ := by
  unfold isWord at h
  split at h
  · next text hscan => exact ⟨text, hscan⟩
  · cases h

theorem isToken_of_isWord {w : Text} (h : isWord w = true) : isToken w = true := by
  obtain ⟨text, hscan⟩ := scan_of_isWord h
  rw [isToken, hscan]
  rfl

theorem fusesWith_word {w : Text} (h : isWord w = true) : fusesWith w ')' = false := by
  obtain ⟨text, hscan⟩ := scan_of_isWord h
  rw [fusesWith, hscan]
  rfl

/-- Only a letter starts a word. -/
theorem mode_of_scanFrom {w : Text} {p : Partial} {text : Text}
    (h : scanFrom p w = some ⟨.ident, text⟩) : p.mode = .ident := by
  induction w generalizing p with
  | nil => rw [Option.some.inj h]
  | cons c cs ih =>
      obtain ⟨q, hq, hrest⟩ := Option.bind_eq_some_iff.mp h
      have hmode := ih hrest
      unfold extend at hq
      split at hq <;> (try split_ifs at hq) <;> first | assumption | (cases hq; cases hmode) | cases hq

theorem head_of_isWord {w : Text} (h : isWord w = true) :
    ∃ c cs, w = c :: cs ∧ isIdentStart c = true := by
  obtain ⟨text, hscan⟩ := scan_of_isWord h
  cases w with
  | nil => cases hscan
  | cons c cs =>
      refine ⟨c, cs, rfl, ?_⟩
      rw [scan] at hscan
      split_ifs at hscan
      obtain ⟨p, hp, hrest⟩ := Option.bind_eq_some_iff.mp hscan
      have hmode := mode_of_scanFrom hrest
      by_contra hc
      unfold start at hp
      rw [if_neg hc] at hp
      split_ifs at hp <;> cases hp <;> cases hmode

/-- The first character of an operand. -/
theorem head_arithTree {prog : Program} {aliases : Aliases} {e : Expr} {s : Scalar}
    (h : Arith prog e s) (ha : isAtomic e = true) (hn : named prog aliases e = true) :
    ∃ c cs, render (arithTree prog aliases e) = c :: cs ∧ (c = '(' ∨ isIdentStart c = true) := by
  cases h with
  | ident _ =>
      rw [named, Bool.and_eq_true] at hn
      obtain ⟨c, cs, hw, hc⟩ := head_of_isWord hn.1
      exact ⟨c, cs, hw, Or.inr hc⟩
  | paren _ => exact ⟨'(', _, rfl, Or.inl rfl⟩
  | call => exact ⟨'(', _, rfl, Or.inl rfl⟩
  | unary | binary => cases ha

/-- The tokens of the text do not run into each other. -/
theorem separated_arithTree {prog : Program} {aliases : Aliases} {e : Expr} {s : Scalar}
    (h : Arith prog e s) (hn : named prog aliases e = true) (sp : Bool) (rest : List Piece)
    (hrest : Separated rest) (hnext : sp = true ∨ ∀ c ∈ (joinPieces rest).head?, c = ')') :
    Separated (pieces (arithTree prog aliases e) sp ++ rest) := by
  induction h generalizing sp rest with
  | ident _ =>
      rw [named, Bool.and_eq_true] at hn
      refine ⟨isToken_of_isWord hn.1, hnext.imp id fun hc c hmem => ?_, hrest⟩
      rw [hc c hmem]
      exact fusesWith_word hn.1
  | @paren pos x _ _ ih =>
      rw [named] at hn
      have hclose : Separated (([')'], sp) :: rest) :=
        ⟨rfl, Or.inr fun c _ => fusesWith_close c, hrest⟩
      have hinner := ih hn false _ hclose (Or.inr (by simp [joinPieces]))
      rw [arithTree, pieces, List.cons_append, List.append_assoc]
      exact ⟨rfl, Or.inr fun c _ => fusesWith_open c, hinner⟩
  | @unary _ op o x _ sign atomic operand ih =>
      rw [named] at hn
      rw [arithTree, sign, pieces, List.cons_append]
      refine ⟨by cases o <;> rfl, Or.inr fun c hc => ?_, ih hn sp rest hrest hnext⟩
      -- an atomic operand does not start with a sign, so no `--` or `++` forms
      obtain ⟨c', cs, hhead, hstart⟩ := head_arithTree operand atomic hn
      rw [joinPieces_append, CExpr.joinPieces_pieces, hhead] at hc
      rw [show c = c' by simpa using hc.symm]
      exact fusesWith_sign o hstart
  | @binary x y op c _ _ _ cls _ _ _ _ ihx ihy =>
      rw [named, Bool.and_eq_true] at hn
      have htok : isToken op.string = true := by cases op <;> first | (cases cls; done) | rfl
      have hright := ihy hn.2 sp rest hrest hnext
      have hop : Separated ((op.string, true) :: (pieces (arithTree prog aliases y) sp ++ rest)) :=
        ⟨htok, Or.inl rfl, hright⟩
      rw [arithTree, pieces, List.append_assoc]
      exact ihx hn.1 true _ hop (Or.inl rfl)
  | @call fn x _ _ _ target _ _ ih =>
      rw [named, Bool.and_eq_true] at hn
      obtain ⟨cType, hc, -⟩ := conversionNamed_cScalar hn.1 target
      have hword : isWord cType = true := by
        have hall : ∀ p ∈ goBasicNameToC, isWord p.2 = true := by decide
        obtain ⟨_, _, hmem, -⟩ := List.lookup_eq_some_iff.mp hc
        exact hall (fn.name, cType) (by rw [hmem]; simp)
      have hclose : Separated (([')'], sp) :: rest) :=
        ⟨rfl, Or.inr fun c _ => fusesWith_close c, hrest⟩
      have hinner := ih hn.2 false _ hclose (Or.inr (by simp [joinPieces]))
      rw [arithTree, hc]
      simp only [Option.getD_some, pieces, typePieces, List.cons_append, List.nil_append,
        List.append_assoc]
      refine ⟨rfl, Or.inr fun c _ => fusesWith_open c, isToken_of_isWord hword,
        Or.inr fun c hcc => ?_, rfl, Or.inr fun c _ => fusesWith_close c, rfl,
        Or.inr fun c _ => fusesWith_open c, hinner⟩
      rw [show c = ')' by simpa [joinPieces] using hcc.symm]
      exact fusesWith_word hword

/-- **C reads the text of an integer expression as its tree.** -/
theorem readBack_arith {prog : Program} {aliases : Aliases} {e : Expr} {s : Scalar}
    (h : Arith prog e s) (hn : named prog aliases e = true) :
    formatExpr prog aliases e = .ok (render (arithTree prog aliases e)) ∧
      readBack (render (arithTree prog aliases e)) = some (erase (arithTree prog aliases e)) := by
  constructor
  · rw [formatExpr_eq, exprTree, exprTree_arith h hn]
    rfl
  · refine (readBack_iff _).mpr ⟨?_, fits_arithTree h hn⟩
    have hsep := separated_arithTree h hn false [] trivial (Or.inr (by simp [joinPieces]))
    rwa [List.append_nil] at hsep

end Gobee
