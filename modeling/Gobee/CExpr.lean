/-
# C expressions as they are written

The expressions of C with their parentheses kept, so that a tree is one way of
writing an expression down: `render` gives its text, `pieces` the same text cut into
tokens, `toks` the tokens alone, and `erase` forgets the parentheses (and where the
text came from) and leaves the operator tree.

`level` is C's precedence level of the outermost operator and `Fits` says that every
operand stands where C's grammar lets it stand: a tree that `Fits` needs no further
parentheses to be read back as itself.  The leaves carry a tag of an arbitrary type,
which later modules use to remember the identifier a leaf was printed for.
-/
import Gobee.CToken

namespace CSyntax

/-! ## Words -/

/-- The keywords of C11. -/
def standardKeywords : List Text :=
  ["auto", "break", "case", "char", "const", "continue", "default", "do", "double", "else",
    "enum", "extern", "float", "for", "goto", "if", "inline", "int", "long", "register",
    "restrict", "return", "short", "signed", "sizeof", "static", "struct", "switch",
    "typedef", "union", "unsigned", "void", "volatile", "while", "_Alignas", "_Alignof",
    "_Atomic", "_Bool", "_Complex", "_Generic", "_Imaginary", "_Noreturn", "_Static_assert",
    "_Thread_local"]

/-- The keywords a compiler for BPF (`clang`, in its default GNU mode) has besides. -/
def gnuKeywords : List Text :=
  ["asm", "__asm", "__asm__", "typeof", "__typeof", "__typeof__", "__auto_type",
    "__attribute", "__attribute__", "__extension__", "__label__", "__thread", "__alignof",
    "__alignof__", "__const", "__const__", "__volatile", "__volatile__", "__restrict",
    "__restrict__", "__inline", "__inline__", "__signed", "__signed__", "__complex",
    "__complex__", "__real", "__real__", "__imag", "__imag__", "__int128", "__float128",
    "__bf16", "_Float16", "_Decimal32", "_Decimal64", "_Decimal128", "_BitInt", "_ExtInt",
    "_Nonnull", "_Nullable", "_Nullable_result", "_Null_unspecified", "__func__",
    "__FUNCTION__", "__PRETTY_FUNCTION__", "__builtin_choose_expr", "__builtin_convertvector",
    "__builtin_offsetof", "__builtin_types_compatible_p", "__builtin_va_arg"]

/-- Keywords of C; none of them is an identifier. -/
def keywords : List Text := standardKeywords ++ gnuKeywords

/-- Keywords a type name may start with. -/
def typeKeywords : List Text :=
  ["char", "const", "double", "enum", "float", "int", "long", "short", "signed", "struct",
    "union", "unsigned", "void", "volatile"]

/-- The integer types of `linux/types.h`; both header sets of an emitted file define them. -/
def kernelTypes : List Text :=
  ["__s8", "__s16", "__s32", "__s64", "__u8", "__u16", "__u32", "__u64"]

/-- The typedef names of the headers.  `bool` is one of them in the files that include
`vmlinux.h` only: the other header set leaves it undefined. -/
def typedefNames : List Text := "bool" :: kernelTypes

/-- The word starts a type name. -/
def isTypeWord (w : Text) : Bool := w ∈ typeKeywords || w ∈ typedefNames

/-- The spelling is an identifier token (or a keyword). -/
def isWord (w : Text) : Bool :=
  match scan w with
  | some ⟨.ident, _⟩ => true
  | _ => false

/-- The spelling is a number, a character constant or a string literal. -/
def isConstant (w : Text) : Bool :=
  match scan w with
  | some ⟨.number, _⟩ | some ⟨.closed, _⟩ => true
  | _ => false

/-- The spelling can stand as an operand on its own. -/
def isOperand (w : Text) : Bool :=
  isConstant w || (isWord w && !(w ∈ keywords) && !(w ∈ typedefNames))

/-- The spelling can name a member. -/
def isMemberName (w : Text) : Bool := isWord w && !(w ∈ keywords)

/-- The spelling may stand inside a type name. -/
def isTypePart (w : Text) : Bool := isWord w || w == ['*']

/-- The prefix operators. -/
def prefixOps : List Text := ["!", "&", "-", "~", "*", "+", "++", "--", "sizeof"]

/-- The postfix operators that take no operand. -/
def postfixOps : List Text := ["++", "--"]

/-- The member operators. -/
def memberOps : List Text := [".", "->"]

/-- Binary operators with their precedence level, loosest first. -/
def binaryOps : List (Text × Nat) :=
  [("||", 1), ("&&", 2), ("|", 3), ("^", 4), ("&", 5), ("==", 6), ("!=", 6), ("<", 7),
    ("<=", 7), (">", 7), (">=", 7), ("<<", 8), (">>", 8), ("+", 9), ("-", 9), ("*", 10),
    ("/", 10), ("%", 10)]

/-- The precedence level of a binary operator, `0` for any other spelling. -/
def opLevel (op : Text) : Nat := (binaryOps.lookup op).getD 0

/-- Unary operators and casts bind tighter than every binary operator. -/
def unaryLevel : Nat := 11

/-- Postfix operators bind tighter than unary ones. -/
def postfixLevel : Nat := 12

/-- Nothing binds tighter than a primary expression. -/
def primaryLevel : Nat := 13

theorem postfixLevel_le_primaryLevel : postfixLevel ≤ primaryLevel := by decide

theorem opLevel_lt_unaryLevel (op : Text) : opLevel op < unaryLevel := by
  unfold opLevel
  cases h : binaryOps.lookup op with
  | none => decide
  | some n =>
      have hall : ∀ x ∈ binaryOps, x.2 < unaryLevel := by decide
      obtain ⟨_, _, hmem, _⟩ := List.lookup_eq_some_iff.mp h
      have hx : (op, n) ∈ binaryOps := by
        rw [hmem]
        simp
      exact hall _ hx

/-! ## Expressions with their parentheses -/

/-- A way of writing a C expression.  `sp` in `binary` says whether blanks stand around
the operator; `ty` in `cast` is the list of words and stars of the type name. -/
inductive CExpr (ι : Type) where
  | leaf (w : Text) (tag : ι)
  | paren (e : CExpr ι)
  | unary (op : Text) (e : CExpr ι)
  | post (e : CExpr ι) (op : Text)
  | binary (sp : Bool) (op : Text) (l r : CExpr ι)
  | index (b i : CExpr ι)
  | member (b : CExpr ι) (op f : Text)
  | call (f : CExpr ι) (args : List (CExpr ι))
  | cast (ty : List Text) (e : CExpr ι)

variable {ι κ : Type}

/-- The words of a type name; a star is not followed by a blank. -/
def typePieces : List Text → List Piece
  | [] => []
  | [w] => [(w, false)]
  | w :: w' :: ws => (w, w != ['*']) :: typePieces (w' :: ws)

/-- The text of a type name. -/
def typeText (ty : List Text) : Text := joinPieces (typePieces ty)

/-- The blank printed around a spaced operator. -/
def gap (sp : Bool) : Text := if sp then [' '] else []

namespace CExpr

mutual
/-- The text of an expression. -/
def render : CExpr ι → Text
  | .leaf w _ => w
  | .paren e => "(" ++ render e ++ ")"
  | .unary op e => op ++ render e
  | .post e op => render e ++ op
  | .binary sp op l r => render l ++ gap sp ++ op ++ gap sp ++ render r
  | .index b i => render b ++ "[" ++ render i ++ "]"
  | .member b op f => render b ++ op ++ f
  | .call f args => render f ++ "(" ++ renderArgs args ++ ")"
  | .cast ty e => "(" ++ typeText ty ++ ")" ++ render e

/-- The text of an argument list. -/
def renderArgs : List (CExpr ι) → Text
  | [] => []
  | [a] => render a
  | a :: b :: rest => render a ++ ", " ++ renderArgs (b :: rest)
end

mutual
/-- The pieces of an expression; `sp` is whether a blank follows the whole. -/
def pieces : CExpr ι → Bool → List Piece
  | .leaf w _, sp => [(w, sp)]
  | .paren e, sp => (['('], false) :: (pieces e false ++ [([')'], sp)])
  | .unary op e, sp => (op, false) :: pieces e sp
  | .post e op, sp => pieces e false ++ [(op, sp)]
  | .binary b op l r, sp => pieces l b ++ (op, b) :: pieces r sp
  | .index b i, sp => pieces b false ++ (['['], false) :: (pieces i false ++ [([']'], sp)])
  | .member b op f, sp => pieces b false ++ [(op, false), (f, sp)]
  | .call f args, sp => pieces f false ++ (['('], false) :: (piecesArgs args ++ [([')'], sp)])
  | .cast ty e, sp => (['('], false) :: (typePieces ty ++ ([')'], false) :: pieces e sp)

/-- The pieces of an argument list. -/
def piecesArgs : List (CExpr ι) → List Piece
  | [] => []
  | [a] => pieces a false
  | a :: b :: rest => pieces a false ++ ([','], true) :: piecesArgs (b :: rest)
end

mutual
/-- The tokens of an expression. -/
def toks : CExpr ι → List Text
  | .leaf w _ => [w]
  | .paren e => ['('] :: (toks e ++ [[')']])
  | .unary op e => op :: toks e
  | .post e op => toks e ++ [op]
  | .binary _ op l r => toks l ++ op :: toks r
  | .index b i => toks b ++ ['['] :: (toks i ++ [[']']])
  | .member b op f => toks b ++ [op, f]
  | .call f args => toks f ++ ['('] :: (toksArgs args ++ [[')']])
  | .cast ty e => ['('] :: (ty ++ [')'] :: toks e)

/-- The tokens of an argument list. -/
def toksArgs : List (CExpr ι) → List Text
  | [] => []
  | [a] => toks a
  | a :: b :: rest => toks a ++ [','] :: toksArgs (b :: rest)
end

mutual
/-- Forget the tags and the blanks, keep the parentheses. -/
def bare : CExpr ι → CExpr Unit
  | .leaf w _ => .leaf w ()
  | .paren e => .paren (bare e)
  | .unary op e => .unary op (bare e)
  | .post e op => .post (bare e) op
  | .binary _ op l r => .binary true op (bare l) (bare r)
  | .index b i => .index (bare b) (bare i)
  | .member b op f => .member (bare b) op f
  | .call f args => .call (bare f) (bareArgs args)
  | .cast ty e => .cast ty (bare e)

/-- `bare` on an argument list. -/
def bareArgs : List (CExpr ι) → List (CExpr Unit)
  | [] => []
  | a :: rest => bare a :: bareArgs rest
end

mutual
/-- **The operator tree**: tags, blanks and parentheses forgotten. -/
def erase : CExpr ι → CExpr Unit
  | .leaf w _ => .leaf w ()
  | .paren e => erase e
  | .unary op e => .unary op (erase e)
  | .post e op => .post (erase e) op
  | .binary _ op l r => .binary true op (erase l) (erase r)
  | .index b i => .index (erase b) (erase i)
  | .member b op f => .member (erase b) op f
  | .call f args => .call (erase f) (eraseArgs args)
  | .cast ty e => .cast ty (erase e)

/-- `erase` on an argument list. -/
def eraseArgs : List (CExpr ι) → List (CExpr Unit)
  | [] => []
  | a :: rest => erase a :: eraseArgs rest
end

/-- The precedence level of the outermost operator. -/
def level : CExpr ι → Nat
  | .leaf _ _ | .paren _ => primaryLevel
  | .post _ _ | .index _ _ | .member _ _ _ | .call _ _ => postfixLevel
  | .unary _ _ | .cast _ _ => unaryLevel
  | .binary _ op _ _ => opLevel op

mutual
/-- **Every operand stands where C's grammar lets it stand**: the left operand of a
binary operator binds at least as tightly as the operator, the right one more tightly
(all of C's binary operators associate to the left), an operand of a unary operator or
a cast is itself unary, postfix or primary, and what a postfix operator applies to is
postfix or primary. -/
def Fits : CExpr ι → Prop
  | .leaf w _ => isOperand w = true
  | .paren e => Fits e
  | .unary op e => op ∈ prefixOps ∧ unaryLevel ≤ level e ∧ Fits e
  | .post e op => op ∈ postfixOps ∧ postfixLevel ≤ level e ∧ Fits e
  | .binary _ op l r =>
      0 < opLevel op ∧ opLevel op ≤ level l ∧ opLevel op < level r ∧ Fits l ∧ Fits r
  | .index b i => postfixLevel ≤ level b ∧ Fits b ∧ Fits i
  | .member b op f =>
      op ∈ memberOps ∧ isMemberName f = true ∧ postfixLevel ≤ level b ∧ Fits b
  | .call f args => postfixLevel ≤ level f ∧ Fits f ∧ FitsArgs args
  | .cast ty e =>
      (∃ w ws, ty = w :: ws ∧ isTypeWord w = true ∧ ∀ v ∈ ws, isTypePart v = true) ∧
        unaryLevel ≤ level e ∧ Fits e

/-- `Fits` on an argument list. -/
def FitsArgs : List (CExpr ι) → Prop
  | [] => True
  | a :: rest => Fits a ∧ FitsArgs rest
end

/-! ## Rendering is joining the pieces -/

mutual
theorem joinPieces_pieces : ∀ (e : CExpr ι) (sp : Bool),
    joinPieces (pieces e sp) = render e ++ gap sp
  | .leaf w _, sp => by simp [pieces, render, joinPieces, gap]
  | .paren e, sp => by
      simp [pieces, render, joinPieces, gap, joinPieces_pieces e]
  | .unary op e, sp => by
      simp [pieces, render, joinPieces, gap, joinPieces_pieces e]
  | .post e op, sp => by
      simp [pieces, render, joinPieces, gap, joinPieces_pieces e]
  | .binary b op l r, sp => by
      simp [pieces, render, joinPieces, gap, joinPieces_pieces l, joinPieces_pieces r]
  | .index b i, sp => by
      simp [pieces, render, joinPieces, gap, joinPieces_pieces b, joinPieces_pieces i]
  | .member b op f, sp => by
      simp [pieces, render, joinPieces, gap, joinPieces_pieces b]
  | .call f args, sp => by
      simp [pieces, render, joinPieces, gap, joinPieces_pieces f, joinPieces_piecesArgs args]
  | .cast ty e, sp => by
      simp [pieces, render, joinPieces, gap, typeText, joinPieces_pieces e]

theorem joinPieces_piecesArgs : ∀ args : List (CExpr ι),
    joinPieces (piecesArgs args) = renderArgs args
  | [] => rfl
  | [a] => by simp [piecesArgs, renderArgs, gap, joinPieces_pieces a]
  | a :: b :: rest => by
      simp [piecesArgs, renderArgs, gap, joinPieces, joinPieces_pieces a,
        joinPieces_piecesArgs (b :: rest)]
end

theorem typePieces_fst : ∀ ty : List Text, (typePieces ty).map Prod.fst = ty
  | [] => rfl
  | [_] => rfl
  | w :: w' :: ws => by simp [typePieces, typePieces_fst (w' :: ws)]

mutual
theorem pieces_fst : ∀ (e : CExpr ι) (sp : Bool), (pieces e sp).map Prod.fst = toks e
  | .leaf w _, sp => rfl
  | .paren e, sp => by simp [pieces, toks, pieces_fst e]
  | .unary op e, sp => by simp [pieces, toks, pieces_fst e]
  | .post e op, sp => by simp [pieces, toks, pieces_fst e]
  | .binary b op l r, sp => by simp [pieces, toks, pieces_fst l, pieces_fst r]
  | .index b i, sp => by simp [pieces, toks, pieces_fst b, pieces_fst i]
  | .member b op f, sp => by simp [pieces, toks, pieces_fst b]
  | .call f args, sp => by simp [pieces, toks, pieces_fst f, piecesArgs_fst args]
  | .cast ty e, sp => by simp [pieces, toks, typePieces_fst, pieces_fst e]

theorem piecesArgs_fst : ∀ args : List (CExpr ι),
    (piecesArgs args).map Prod.fst = toksArgs args
  | [] => rfl
  | [a] => by simp [piecesArgs, toksArgs, pieces_fst a]
  | a :: b :: rest => by
      simp [piecesArgs, toksArgs, pieces_fst a, piecesArgs_fst (b :: rest)]
end

/-- Lexing the text of an expression gives its tokens exactly when its pieces are
separated. -/
theorem lex_render_iff (e : CExpr ι) :
    lex (render e) = some (toks e) ↔ Separated (pieces e false) := by
  rw [← lex_joinPieces_iff, joinPieces_pieces, pieces_fst]
  simp [gap]

/-! ## Normal forms -/

@[simp] theorem level_bare (e : CExpr ι) : level (bare e) = level e := by
  cases e <;> rfl

mutual
theorem erase_bare : ∀ e : CExpr ι, erase (bare e) = erase e
  | .leaf w _ => rfl
  | .paren e => by simp [bare, erase, erase_bare e]
  | .unary op e => by simp [bare, erase, erase_bare e]
  | .post e op => by simp [bare, erase, erase_bare e]
  | .binary b op l r => by simp [bare, erase, erase_bare l, erase_bare r]
  | .index b i => by simp [bare, erase, erase_bare b, erase_bare i]
  | .member b op f => by simp [bare, erase, erase_bare b]
  | .call f args => by simp [bare, erase, erase_bare f, eraseArgs_bare args]
  | .cast ty e => by simp [bare, erase, erase_bare e]

theorem eraseArgs_bare : ∀ args : List (CExpr ι), eraseArgs (bareArgs args) = eraseArgs args
  | [] => rfl
  | a :: rest => by simp [bareArgs, eraseArgs, erase_bare a, eraseArgs_bare rest]
end

mutual
theorem fits_bare : ∀ e : CExpr ι, Fits (bare e) ↔ Fits e
  | .leaf w _ => Iff.rfl
  | .paren e => by simp [bare, Fits, fits_bare e]
  | .unary op e => by simp [bare, Fits, fits_bare e]
  | .post e op => by simp [bare, Fits, fits_bare e]
  | .binary b op l r => by simp [bare, Fits, fits_bare l, fits_bare r]
  | .index b i => by simp [bare, Fits, fits_bare b, fits_bare i]
  | .member b op f => by simp [bare, Fits, fits_bare b]
  | .call f args => by simp [bare, Fits, fits_bare f, fitsArgs_bare args]
  | .cast ty e => by simp [bare, Fits, fits_bare e]

theorem fitsArgs_bare : ∀ args : List (CExpr ι), FitsArgs (bareArgs args) ↔ FitsArgs args
  | [] => Iff.rfl
  | a :: rest => by simp [bareArgs, FitsArgs, fits_bare a, fitsArgs_bare rest]
end

/-! ## Collecting from an expression -/

section

variable {β : Type} (g : CExpr ι → List β) (h : Text → ι → List β)

mutual
/-- What the parts of an expression contribute: `g` for each call, and `h` of the word and
the tag for each leaf. -/
def collect : CExpr ι → List β
  | .leaf w tag => h w tag
  | .paren e => collect e
  | .unary _ e => collect e
  | .post e _ => collect e
  | .binary _ _ l r => collect l ++ collect r
  | .index b i => collect b ++ collect i
  | .member b _ _ => collect b
  | .call f args => g (.call f args) ++ collect f ++ collectArgs args
  | .cast _ e => collect e

/-- What a list of arguments contributes. -/
def collectArgs : List (CExpr ι) → List β
  | [] => []
  | a :: rest => collect a ++ collectArgs rest
end

theorem mem_collectArgs {args : List (CExpr ι)} {b : β} :
    b ∈ collectArgs g h args ↔ ∃ a ∈ args, b ∈ collect g h a := by
  induction args with
  | nil => simp [collectArgs]
  | cons a rest ih => simp [collectArgs, ih]

end

end CExpr

end CSyntax
