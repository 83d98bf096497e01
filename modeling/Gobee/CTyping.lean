/-
# Types of C expressions

The type of an expression from the types of what it names: variables, members of structs
and functions.  Only the operators that lead from one object to another are typed exactly;
arithmetic is of type `int`.
-/
import Gobee.CExpr

namespace CSyntax

open CExpr

/-- A type: one that has a name of its own, a pointer or an array. -/
inductive CTy where
  | word (w : Text)
  | ptr (t : CTy)
  | arr (t : CTy) (len : Nat)
  deriving DecidableEq, Repr

/-- What a pointer or an array designates. -/
def CTy.deref : CTy → Option CTy
  | .ptr t => some t
  | .arr t _ => some t
  | .word _ => none

/-- The declarations that an expression sees; a function does not return an array. -/
structure CScope where
  var : Text → Option CTy
  member : Text → Text → Option CTy
  ret : Text → Option CTy
  ret_ne_arr : ∀ w t n, ret w ≠ some (.arr t n)

/-- The member of a value that is a struct. -/
def CScope.memberOf (E : CScope) (f : Text) : CTy → Option CTy
  | .word w => E.member w f
  | _ => none

/-- The words of a type name; each star is a pointer. -/
def castTy : List Text → Option CTy
  | [] => none
  | w :: ws => some ((ws.filter (· == ['*'])).foldl (fun t _ => .ptr t) (.word w))

/-- **The type of an expression.** -/
def ctype (E : CScope) : CExpr Unit → Option CTy
  | .leaf w _ => E.var w
  | .paren e => ctype E e
  | .unary op e =>
      if op = ['*'] then (ctype E e).bind CTy.deref
      else if op = ['&'] then (ctype E e).map .ptr
      else some (.word "int")
  | .member b op f =>
      if op = "->" then ((ctype E b).bind CTy.deref).bind (E.memberOf f)
      else (ctype E b).bind (E.memberOf f)
  | .index b _ => (ctype E b).bind CTy.deref
  | .call (.leaf w _) _ => E.ret w
  | .cast ty _ => castTy ty
  | .post e _ => ctype E e
  | .binary _ _ _ _ => some (.word "int")
  | _ => none

end CSyntax
