/-
# Scalar variables of a C function

The variables of a running C function, innermost first, and the value of an expression over
them that may call other functions.  A declaration puts a variable in front, a name means the
innermost variable of that name, and the end of a block drops what the block declared.  A
variable without a value is indeterminate: to read it is a fault, as is every operation that
C leaves undefined.
-/
import Gobee.CConst
import Gobee.Refinement

namespace CSyntax

open MachineInt Refinement

/-! ## Variables -/

/-- A variable of a running function. -/
structure Cell where
  name : Text
  type : Scalar
  value : Option Int

/-- The variables of a running function, innermost first. -/
abbrev Cells := List Cell

/-- The variable that a name means. -/
def findCell (f : Cells) (w : Text) : Option Cell := f.find? fun c => c.name = w

/-- Give the variable that a name means a value. -/
def setCell (w : Text) (n : Int) : Cells → Cells
  | [] => []
  | c :: rest => if c.name = w then { c with value := some n } :: rest else c :: setCell w n rest

/-- The variables that are left at the end of a block that began with `k` of them. -/
def leaveBlock (k : Nat) (f : Cells) : Cells := f.drop (f.length - k)

theorem findCell_cons_of_ne {c : Cell} {w : Text} (f : Cells) (h : c.name ≠ w) :
    findCell (c :: f) w = findCell f w :=
  List.find?_cons_of_neg (by simpa using h)

theorem leaveBlock_append (f g : Cells) : leaveBlock g.length (f ++ g) = g := by
  rw [leaveBlock, List.length_append, Nat.add_sub_cancel, List.drop_left]

@[simp] theorem leaveBlock_self (f : Cells) : leaveBlock f.length f = f := by
  rw [leaveBlock, Nat.sub_self, List.drop_zero]

/-! ## Expressions -/

/-- The truth values. -/
def truthWord (w : Text) : Option Typed :=
  if w = "true" then some (truth true) else if w = "false" then some (truth false) else none

/-- The value of a word: a constant, or a variable that has one. -/
def leafValue (f : Cells) (w : Text) : Option Typed :=
  match (truthWord w).or (constantValue w) with
  | some x => some x
  | none => (findCell f w).bind fun c => c.value.map fun n => (c.type, n)

/-- The functions that a program may call; one that returns nothing gives no value. -/
abbrev Callees := Text → List Typed → Comp (Option Typed)

section

variable {ι : Type} (types : Text → Option Scalar) (calls : Callees) (f : Cells)

mutual
/-- The value of an expression in a running function. -/
def runExpr : CExpr ι → Comp Typed
  | .leaf w _ => orFault (leafValue f w)
  | .paren e => runExpr e
  | .unary op e => (runExpr e).bind fun x => orFault (unaryValue op x)
  | .binary _ op l r =>
      if op = "&&" then
        (runExpr l).bind fun x =>
          if x.2 = 0 then .ok (truth false)
          else (runExpr r).bind fun y => .ok (truth (y.2 ≠ 0))
      else if op = "||" then
        (runExpr l).bind fun x =>
          if x.2 ≠ 0 then .ok (truth true)
          else (runExpr r).bind fun y => .ok (truth (y.2 ≠ 0))
      else
        (runExpr l).bind fun x => (runExpr r).bind fun y => orFault (binaryValue op x y)
  | .cast [ty] e =>
      (orFault (types ty)).bind fun s => (runExpr e).bind fun x => .ok (s, convert s x.2)
  -- a variable of the name hides the function
  | .call (.leaf w _) args =>
      if (findCell f w).isSome then .error .fault
      else ((runArgs args).bind (calls w)).bind orFault
  | _ => .error .fault

/-- The values of the arguments of a call. -/
def runArgs : List (CExpr ι) → Comp (List Typed)
  | [] => .ok []
  | e :: rest => (runExpr e).bind fun x => (runArgs rest).bind fun xs => .ok (x :: xs)
end

/-- An expression as a statement: the value is not used, and a call need not have one. -/
def runEffect : CExpr ι → Comp Unit
  | .call (.leaf w _) args =>
      if (findCell f w).isSome then .error .fault
      else ((runArgs types calls f args).bind (calls w)).bind fun _ => .ok ()
  | e => (runExpr types calls f e).bind fun _ => .ok ()

end

end CSyntax
