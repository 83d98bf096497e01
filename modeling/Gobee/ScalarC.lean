/-
# Running emitted functions

What the emitted C functions over scalar variables do, by the rules of C: a declarator is in
scope in its own initialiser, a block drops what it declares, an argument is converted to the
type of its parameter and a result to the type of the function, and a function may call those
defined before it.

* `CFunction.header` : the line that `writeHelper` writes in front of a body;
* `cCallees` : **what the functions of a file compute in C.**
-/
import Gobee.Arith
import Gobee.CCells
import Gobee.StmtTree

namespace Gobee

open CSyntax MachineInt Refinement

/-! ## Lines -/

/-- The operator of an assignment such as `+=`. -/
def compoundOp (op : Text) : Text := op.dropLast

/-- The end of a statement with its variables. -/
abbrev CEnds := Comp (Ends Cells (Option Typed))

section

variable (calls : Callees)

/-- Assign to a variable what an expression gives, or what an operator makes of it. -/
def assignCell (f : Cells) (w op : Text) (x : Typed) : CEnds :=
  (orFault (findCell f w)).bind fun c =>
    if op = ['='] then .ok (.next (setCell w (convert c.type x.2) f))
    else
      (orFault c.value).bind fun n =>
        (orFault (binaryValue (compoundOp op) (c.type, n) x)).bind fun r =>
          .ok (.next (setCell w (convert c.type r.2) f))

/-- A line. -/
def runLine : CLine → Cells → CEnds
  | .decl cType w _ none, f =>
      (orFault (cScalar cType)).bind fun s => .ok (.next (⟨w, s, none⟩ :: f))
  | .decl cType w _ (some init), f =>
      (orFault (cScalar cType)).bind fun s =>
        (runExpr cScalar calls (⟨w, s, none⟩ :: f) init).bind fun x =>
          .ok (.next (⟨w, s, some (convert s x.2)⟩ :: f))
  | .assign (.leaf w _) op rhs, f =>
      (runExpr cScalar calls f rhs).bind fun x => assignCell f w op x
  | .step (.leaf w _) op, f =>
      assignCell f w (if op = "++" then "+=" else "-=") (.int int32, 1)
  | .expr x, f => (runEffect cScalar calls f x).bind fun _ => .ok (.next f)
  | .ret none, _ => .ok (.ret none)
  | .ret (some x), f => (runExpr cScalar calls f x).bind fun v => .ok (.ret (some v))
  | _, _ => .error .fault

/-- Lines one after the other. -/
def runLines : List CLine → Cells → CEnds
  | [], f => .ok (.next f)
  | l :: rest, f => andThen (runLine calls l f) (runLines rest)

/-! ## Statements -/

/-- A condition. -/
def runTest (f : Cells) (cond : CTree) : Comp Bool :=
  (runExpr cScalar calls f cond).bind fun x => .ok (x.2 ≠ 0)

/-- The end of a block that began with the variables `f`. -/
def inBlock (f : Cells) (c : CEnds) : CEnds := andThen c fun g => .ok (.next (leaveBlock f.length g))

variable (fuel : Nat)

mutual
/-- A statement; a loop is cut off after `fuel` rounds. -/
def runStmt : CStmt → Cells → CEnds
  | .simple _ lines, f => runLines calls lines f
  | .block _ body, f => inBlock f (runBlock body f)
  | .ite _ _ cond body els, f =>
      (runTest calls f cond).bind fun b => if b then inBlock f (runBlock body f) else runElse els f
  | .loop _ _ init _ cond _ post body, f =>
      inBlock f <| andThen (runLine calls init f) fun f =>
        loop (runTest calls · cond) (fun f => inBlock f (runBlock body f)) (runLine calls post) fuel f

/-- An else part. -/
def runElse : CElse → Cells → CEnds
  | .none, f => .ok (.next f)
  | .elseIf _ _ cond body, f =>
      (runTest calls f cond).bind fun b =>
        if b then inBlock f (runBlock body f) else .ok (.next f)
  | .block _ body, f => inBlock f (runBlock body f)

/-- The statements of a block. -/
def runBlock : List CStmt → Cells → CEnds
  | [], f => .ok (.next f)
  | s :: rest, f => andThen (runStmt s f) (runBlock rest)
end

end

/-! ## Functions -/

/-- An emitted function: its return type, its name, the types and names of its parameters and
its body. -/
structure CFunction where
  ret : Text
  name : Text
  params : List (Text × Text)
  body : List CStmt

namespace CFunction

/-- The line in front of the body. -/
def header (fn : CFunction) : Text :=
  let params := fn.params.map fun p => declString p.1 p.2
  "static __always_inline " ++ fn.ret ++ " " ++ fn.name ++ "(" ++
    (if params.isEmpty then ("void" : Text) else join ", " params) ++ ") \x7b\n"

/-- The actions that write the function. -/
def acts (fn : CFunction) : List Act :=
  .writef fn.header :: .indent ::
    (blockActs fn.body ++ [.dedent, .writeln "\x7d", .writeln []])

/-- The parameters with the values of the arguments. -/
def paramCells : List (Text × Text) → List Typed → Option Cells
  | [], [] => some []
  | p :: ps, x :: xs => do
      let s ← cScalar p.1
      let rest ← paramCells ps xs
      return ⟨p.2, s, some (convert s x.2)⟩ :: rest
  | _, _ => none

/-- The value of a call; only a function of type `void` may end without one. -/
def result (fn : CFunction) : Ends Cells (Option Typed) → Comp (Option Typed)
  | .ret (some x) => (orFault (cScalar fn.ret)).bind fun s => .ok (some (s, convert s x.2))
  | _ => if fn.ret = "void" then .ok none else .error .fault

/-- A call. -/
def call (fuel : Nat) (calls : Callees) (fn : CFunction) (args : List Typed) :
    Comp (Option Typed) :=
  (orFault (paramCells fn.params args)).bind fun f =>
    (runBlock calls fuel fn.body f).bind fn.result

end CFunction

/-- The functions that may be called after some more of them are defined. -/
def cCallees (fuel : Nat) (calls : Callees) : List CFunction → Callees
  | [] => calls
  | fn :: rest =>
      cCallees fuel (fun w args => if w = fn.name then fn.call fuel calls args else calls w args)
        rest

end Gobee
