/-
# Functions over scalar variables

The helpers that compute with integers and truth values only: their parameters, variables and
results are scalars, each variable is declared with a value under a name of its own, and they
call only helpers declared before them.  Integers of any width are stored, compared and
converted; arithmetic is done in `uint32` and `uint64`, where Go and C agree.

* `goCallees` : what these functions compute in Go;
* `scalarHelpers` : the test that helpers are such functions.
-/
import Gobee.ArithTree
import Gobee.CCells
import Gobee.ConstExprs
import Gobee.EmitProgram

namespace Gobee

open CSyntax MachineInt Refinement

/-! ## The meaning of a function in Go -/

/-- A value with its type; an untyped constant has none. -/
abbrev GoVal := Option Scalar × Int

/-- The values of the variables, by their declarations. -/
abbrev GoStore := Ident → Int

/-- What a call of a function, named by its declaration, returns, if it returns a value. -/
abbrev GoCallees := Ident → List Int → Comp (Option Typed)

/-- A value as an untyped or a typed operand. -/
def Typed.operand (x : Typed) : GoVal := (some x.1, x.2)

/-- The operator panics on the right operand: a division by zero, or a negative shift count. -/
def panics : OpClass → Int → Bool
  | .quo, n | .rem, n => n = 0
  | .shl, n | .shr, n => n < 0
  | _, _ => false

/-- An operator on evaluated operands, of which one has a type; the other one may be a
constant and takes that type. -/
def goOperate (c : OpClass) (v w : GoVal) : Comp GoVal :=
  match v.1.or w.1 with
  | some s =>
      if panics c w.2 then .error .panic
      else
        (orFault (goBinary c (v.1.getD s, v.2) (w.1.getD s, w.2))).bind fun r =>
          .ok (Typed.operand r)
  | none => .error .fault

/-- A unary operator on an evaluated operand. -/
def goSign (op : UnaryOp) (v : GoVal) : Comp GoVal :=
  match op, signOf op, v.1 with
  | .not, _, some .bool => .ok (some .bool, ofBool (v.2 = 0))
  | _, some o, some s => (orFault (goUnary o (s, v.2))).bind fun r => .ok (Typed.operand r)
  | _, _, _ => .error .fault

section

variable (prog : Program) (calls : GoCallees)

/-- The value of an identifier. -/
def goIdent (σ : GoStore) (id : Ident) : Option GoVal :=
  match prog.info.uses id with
  | some ⟨_, .const (.int n), _⟩ => some (none, n)
  | some ⟨_, .const (.bool b), _⟩ => some (some .bool, ofBool b)
  | _ => (scalarVar prog id).map fun p => (some p.2, σ p.1)

/-- A conversion, or a call of a function, on evaluated arguments. -/
def goApply (fn : Ident) (vs : List GoVal) : Comp (Option GoVal) :=
  match conversionScalar prog fn, prog.info.uses fn, vs with
  | some s, _, [v] => .ok (some (some s, goConvert s v.2))
  | none, some ⟨decl, .func, _⟩, vs =>
      (calls decl (vs.map Prod.snd)).bind fun r => .ok (r.map Typed.operand)
  | _, _, _ => .error .fault

mutual
/-- The value of an expression. -/
def goExpr (σ : GoStore) : Expr → Comp GoVal
  | .basicLit _ .int v => orFault ((decimalLiteral v).map fun n => (none, (n : Int)))
  | .ident id => orFault (goIdent prog σ id)
  | .paren _ x => goExpr σ x
  | .unary _ op x => (goExpr σ x).bind (goSign op)
  | .binary x op y =>
      match classOf op with
      | some .land =>
          (goExpr σ x).bind fun v => if v.2 = 0 then .ok (some .bool, 0) else goExpr σ y
      | some .lor =>
          (goExpr σ x).bind fun v => if v.2 = 0 then goExpr σ y else .ok (some .bool, 1)
      | some c => (goExpr σ x).bind fun v => (goExpr σ y).bind fun w => goOperate c v w
      | none => .error .fault
  | .call (.ident fn) args =>
      (goExprs σ args).bind fun vs => (goApply prog calls fn vs).bind orFault
  | _ => .error .fault

/-- The values of the arguments of a call. -/
def goExprs (σ : GoStore) : List Expr → Comp (List GoVal)
  | [] => .ok []
  | e :: rest => (goExpr σ e).bind fun v => (goExprs σ rest).bind fun vs => .ok (v :: vs)
end

/-- An expression as a statement: a call need not have a value. -/
def goEffect (σ : GoStore) : Expr → Comp Unit
  | .call (.ident fn) args =>
      (goExprs prog calls σ args).bind fun vs => (goApply prog calls fn vs).bind fun _ => .ok ()
  | e => (goExpr prog calls σ e).bind fun _ => .ok ()

/-- The end of a statement that gives variables values. -/
def stored (σ : GoStore) : Comp (Ends GoStore (Option Int)) := .ok (.next σ)

/-- Give variables their values. -/
def assignAll (σ : GoStore) (ids : List Ident) (ns : List Int) : GoStore :=
  (ids.zip ns).foldl (fun σ p => Function.update σ p.1 p.2) σ

/-- `var`: a variable without an initialiser starts with zero. -/
def goSpecs (σ : GoStore) : List ValueSpec → Comp (Ends GoStore (Option Int))
  | [] => stored σ
  | .mk ids _ [] :: rest => goSpecs (assignAll σ ids (ids.map fun _ => 0)) rest
  | .mk ids _ values :: rest =>
      (goExprs prog calls σ values).bind fun vs =>
        goSpecs (assignAll σ ids (vs.map Prod.snd)) rest

/-- The operator of an assignment such as `+=`. -/
def assignOp : AssignTok → Option BinaryOp
  | .add => some .add
  | .sub => some .sub
  | .mul => some .mul
  | .quo => some .quo
  | .rem => some .rem
  | .and => some .and
  | .or => some .or
  | .xor => some .xor
  | .shl => some .shl
  | .shr => some .shr
  | .define | .assign | .andNot => none

/-- What it does. -/
def assignClass (tok : AssignTok) : Option OpClass := (assignOp tok).bind classOf

/-- Combine a variable with a value. -/
def goUpdate (σ : GoStore) (p : Ident × Scalar) (c : OpClass) (w : GoVal) :
    Comp (Ends GoStore (Option Int)) :=
  (goOperate c (some p.2, σ p.1) w).bind fun r => stored (Function.update σ p.1 r.2)

/-- An assignment to a variable. -/
def goAssign (σ : GoStore) (id : Ident) (tok : AssignTok) (e : Expr) :
    Comp (Ends GoStore (Option Int)) :=
  (goExpr prog calls σ e).bind fun v =>
    match tok, scalarVar prog id, assignClass tok with
    | .define, _, _ => stored (Function.update σ id v.2)
    | .assign, some p, _ => stored (Function.update σ p.1 v.2)
    | _, some p, some c => goUpdate σ p c v
    | _, _, _ => .error .fault

/-- `x++` and `x--`. -/
def goStep (σ : GoStore) (id : Ident) (inc : Bool) : Comp (Ends GoStore (Option Int)) :=
  match scalarVar prog id with
  | some p => goUpdate σ p (.ring (if inc then .add else .sub)) (none, 1)
  | none => .error .fault

/-- The truth value of a condition. -/
def goTest (σ : GoStore) (e : Expr) : Comp Bool :=
  (goExpr prog calls σ e).bind fun v => .ok (v.2 ≠ 0)

variable (fuel : Nat)

mutual
/-- A statement; a loop is cut off after `fuel` rounds. -/
def goStmt : Stmt → GoStore → Comp (Ends GoStore (Option Int))
  | .decl _ tok specs, σ => if tok = .var then goSpecs prog calls σ specs else stored σ
  | .assign [.ident id] tok [e], σ => goAssign prog calls σ id tok e
  | .incDec (.ident id) inc, σ => goStep prog σ id inc
  | .expr x, σ => (goEffect prog calls σ x).bind fun _ => stored σ
  | .ret _ [], _ => .ok (.ret none)
  | .ret _ [e], σ => (goExpr prog calls σ e).bind fun v => .ok (.ret (some v.2))
  | .block _ list, σ => goBlock list σ
  | .ifs _ init cond body els, σ =>
      andThen (goStmt? init σ) fun σ =>
        (goTest prog calls σ cond).bind fun b => if b then goBlock body σ else goStmt? els σ
  | .fors _ init cond post body, σ =>
      andThen (goStmt? init σ) fun σ =>
        loop (fun σ => (cond.map (goTest prog calls σ)).getD (.ok true)) (goBlock body)
          (goStmt? post) fuel σ
  | _, _ => .error .fault

/-- Statements one after the other. -/
def goBlock : List Stmt → GoStore → Comp (Ends GoStore (Option Int))
  | [], σ => stored σ
  | s :: rest, σ => andThen (goStmt s σ) (goBlock rest)

/-- A statement that may be absent. -/
def goStmt? : Option Stmt → GoStore → Comp (Ends GoStore (Option Int))
  | none, σ => stored σ
  | some s, σ => goStmt s σ
end

end

/-! ## Signatures -/

/-- Scalar variables with their types. -/
abbrev Locals := List (Ident × Scalar)

/-- The parameters and the result of a scalar function. -/
structure Signature where
  params : Locals
  result : Option Scalar
  deriving DecidableEq

section

variable (prog : Program)

/-- A scalar type whose C type is in scope: `bool` comes with `vmlinux.h`. -/
def scalarType : Option GoType → Option Scalar
  | some (.basic kind) => (numTy kind).filter fun s => s = .bool → usesKernelFieldAccess prog
  | _ => none

/-- The parameters of a function, all of them named. -/
def paramLocals : List Field → Option Locals
  | [] => some []
  | f :: rest => do
      let s ← if f.names = [] then none else scalarType prog (prog.info.typeOf f.type)
      let params ← paramLocals rest
      return f.names.map (fun n => (n, s)) ++ params

/-- The result of a function. -/
def resultScalar : List Field → Option (Option Scalar)
  | [] => some none
  | [r] => if r.names = [] then (scalarType prog (prog.info.typeOf r.type)).map some else none
  | _ => none

/-- The signature of a function. -/
def signature (fd : FuncDecl) : Option Signature := do
  let params ← paramLocals prog (fieldsOf fd.params)
  let result ← resultScalar prog (fieldsOf fd.results)
  return ⟨params, result⟩

/-- The result of a run of the body; only a function without a result may end without one. -/
def goResult (sig : Signature) : Ends GoStore (Option Int) → Comp (Option Typed)
  | .ret (some n) => orFault (sig.result.map fun s => some (s, n))
  | _ => if sig.result = none then .ok none else .error .fault

/-- A call of a function. -/
def goCall (fuel : Nat) (calls : GoCallees) (fd : FuncDecl) (args : List Int) :
    Comp (Option Typed) :=
  match signature prog fd, fd.body with
  | some sig, some body =>
      (goBlock prog calls fuel body.list
        (assignAll (fun _ => 0) (sig.params.map Prod.fst) args)).bind (goResult sig)
  | _, _ => .error .fault

/-- The helpers that may be called after some more of them are declared. -/
def goCallees (fuel : Nat) (calls : GoCallees) : List HelperFunc → GoCallees
  | [] => calls
  | h :: rest =>
      goCallees fuel
        (fun id args => if id = h.decl.name then goCall prog fuel calls h.decl args else calls id args)
        rest

end

/-! ## The test for scalar functions -/

/-- The types in which arithmetic is done. -/
def wordTys : List IntTy := [CSyntax.uint32, CSyntax.uint64]

/-- The functions declared so far. -/
abbrev Signatures := List (Ident × Signature)

section

variable (prog : Program)

/-- A constant that C takes for an `int`: a plain decimal literal or a named constant. -/
def litValue : Expr → Option Nat
  | .basicLit _ .int v => (decimalLiteral v).filter (· < 2 ^ 31)
  | .ident id =>
      match prog.info.uses id with
      | some ⟨_, .const (.int n), _⟩ => if 0 ≤ n ∧ n < 2 ^ 31 then some n.toNat else none
      | _ => none
  | _ => none

/-- The operand, of type `t` if it has one, may stand where a value of type `s` is needed: it
is of that type, or a constant that the type holds. -/
def operandFits (s : Scalar) (e : Expr) (t : Option Scalar) : Bool :=
  match t, s, litValue prog e with
  | some t, s, _ => t = s
  | none, .int t, some n => t.Holds n
  | none, _, _ => false

/-- The operand needs no parentheses. -/
def isShort : Expr → Bool
  | .basicLit _ _ _ | .ident _ | .paren _ _ | .call _ _ => true
  | _ => false

/-- The type of the result of an operator on operands of a type. -/
def resultTy : OpClass → Scalar → Option Scalar
  | .ring _, .int t | .quo, .int t | .rem, .int t => if t ∈ wordTys then some (.int t) else none
  | .rel _, .int _ => some .bool
  | .rel o, .bool => if o = .eq ∨ o = .ne then some .bool else none
  | .land, .bool | .lor, .bool => some .bool
  | _, _ => none

/-- The type of a shift, whose count is a constant below the width. -/
def shiftTy : Option Scalar → Option Nat → Option Scalar
  | some (.int t), some n => if t ∈ wordTys ∧ n < t.bits then some (.int t) else none
  | _, _ => none

/-- The type of an operation, by the types of its operands. -/
def operationTy (c : OpClass) (x : Expr) (sx : Option Scalar) (y : Expr) (sy : Option Scalar) :
    Option Scalar :=
  match c with
  | .shl | .shr => shiftTy sx (litValue prog y)
  | c =>
      (sx.or sy).bind fun s =>
        if operandFits prog s x sx && operandFits prog s y sy then resultTy c s else none

/-- The type of a unary operation. -/
def signTy (op : UnaryOp) (t : Option Scalar) : Option Scalar :=
  match op, signOf op, t with
  | .not, _, some .bool => some .bool
  | _, some _, some (.int t) => if t ∈ wordTys then some (.int t) else none
  | _, _, _ => none

/-- The arguments fit the parameters. -/
def argsFit : List Scalar → List Expr → List (Option Scalar) → Bool
  | [], [], [] => true
  | s :: ss, e :: es, t :: ts => operandFits prog s e t && argsFit ss es ts
  | _, _, _ => false

/-- The type of a conversion to an integer type. -/
def conversionTy (fn : Ident) (t : IntTy) : List Expr → List (Option Scalar) → Option Scalar
  | [_], [some (.int _)] => if conversionNamed prog fn then some (.int t) else none
  | [x], [none] =>
      if conversionNamed prog fn && operandFits prog (.int t) x none then some (.int t) else none
  | _, _ => none

variable (sigs : Signatures)

/-- The function that an identifier names, with its signature. -/
def calledSig (fn : Ident) : Option (Ident × Signature) :=
  match prog.info.uses fn with
  | some ⟨decl, .func, _⟩ =>
      if fn.name = decl.name ∧ (goBasicNameToC.lookup fn.name).isNone then
        (sigs.lookup decl).map fun sig => (decl, sig)
      else none
  | _ => none

/-- The type of a call or a conversion. -/
def callTy (fn : Ident) (args : List Expr) (tys : List (Option Scalar)) : Option Scalar :=
  match conversionScalar prog fn with
  | some (.int t) => conversionTy prog fn t args tys
  | some .bool => none
  | none =>
      (calledSig prog sigs fn).bind fun p =>
        if argsFit prog (p.2.params.map Prod.snd) args tys then p.2.result else none

variable (locals : Locals)

/-- The variable in scope that an identifier names. -/
def localVar (id : Ident) : Option (Ident × Scalar) :=
  (scalarVar prog id).filter fun p => id.name = p.1.name ∧ locals.lookup p.1 = some p.2

/-- The type of an identifier: a variable in scope, or a truth value where `vmlinux.h` defines
it. -/
def identTy (id : Ident) : Option Scalar :=
  match prog.info.uses id with
  | some ⟨_, .const (.bool _), _⟩ => if usesKernelFieldAccess prog then some .bool else none
  | _ => (localVar prog locals id).map Prod.snd

mutual
/-- The type of a scalar expression that is no constant. -/
def scalarTy : Expr → Option Scalar
  | .ident id => identTy prog locals id
  | .paren _ x => scalarTy x
  | .unary _ op x => if isShort x then signTy op (scalarTy x) else none
  | .binary x op y =>
      if isShort x && isShort y then
        (classOf op).bind fun c => operationTy prog c x (scalarTy x) y (scalarTy y)
      else none
  | .call (.ident fn) args => callTy prog sigs fn args (scalarTys args)
  | _ => none

/-- The types of the arguments of a call. -/
def scalarTys : List Expr → List (Option Scalar)
  | [] => []
  | e :: rest => scalarTy e :: scalarTys rest
end

/-- An expression may stand where a value of a type is needed. -/
def exprFits (s : Scalar) (e : Expr) : Bool :=
  operandFits prog s e (scalarTy prog sigs locals e)

/-- A name that C takes for a variable. -/
def plainName (w : Text) : Bool :=
  isWord w && isOperand w && (truthWord w).isNone && (constantValue w).isNone

/-- The names in use: functions and variables in scope. -/
def namesInUse : List Text := sigs.map (·.1.name) ++ locals.map (·.1.name)

/-- A call of a function, which may return nothing. -/
def checkCall : Expr → Bool
  | .call (.ident fn) args =>
      (conversionScalar prog fn).isNone &&
        (calledSig prog sigs fn).any fun p =>
          argsFit prog (p.2.params.map Prod.snd) args (scalarTys prog sigs locals args)
  | _ => false

/-- A declaration of a variable with a value. -/
def declareLocal (id : Ident) (e : Expr) : Option Locals :=
  (scalarType prog (typeOfIdent prog id)).bind fun s =>
    if exprFits prog sigs locals s e && plainName id.name && id.name ∉ namesInUse sigs locals then
      some ((id, s) :: locals)
    else none

/-- An assignment to a variable in scope. -/
def checkAssign (id : Ident) (tok : AssignTok) (e : Expr) : Bool :=
  match tok, localVar prog locals id, assignClass tok with
  | .define, _, _ => false
  | .assign, some p, _ => exprFits prog sigs locals p.2 e
  | _, some p, some c =>
      operationTy prog c (.ident id) (some p.2) e (scalarTy prog sigs locals e) = some p.2
  | _, _, _ => false

/-- `x++` and `x--`. -/
def checkStep (id : Ident) : Bool :=
  match localVar prog locals id with
  | some (_, .int t) => t ∈ wordTys
  | _ => false

/-- A clause of a `for`, with the variables in scope after it. -/
def checkClause : Stmt → Option Locals
  | .assign [.ident id] tok [e] =>
      if tok = .define then declareLocal prog sigs locals id e
      else if checkAssign prog sigs locals id tok e then some locals else none
  | .incDec (.ident id) _ => if checkStep prog locals id then some locals else none
  | _ => none

end

section

variable (prog : Program) (sigs : Signatures) (ret : Option Scalar)

mutual
/-- A statement, with the variables in scope after it. -/
def checkStmt : Stmt → Locals → Option Locals
  | .decl _ tok specs, L =>
      match tok, specs with
      | .var, [.mk [id] _ [e]] => declareLocal prog sigs L id e
      | _, _ => none
  | .assign lhs tok rhs, L => checkClause prog sigs L (.assign lhs tok rhs)
  | .incDec x inc, L => checkClause prog sigs L (.incDec x inc)
  | .expr x, L => if checkCall prog sigs L x then some L else none
  | .ret _ results, L =>
      match results, ret with
      | [], none => some L
      | [e], some s => if exprFits prog sigs L s e then some L else none
      | _, _ => none
  | .block _ list, L => (checkBlock list L).map fun _ => L
  | .ifs _ init cond body els, L =>
      if init.isNone && scalarTy prog sigs L cond = some .bool && (checkBlock body L).isSome &&
          checkElse els L then
        some L
      else none
  | .fors _ init cond post body, L =>
      match init, cond, post with
      | some i, some c, some p =>
          (checkClause prog sigs L i).bind fun L' =>
            if scalarTy prog sigs L' c = some .bool && checkClause prog sigs L' p = some L' &&
                (checkBlock body L').isSome then
              some L
            else none
      | _, _, _ => none
  | .other _ _ _, _ => none

/-- Statements, with the variables in scope after them. -/
def checkBlock : List Stmt → Locals → Option Locals
  | [], L => some L
  | s :: rest, L => (checkStmt s L).bind (checkBlock rest)

/-- An else clause: a block, or a last condition. -/
def checkElse : Option Stmt → Locals → Bool
  | none, _ => true
  | some (.block _ list), L => (checkBlock list L).isSome
  | some (.ifs _ none cond body none), L =>
      scalarTy prog sigs L cond = some .bool && (checkBlock body L).isSome
  | some _, _ => false
end

end

mutual
/-- A terminating statement: the next one is never reached.  A loop without a condition would
be one as well. -/
def isTerminating : Stmt → Bool
  | .ret _ _ => true
  | .block _ list => endsTerminating list
  | .ifs _ _ _ body els => endsTerminating body && elseTerminating els
  | _ => false

/-- The last statement is terminating. -/
def endsTerminating : List Stmt → Bool
  | [] => false
  | [s] => isTerminating s
  | _ :: rest => endsTerminating rest

/-- The else clause is there and terminating. -/
def elseTerminating : Option Stmt → Bool
  | none => false
  | some s => isTerminating s
end

/-- A helper that is a scalar function, with its signature. -/
def checkHelper (prog : Program) (sigs : Signatures) (h : HelperFunc) : Option Signature :=
  (signature prog h.decl).bind fun sig =>
    let names := sig.params.map (·.1.name)
    if h.name = h.decl.name.name && plainName h.name && h.name ∉ sigs.map (·.1.name) &&
        names.Nodup && names.all plainName && names.all (· ∉ h.name :: sigs.map (·.1.name)) &&
        (h.decl.body.bind fun b => checkBlock prog sigs sig.result b.list sig.params).isSome &&
        (sig.result.isNone || (h.decl.body.elim false fun b => endsTerminating b.list)) then
      some sig
    else none

/-- The signatures after some more helpers, if all of them are scalar functions. -/
def scalarHelpers (prog : Program) : Signatures → List HelperFunc → Option Signatures
  | sigs, [] => some sigs
  | sigs, h :: rest =>
      (checkHelper prog sigs h).bind fun sig => scalarHelpers prog ((h.decl.name, sig) :: sigs) rest

end Gobee
