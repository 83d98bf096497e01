/-
# The statement tree of a function body

What the statement emitter produces, with its structure kept: a `CStmt` is a C statement
as the emitter writes it, and its `acts` are the actions that write it.  The leaves hold
the operator trees of the expressions and remember the Go statements, conditions and
declared identifiers they come from, so that later modules can talk about the emitted
statements without parsing text.

* `out_writeBlock` : **`writeBlock` performs exactly the actions of the tree**, and
  succeeds exactly when there is a tree.
-/
import Gobee.Emit
import Gobee.ExprTree

namespace Gobee

open CSyntax EmitM
open CSyntax.CExpr (render)

/-! ## Lines and statements -/

/-- A simple C statement or a clause of a `for`; `id` is the Go identifier that a
declaration declares. -/
inductive CLine where
  | decl (cType name : Text) (id : Ident) (init : Option CTree)
  | assign (lhs : CTree) (op : Text) (rhs : CTree)
  | step (x : CTree) (op : Text)
  | expr (x : CTree)
  | ret (x : Option CTree)

namespace CLine

/-- The text of a line, without its semicolon. -/
def text : CLine → Text
  | .decl cType name _ none => declString cType name
  | .decl cType name _ (some init) => declString cType name ++ " = " ++ render init
  | .assign lhs op rhs => render lhs ++ " " ++ op ++ " " ++ render rhs
  | .step x op => render x ++ op
  | .expr x => render x
  | .ret none => "return"
  | .ret (some x) => "return " ++ render x

/-- The actions that write a line. -/
def acts : CLine → List Act
  | .ret none => [.writeIndent, .writeln "return;"]
  | l => [.writeIndent, .writef (l.text ++ ";\n")]

@[simp] theorem text_decl_none (cType name : Text) (id : Ident) :
    (decl cType name id none).text = declString cType name := rfl

@[simp] theorem text_decl_some (cType name : Text) (id : Ident) (init : CTree) :
    (decl cType name id (some init)).text = declString cType name ++ " = " ++ render init := rfl

@[simp] theorem text_assign (lhs : CTree) (op : Text) (rhs : CTree) :
    (assign lhs op rhs).text = render lhs ++ " " ++ op ++ " " ++ render rhs := rfl

@[simp] theorem text_step (x : CTree) (op : Text) : (step x op).text = render x ++ op := rfl

@[simp] theorem text_expr (x : CTree) : (expr x).text = render x := rfl

@[simp] theorem text_ret_some (x : CTree) : (ret (some x)).text = "return " ++ render x := rfl

@[simp] theorem acts_decl (cType name : Text) (id : Ident) (init : Option CTree) :
    (decl cType name id init).acts =
      [.writeIndent, .writef ((decl cType name id init).text ++ ";\n")] := rfl

@[simp] theorem acts_assign (lhs : CTree) (op : Text) (rhs : CTree) :
    (assign lhs op rhs).acts =
      [.writeIndent, .writef ((assign lhs op rhs).text ++ ";\n")] := rfl

@[simp] theorem acts_step (x : CTree) (op : Text) :
    (step x op).acts = [.writeIndent, .writef ((step x op).text ++ ";\n")] := rfl

@[simp] theorem acts_expr (x : CTree) :
    (expr x).acts = [.writeIndent, .writef ((expr x).text ++ ";\n")] := rfl

@[simp] theorem acts_ret_none : (ret none).acts = [.writeIndent, .writeln "return;"] := rfl

@[simp] theorem acts_ret_some (x : CTree) :
    (ret (some x)).acts = [.writeIndent, .writef ((ret (some x)).text ++ ";\n")] := rfl

end CLine

mutual
/-- An emitted statement. -/
inductive CStmt where
  /-- a Go statement written as some lines -/
  | simple (src : Stmt) (lines : List CLine)
  | block (pos : Pos) (body : List CStmt)
  | ite (pos : Pos) (goCond : Expr) (cond : CTree) (body : List CStmt) (els : CElse)
  | loop (pos : Pos) (goInit : Stmt) (init : CLine) (goCond : Expr) (cond : CTree)
      (goPost : Stmt) (post : CLine) (body : List CStmt)

/-- The else part of an emitted `if`. -/
inductive CElse where
  | none
  | elseIf (pos : Pos) (goCond : Expr) (cond : CTree) (body : List CStmt)
  | block (pos : Pos) (body : List CStmt)
end

mutual
/-- The actions that write a statement. -/
def CStmt.acts : CStmt → List Act
  | .simple src lines => .recordPos src.pos :: lines.flatMap CLine.acts
  | .block pos body =>
      .recordPos pos :: .writeIndent :: .writeln "\x7b" :: .indent ::
        (blockActs body ++ [.dedent, .writeIndent, .writeln "\x7d"])
  | .ite pos _ cond body els =>
      .recordPos pos :: .writeIndent :: .writef ("if (" ++ render cond ++ ") \x7b\n") ::
        .indent :: (blockActs body ++ .dedent :: .writeIndent :: els.acts)
  | .loop pos _ init _ cond _ post body =>
      .recordPos pos :: .writeIndent ::
        .writef ("for (" ++ init.text ++ "; " ++ render cond ++ "; " ++ post.text ++ ") \x7b\n") ::
        .indent :: (blockActs body ++ [.dedent, .writeIndent, .writeln "\x7d"])

/-- The actions that write an else part. -/
def CElse.acts : CElse → List Act
  | .none => [.writeln "\x7d"]
  | .elseIf _ _ cond body =>
      .writef "\x7d else " :: .writef ("if (" ++ render cond ++ ") \x7b\n") :: .indent ::
        (blockActs body ++ [.dedent, .writeIndent, .writeln "\x7d"])
  | .block _ body =>
      .writef "\x7d else \x7b\n" :: .indent ::
        (blockActs body ++ [.dedent, .writeIndent, .writeln "\x7d"])

/-- The actions that write a list of statements. -/
def blockActs : List CStmt → List Act
  | [] => []
  | c :: rest => c.acts ++ blockActs rest
end

/-! ## Trees of simple statements -/

/-- The operator tree of an expression under the current aliases. -/
def treeOf (prog : Program) (n : Names) (e : Expr) : Option CTree :=
  (exprTree prog n.aliases e).toOption

/-- The C type of an identifier. -/
def cTypeOf (prog : Program) (id : Ident) : Option Text :=
  (goTypeToC? (typeOfIdent prog id)).toOption

/-- The identifier an expression is. -/
def identOf : Expr → Option Ident
  | .ident id => some id
  | _ => none

theorem identOf_eq_some {e : Expr} {id : Ident} (h : identOf e = some id) : e = .ident id := by
  cases e with
  | ident id' =>
      cases h
      rfl
  | _ => cases h

/-- The name `resolveLHSName` gives an identifier, and the names afterwards. -/
def lhsName (n : Names) (id : Ident) (kind : Text) : Text × Names :=
  if id.name ≠ ['_'] then (id.name, n)
  else ("_" ++ kind ++ itoa (n.tmpSeq + 1), ⟨n.aliases, n.tmpSeq + 1⟩)

/-- The names after an alias is recorded. -/
def aliased (prog : Program) (n : Names) (id : Ident) (cName : Text) : Names :=
  match prog.info.defsAt id with
  | none => n
  | some obj => ⟨(obj.decl, cName) :: n.aliases, n.tmpSeq⟩

/-- The initialiser of the first name that is left. -/
def initOf (prog : Program) (n : Names) : List Expr → Option (Option CTree)
  | value :: _ => (treeOf prog n value).map some
  | [] => some none

/-- The lines of one specification. -/
def specLines (prog : Program) (n : Names) : List Ident → List Expr → Option (List CLine)
  | [], _ => some []
  | id :: ids, values => do
      let cType ← cTypeOf prog id
      let init ← initOf prog n values
      let rest ← specLines prog n ids values.tail
      return .decl cType id.name id init :: rest

/-- The lines of a variable declaration. -/
def specsLines (prog : Program) (n : Names) : List ValueSpec → Option (List CLine)
  | [] => some []
  | spec :: specs => do
      let ls ← specLines prog n spec.names spec.values
      let rest ← specsLines prog n specs
      return ls ++ rest

/-- The tree of the only argument of a call. -/
def soleTree (prog : Program) (n : Names) : List Expr → Option CTree
  | [arg] => treeOf prog n arg
  | _ => none

/-- What a comma-ok call is emitted as: the value type, the hint for a blank name, and
the call. -/
structure CommaOkCall where
  valC : Text
  kind : Text
  call : CTree

/-- The comma-ok calls the emitter knows. -/
def commaOkCall (prog : Program) (n : Names) (fn : Expr) (args : List Expr) :
    Option CommaOkCall :=
  match mapLookupCall prog fn with
  | some (mapName, valType) => do
      let valC ← (goTypeToC valType).toOption
      let key ← soleTree prog n args
      return ⟨valC, "lookup", .call (name "bpf_map_lookup_elem") [addrOf mapName, key]⟩
  | none =>
      match ringbufReserveCall prog fn with
      | some (mapName, valType) => do
          let valC ← (goTypeToC valType).toOption
          return ⟨valC, "reserve", .call (name "bpf_ringbuf_reserve")
            [addrOf mapName, name ("sizeof(" ++ valC ++ ")"), name ['0']]⟩
      | none =>
          match storageGetCall prog fn with
          | some (mapName, valType, helperFn) => do
              let valC ← (goTypeToC valType).toOption
              let obj ← soleTree prog n args
              return ⟨valC, "get", .call (name helperFn)
                [addrOf mapName, obj, name "NULL", name ['0']]⟩
          | none => none

/-- The line of a comma-ok statement: the pointer it declares stands for both results. -/
def commaOkLine (prog : Program) (n : Names) (v ok rhs : Expr) : Option (CLine × Names) :=
  match rhs with
  | .call fn args => do
      let c ← commaOkCall prog n fn args
      let vId ← identOf v
      let okId ← identOf ok
      let val := lhsName n vId c.kind
      return (.decl (c.valC ++ " *") val.1 vId (some c.call), aliased prog val.2 okId val.1)
  | _ => none

/-- The line of a single assignment. -/
def singleAssignLine (prog : Program) (n : Names) (l : Expr) (tok : AssignTok) (r : Expr) :
    Option CLine := do
  let lhs ← treeOf prog n l
  let rhs ← treeOf prog n r
  match tok with
  | .define =>
      let id ← identOf l
      let cType ← cTypeOf prog id
      return .decl cType id.name id (some rhs)
  | _ =>
      let op ← assignText tok
      return .assign lhs op rhs

/-- The line of an assignment. -/
def assignLine (prog : Program) (n : Names) (lhs : List Expr) (tok : AssignTok)
    (rhs : List Expr) : Option (CLine × Names) :=
  match lhs, rhs with
  | [v, ok], [r] => if tok = .define then commaOkLine prog n v ok r else none
  | [l], [r] => (singleAssignLine prog n l tok r).map (·, n)
  | _, _ => none

/-- The line of a return. -/
def returnLine (prog : Program) (n : Names) : List Expr → Option CLine
  | [] => some (.ret none)
  | [x] => (treeOf prog n x).map fun c => .ret (some c)
  | _ => none

/-- A clause of a `for`. -/
def forClause (prog : Program) (n : Names) : Stmt → Option CLine
  | .assign [l] tok [r] => do
      let rhs ← treeOf prog n r
      if tok = .define then
        let id ← identOf l
        let cType ← cTypeOf prog id
        return .decl cType id.name id (some rhs)
      else
        let lhs ← treeOf prog n l
        return .assign lhs tok.string rhs
  | .incDec x inc => (treeOf prog n x).map fun c => .step c (incDecText inc)
  | _ => none

/-! ## Trees of statements -/

mutual
/-- The tree of a statement, and the names after it. -/
def stmtTree (prog : Program) : Stmt → Names → Option (CStmt × Names)
  | .decl pos tok specs, n =>
      if tok = .var then
        (specsLines prog n specs).map fun ls => (.simple (.decl pos tok specs) ls, n)
      else none
  | .assign lhs tok rhs, n =>
      (assignLine prog n lhs tok rhs).map fun l => (.simple (.assign lhs tok rhs) [l.1], l.2)
  | .ifs pos init cond body els, n =>
      if init.isSome then none
      else do
        let c ← treeOf prog n cond
        let (b, n₁) ← blockTree prog body n
        let (e, n₂) ← elseTree prog els n₁
        return (.ite pos cond c b e, n₂)
  | .ret pos results, n =>
      (returnLine prog n results).map fun l => (.simple (.ret pos results) [l], n)
  | .expr x, n => (treeOf prog n x).map fun c => (.simple (.expr x) [.expr c], n)
  | .fors pos init cond post body, n =>
      match init, cond, post with
      | some i, some c, some p => do
          let initL ← forClause prog n i
          let condT ← treeOf prog n c
          let postL ← forClause prog n p
          let (b, n') ← blockTree prog body n
          return (.loop pos i initL c condT p postL b, n')
      | _, _, _ => none
  | .block pos list, n => (blockTree prog list n).map fun r => (.block pos r.1, r.2)
  | .incDec x inc, n =>
      (treeOf prog n x).map fun c => (.simple (.incDec x inc) [.step c (incDecText inc)], n)
  | .other _ _ _, _ => none

/-- The tree of a list of statements. -/
def blockTree (prog : Program) : List Stmt → Names → Option (List CStmt × Names)
  | [], n => some ([], n)
  | s :: rest, n => do
      let (c, n₁) ← stmtTree prog s n
      let (cs, n₂) ← blockTree prog rest n₁
      return (c :: cs, n₂)

/-- The tree of an else clause. -/
def elseTree (prog : Program) : Option Stmt → Names → Option (CElse × Names)
  | none, n => some (.none, n)
  | some (.ifs pos _ cond body _), n => do
      let c ← treeOf prog n cond
      let (b, n') ← blockTree prog body n
      return (.elseIf pos cond c b, n')
  | some (.block pos list), n => (blockTree prog list n).map fun r => (.block pos r.1, r.2)
  | some _, _ => none
end

/-! ## What an emitting computation puts out -/

/-- The result of an emitting computation, its error forgotten. -/
def out {α : Type} (m : EmitM α) (n : Names) : Option (α × Names × List Act) := (m n).toOption

theorem out_eq_some {α : Type} {m : EmitM α} {n : Names} {r : α × Names × List Act} :
    out m n = some r ↔ m n = .ok r := by
  unfold out
  cases m n <;> simp [Except.toOption]

@[simp] theorem out_pure {α : Type} (a : α) (n : Names) :
    out (pure a : EmitM α) n = some (a, n, []) := rfl

theorem out_bind {α β : Type} (m : EmitM α) (f : α → EmitM β) (n : Names) :
    out (m >>= f) n = (out m n).bind fun r =>
      (out (f r.1) r.2.1).map fun q => (q.1, q.2.1, r.2.2 ++ q.2.2) := by
  show out (EmitM.bind m f) n = _
  unfold out EmitM.bind
  cases m n with
  | error e => rfl
  | ok r => cases h : f r.1 r.2.1 <;> simp [Except.toOption, h]

@[simp] theorem out_perform (a : Act) (n : Names) : out (perform a) n = some ((), n, [a]) := rfl

@[simp] theorem out_fail {α : Type} (msg : Text) (n : Names) :
    out (fail msg : EmitM α) n = none := rfl

@[simp] theorem out_lift {α : Type} (r : Result α) (n : Names) :
    out (lift r) n = r.toOption.map fun a => (a, n, []) := by
  cases r <;> rfl

@[simp] theorem out_format (prog : Program) (e : Expr) (n : Names) :
    out (format prog e) n = (treeOf prog n e).map fun c => (render c, n, []) := by
  unfold out format treeOf
  rw [formatExpr_eq]
  cases exprTree prog n.aliases e <;> rfl

@[simp] theorem out_resolveLHSName (id : Ident) (kind : Text) (n : Names) :
    out (resolveLHSName id kind) n =
      some ((lhsName n id kind).1, (lhsName n id kind).2, []) := by
  unfold out resolveLHSName lhsName
  split_ifs <;> rfl

@[simp] theorem out_setAlias (prog : Program) (id : Ident) (cName : Text) (n : Names) :
    out (setAlias prog id cName) n = some ((), aliased prog n id cName, []) := by
  unfold out setAlias aliased
  cases prog.info.defsAt id <;> rfl

@[simp] theorem toOption_wrapError {α : Type} (wrap : Text → Text) (r : Result α) :
    (wrapError wrap r).toOption = r.toOption := by
  cases r with
  | ok a => rfl
  | error e => cases e <;> rfl

theorem toOption_bind {α β : Type} (x : Result α) (f : α → Result β) :
    (x >>= f).toOption = x.toOption.bind fun a => (f a).toOption := by
  cases x <;> rfl

@[simp] theorem toOption_errorf {α : Type} (msg : Text) :
    (errorf msg : Result α).toOption = none := rfl

@[simp] theorem toOption_lhsIdent (msg : Text) (e : Expr) :
    (lhsIdent msg e).toOption = identOf e := by
  cases e <;> rfl

@[simp] theorem out_soleArg (prog : Program) (msg : Text) (args : List Expr) (n : Names) :
    out (soleArg prog msg args) n = (soleTree prog n args).map fun c => (render c, n, []) := by
  rcases args with _ | ⟨a, _ | ⟨b, rest⟩⟩
  · rfl
  · exact out_format prog a n
  · rfl

theorem out_indented (m : EmitM Unit) (n : Names) :
    out (indented m) n =
      (out m n).map fun r => (r.1, r.2.1, .indent :: (r.2.2 ++ [.dedent])) := by
  unfold indented
  rw [out_bind]
  simp only [out_perform, Option.bind_some]
  rw [out_bind]
  cases out m n with
  | none => rfl
  | some r => simp

/-! ## The emitter performs the actions of the tree -/

theorem out_writeSpec (prog : Program) (n : Names) : ∀ (ids : List Ident) (values : List Expr),
    out (writeSpec prog ids values) n =
      (specLines prog n ids values).map fun ls => ((), n, ls.flatMap CLine.acts)
  | [], _ => rfl
  | id :: ids, values => by
      have ih := out_writeSpec prog n ids values.tail
      rw [writeSpec, specLines, out_bind, out_lift, toOption_wrapError, cTypeOf]
      cases (goTypeToC? (typeOfIdent prog id)).toOption with
      | none => rfl
      | some cType =>
          cases values with
          | nil =>
              simp only [Option.map_some, Option.bind_some, out_bind, writeIndent, out_perform,
                writef, ih, initOf]
              cases specLines prog n ids [].tail with
              | none => rfl
              | some ls => rfl
          | cons v vs =>
              simp only [Option.map_some, Option.bind_some, out_bind, writeIndent, out_perform,
                writef, initOf, out_format]
              cases treeOf prog n v with
              | none => rfl
              | some c =>
                  simp only [Option.map_some, Option.bind_some, ih]
                  cases specLines prog n ids (v :: vs).tail with
                  | none => rfl
                  | some ls => rfl

theorem out_writeSpecs (prog : Program) (n : Names) (specs : List ValueSpec) :
    out (writeSpecs prog specs) n =
      (specsLines prog n specs).map fun ls => ((), n, ls.flatMap CLine.acts) := by
  induction specs with
  | nil => rfl
  | cons spec specs ih =>
      rw [writeSpecs, specsLines, out_bind, out_writeSpec]
      cases specLines prog n spec.names spec.values with
      | none => rfl
      | some ls =>
          simp only [Option.map_some, Option.bind_some, ih]
          cases specsLines prog n specs with
          | none => rfl
          | some ls' =>
              simp only [Option.map_some, Option.bind_eq_bind, Option.bind_some, Option.pure_def,
                List.flatMap_append]

theorem declString_star (valC name : Text) :
    declString (valC ++ " *") name = valC ++ " *" ++ name := by
  unfold declString
  rw [if_pos (by simp)]

/-- The common end of the comma-ok emitters: the declaration and the alias. -/
theorem out_commaOkEnd (prog : Program) (n : Names) (vId okId : Ident) (kind valC call : Text) :
    out (do
      let valName ← resolveLHSName vId kind
      writeIndent
      writef (valC ++ " *" ++ valName ++ call)
      setAlias prog okId valName) n =
    some ((), aliased prog (lhsName n vId kind).2 okId (lhsName n vId kind).1,
      [.writeIndent, .writef (valC ++ " *" ++ (lhsName n vId kind).1 ++ call)]) := by
  simp only [out_bind, out_resolveLHSName, Option.bind_some, writeIndent, writef, out_perform,
    out_setAlias, Option.map_some, List.nil_append, List.cons_append, List.append_nil]

/-- The line of a comma-ok statement whose call is `c`, and the names after it. -/
def commaOkOut (prog : Program) (n : Names) (c : CommaOkCall) (vId okId : Ident) :
    Unit × Names × List Act :=
  ((), aliased prog (lhsName n vId c.kind).2 okId (lhsName n vId c.kind).1,
    (CLine.decl (c.valC ++ " *") (lhsName n vId c.kind).1 vId (some c.call)).acts)

theorem commaOkOut_eq (prog : Program) (n : Names) (c : CommaOkCall) (vId okId : Ident)
    (text : Text) (h : text = " = " ++ render c.call ++ ";\n") :
    out (do
      let valName ← resolveLHSName vId c.kind
      writeIndent
      writef (c.valC ++ " *" ++ valName ++ text)
      setAlias prog okId valName) n = some (commaOkOut prog n c vId okId) := by
  rw [out_commaOkEnd, commaOkOut, CLine.acts_decl, CLine.text_decl_some, declString_star]
  simp only [h, List.append_assoc]

theorem out_writeMapLookup (prog : Program) (n : Names) (pos : Pos) (v ok fn : Expr)
    (args : List Expr) (mapName : Ident) (valType : GoType) :
    out (writeMapLookup prog pos v ok fn args mapName valType) n = (do
      let valC ← (goTypeToC valType).toOption
      let vId ← identOf v
      let okId ← identOf ok
      let key ← soleTree prog n args
      return commaOkOut prog n
        ⟨valC, "lookup", .call (name "bpf_map_lookup_elem") [addrOf mapName, key]⟩ vId okId) := by
  unfold writeMapLookup
  rw [out_bind, out_lift]
  cases (goTypeToC valType).toOption with
  | none => rfl
  | some valC =>
      rw [Option.map_some, Option.bind_some, out_bind, out_lift, toOption_lhsIdent]
      cases identOf v with
      | none => rfl
      | some vId =>
          rw [Option.map_some, Option.bind_some, out_bind, out_lift, toOption_lhsIdent]
          cases identOf ok with
          | none => rfl
          | some okId =>
              rw [Option.map_some, Option.bind_some, out_bind, out_soleArg]
              cases soleTree prog n args with
              | none => rfl
              | some key =>
                  have hend := commaOkOut_eq prog n
                    ⟨valC, "lookup", .call (name "bpf_map_lookup_elem") [addrOf mapName, key]⟩
                    vId okId
                    (" = bpf_map_lookup_elem(&" ++ mapName.name ++ ", " ++ render key ++ ");\n")
                    (by simp [render_call])
                  simp only [List.append_assoc, Option.map_some, Option.bind_some] at hend ⊢
                  rw [hend]
                  rfl

theorem out_writeStorageGet (prog : Program) (n : Names) (pos : Pos) (v ok fn : Expr)
    (args : List Expr) (mapName : Ident) (valType : GoType) (helperFn : Text) :
    out (writeStorageGet prog pos v ok fn args mapName valType helperFn) n = (do
      let valC ← (goTypeToC valType).toOption
      let vId ← identOf v
      let okId ← identOf ok
      let obj ← soleTree prog n args
      return commaOkOut prog n
        ⟨valC, "get", .call (name helperFn) [addrOf mapName, obj, name "NULL", name ['0']]⟩
        vId okId) := by
  unfold writeStorageGet
  rw [out_bind, out_lift]
  cases (goTypeToC valType).toOption with
  | none => rfl
  | some valC =>
      rw [Option.map_some, Option.bind_some, out_bind, out_lift, toOption_lhsIdent]
      cases identOf v with
      | none => rfl
      | some vId =>
          rw [Option.map_some, Option.bind_some, out_bind, out_lift, toOption_lhsIdent]
          cases identOf ok with
          | none => rfl
          | some okId =>
              rw [Option.map_some, Option.bind_some, out_bind, out_soleArg]
              cases soleTree prog n args with
              | none => rfl
              | some obj =>
                  have hend := commaOkOut_eq prog n
                    ⟨valC, "get", .call (name helperFn)
                      [addrOf mapName, obj, name "NULL", name ['0']]⟩ vId okId
                    (" = " ++ helperFn ++ "(&" ++ mapName.name ++ ", " ++ render obj ++
                      ", NULL, 0);\n") (by simp [render_call])
                  simp only [List.append_assoc, Option.map_some, Option.bind_some] at hend ⊢
                  rw [hend]
                  rfl

theorem out_writeRingbufReserve (prog : Program) (n : Names) (pos : Pos) (v ok : Expr)
    (mapName : Ident) (valType : GoType) :
    out (writeRingbufReserve prog pos v ok mapName valType) n = (do
      let valC ← (goTypeToC valType).toOption
      let vId ← identOf v
      let okId ← identOf ok
      return commaOkOut prog n
        ⟨valC, "reserve", .call (name "bpf_ringbuf_reserve")
          [addrOf mapName, name ("sizeof(" ++ valC ++ ")"), name ['0']]⟩ vId okId) := by
  unfold writeRingbufReserve
  rw [out_bind, out_lift]
  cases (goTypeToC valType).toOption with
  | none => rfl
  | some valC =>
      rw [Option.map_some, Option.bind_some, out_bind, out_lift, toOption_lhsIdent]
      cases identOf v with
      | none => rfl
      | some vId =>
          rw [Option.map_some, Option.bind_some, out_bind, out_lift, toOption_lhsIdent]
          cases identOf ok with
          | none => rfl
          | some okId =>
              have hend := commaOkOut_eq prog n
                ⟨valC, "reserve", .call (name "bpf_ringbuf_reserve")
                  [addrOf mapName, name ("sizeof(" ++ valC ++ ")"), name ['0']]⟩ vId okId
                (" = bpf_ringbuf_reserve(&" ++ mapName.name ++ ", sizeof(" ++ valC ++ "), 0);\n")
                (by simp [render_call])
              simp only [List.append_assoc, Option.map_some, Option.bind_some] at hend ⊢
              rw [hend]
              rfl

theorem out_writeCommaOk (prog : Program) (n : Names) (pos : Pos) (v ok rhs : Expr) :
    out (writeCommaOk prog pos v ok rhs) n =
      (commaOkLine prog n v ok rhs).map fun l => ((), l.2, l.1.acts) := by
  cases rhs with
  | call fn args =>
      unfold writeCommaOk commaOkLine commaOkCall
      dsimp only
      cases mapLookupCall prog fn with
      | some m =>
          obtain ⟨mapName, valType⟩ := m
          simp only [out_writeMapLookup]
          cases (goTypeToC valType).toOption <;> cases identOf v <;> cases identOf ok <;>
            cases soleTree prog n args <;> rfl
      | none =>
          cases ringbufReserveCall prog fn with
          | some m =>
              obtain ⟨mapName, valType⟩ := m
              simp only [out_writeRingbufReserve]
              cases (goTypeToC valType).toOption <;> cases identOf v <;> cases identOf ok <;> rfl
          | none =>
              cases storageGetCall prog fn with
              | some m =>
                  obtain ⟨mapName, valType, helperFn⟩ := m
                  simp only [out_writeStorageGet]
                  cases (goTypeToC valType).toOption <;> cases identOf v <;> cases identOf ok <;>
                    cases soleTree prog n args <;> rfl
              | none => rfl
  | _ => rfl

theorem out_writeSingleAssign (prog : Program) (n : Names) (pos : Pos) (l : Expr)
    (tok : AssignTok) (r : Expr) :
    out (writeSingleAssign prog pos l tok r) n =
      (singleAssignLine prog n l tok r).map fun c => ((), n, c.acts) := by
  unfold writeSingleAssign singleAssignLine
  rw [out_bind, out_format]
  cases treeOf prog n l with
  | none => rfl
  | some lhs =>
      rw [Option.map_some, Option.bind_some, out_bind, out_format]
      cases treeOf prog n r with
      | none => rfl
      | some rhs =>
          rw [Option.map_some, Option.bind_some, out_bind, writeIndent, out_perform]
          cases tok with
          | define =>
              simp only [Option.bind_some, out_bind, out_lift, toOption_lhsIdent]
              cases identOf l with
              | none => rfl
              | some id =>
                  simp only [Option.map_some, Option.bind_eq_bind, Option.bind_some, cTypeOf]
                  cases (goTypeToC? (typeOfIdent prog id)).toOption with
                  | none => rfl
                  | some cType => rfl
          | _ => rfl

theorem out_writeAssignStmt (prog : Program) (n : Names) (lhs : List Expr) (tok : AssignTok)
    (rhs : List Expr) :
    out (writeAssignStmt prog lhs tok rhs) n =
      (assignLine prog n lhs tok rhs).map fun l => ((), l.2, l.1.acts) := by
  unfold writeAssignStmt assignLine
  rcases lhs with _ | ⟨a, _ | ⟨b, _ | ⟨c, lhs⟩⟩⟩ <;> rcases rhs with _ | ⟨r, _ | ⟨r', rhs⟩⟩ <;>
    try rfl
  · simp only [out_writeSingleAssign, Option.map_map]
    rfl
  · dsimp only
    split_ifs
    · exact out_writeCommaOk prog n _ a b r
    · rfl

theorem out_writeReturnStmt (prog : Program) (n : Names) (pos : Pos) (results : List Expr) :
    out (writeReturnStmt prog pos results) n =
      (returnLine prog n results).map fun l => ((), n, l.acts) := by
  rcases results with _ | ⟨x, _ | ⟨y, rest⟩⟩
  · rfl
  · rw [writeReturnStmt, returnLine, out_bind, out_format]
    cases treeOf prog n x with
    | none => rfl
    | some c => rfl
  · rfl

theorem out_writeExprStmt (prog : Program) (n : Names) (x : Expr) :
    out (writeExprStmt prog x) n =
      (treeOf prog n x).map fun c => ((), n, (CLine.expr c).acts) := by
  rw [writeExprStmt, out_bind, out_format]
  cases treeOf prog n x with
  | none => rfl
  | some c => rfl

theorem out_writeIncDecStmt (prog : Program) (n : Names) (x : Expr) (inc : Bool) :
    out (writeIncDecStmt prog x inc) n =
      (treeOf prog n x).map fun c => ((), n, (CLine.step c (incDecText inc)).acts) := by
  simp only [writeIncDecStmt, out_bind, writeIndent, out_perform, Option.bind_some, out_format]
  cases treeOf prog n x with
  | none => rfl
  | some c => rfl

theorem out_formatForClause (prog : Program) (n : Names) (s : Stmt) :
    out (formatForClause prog s) n = (forClause prog n s).map fun l => (l.text, n, []) := by
  cases s with
  | assign lhs tok rhs =>
      rcases lhs with _ | ⟨l, _ | ⟨l', lhs⟩⟩ <;> rcases rhs with _ | ⟨r, _ | ⟨r', rhs⟩⟩ <;>
        try rfl
      rw [formatForClause, forClause, out_bind, out_format]
      cases treeOf prog n r with
      | none => rfl
      | some rhs =>
          rw [Option.map_some, Option.bind_some, Option.bind_eq_bind, Option.bind_some]
          by_cases htok : tok = .define
          · rw [if_pos htok, if_pos htok]
            cases l with
            | ident id =>
                simp only [out_bind, out_lift, identOf, cTypeOf, Option.bind_eq_bind,
                  Option.bind_some]
                cases (goTypeToC? (typeOfIdent prog id)).toOption with
                | none => rfl
                | some cType => rfl
            | _ => rfl
          · rw [if_neg htok, if_neg htok, out_bind, out_format]
            cases treeOf prog n l with
            | none => rfl
            | some lhs => rfl
  | incDec x inc =>
      rw [formatForClause, forClause, out_bind, out_format]
      cases treeOf prog n x with
      | none => rfl
      | some c => rfl
  | _ => rfl

theorem out_indentedBlock {prog : Program} {body : List Stmt} {n : Names}
    (ih : out (writeBlock prog body) n =
      (blockTree prog body n).map fun r => ((), r.2, blockActs r.1)) :
    out (indented (writeBlock prog body)) n =
      (blockTree prog body n).map fun r => ((), r.2, .indent :: (blockActs r.1 ++ [.dedent])) := by
  rw [out_indented, ih, Option.map_map]
  rfl

mutual
/-- **`writeStmt` performs exactly the actions of the statement tree.** -/
theorem out_writeStmt (prog : Program) : ∀ (s : Stmt) (n : Names),
    out (writeStmt prog s) n = (stmtTree prog s n).map fun r => ((), r.2, r.1.acts)
  | .decl pos tok specs, n => by
      rw [writeStmt, stmtTree, out_bind, recordPos, out_perform, Option.bind_some, writeDeclStmt]
      split_ifs with htok
      · rw [out_writeSpecs]
        cases specsLines prog n specs with
        | none => rfl
        | some ls => rfl
      · rfl
  | .assign lhs tok rhs, n => by
      rw [writeStmt, stmtTree, out_bind, recordPos, out_perform, Option.bind_some,
        out_writeAssignStmt]
      cases assignLine prog n lhs tok rhs with
      | none => rfl
      | some l => simp [CStmt.acts]
  | .ifs pos init cond body els, n => by
      rw [writeStmt, stmtTree, out_bind, recordPos, out_perform, Option.bind_some, writeIfStmt]
      have hbody := out_indentedBlock (out_writeBlock prog body n)
      split_ifs with hinit
      · rfl
      · simp only [out_bind, out_format]
        cases treeOf prog n cond with
        | none => rfl
        | some c =>
            simp only [Option.map_some, Option.bind_some, writeIndent, writef, out_perform, hbody,
              Option.bind_eq_bind]
            cases blockTree prog body n with
            | none => rfl
            | some r =>
                simp only [Option.map_some, Option.bind_some, out_writeElse prog pos els r.2]
                cases elseTree prog els r.2 with
                | none => rfl
                | some q => simp [CStmt.acts]
  | .ret pos results, n => by
      rw [writeStmt, stmtTree, out_bind, recordPos, out_perform, Option.bind_some,
        out_writeReturnStmt]
      cases returnLine prog n results with
      | none => rfl
      | some l => simp [CStmt.acts, Stmt.pos]
  | .expr x, n => by
      rw [writeStmt, stmtTree, out_bind, recordPos, out_perform, Option.bind_some,
        out_writeExprStmt]
      cases treeOf prog n x with
      | none => rfl
      | some c => rfl
  | .fors pos init cond post body, n => by
      have hbody := out_indentedBlock (out_writeBlock prog body n)
      rcases init with _ | i
      · rfl
      · rcases cond with _ | c
        · rfl
        · rcases post with _ | p
          · rfl
          · rw [writeStmt, stmtTree, out_bind, recordPos, out_perform, Option.bind_some]
            simp only [writeForStmt, out_bind, out_formatForClause]
            cases forClause prog n i with
            | none => rfl
            | some initL =>
                simp only [Option.map_some, Option.bind_some, out_format, Option.bind_eq_bind]
                cases treeOf prog n c with
                | none => rfl
                | some condT =>
                    simp only [Option.map_some, Option.bind_some]
                    cases forClause prog n p with
                    | none => rfl
                    | some postL =>
                        simp only [Option.map_some, Option.bind_some, writeIndent, writef,
                          writeln, out_perform, hbody]
                        cases blockTree prog body n with
                        | none => rfl
                        | some r => simp [CStmt.acts]
  | .block pos list, n => by
      rw [writeStmt, stmtTree, out_bind, recordPos, out_perform, Option.bind_some]
      have hbody := out_indentedBlock (out_writeBlock prog list n)
      simp only [writeBlockStmt, out_bind, writeIndent, writeln, out_perform, Option.bind_some,
        hbody]
      cases blockTree prog list n with
      | none => rfl
      | some r => 
        simp [CStmt.acts]
  | .incDec x inc, n => by
      rw [writeStmt, stmtTree, out_bind, recordPos, out_perform, Option.bind_some,
        out_writeIncDecStmt]
      cases treeOf prog n x with
      | none => rfl
      | some c => rfl
  | .other kind pos children, n => rfl

/-- **`writeBlock` performs exactly the actions of the tree.** -/
theorem out_writeBlock (prog : Program) : ∀ (list : List Stmt) (n : Names),
    out (writeBlock prog list) n = (blockTree prog list n).map fun r => ((), r.2, blockActs r.1)
  | [], n => rfl
  | s :: rest, n => by
      rw [writeBlock, blockTree, out_bind, out_writeStmt prog s n]
      cases stmtTree prog s n with
      | none => rfl
      | some r =>
          simp only [Option.map_some, Option.bind_some, out_writeBlock prog rest r.2,
            Option.bind_eq_bind]
          cases blockTree prog rest r.2 with
          | none => rfl
          | some q => rfl

theorem out_writeElse (prog : Program) (pos : Pos) : ∀ (els : Option Stmt) (n : Names),
    out (writeElse prog pos (elseClause prog els)) n =
      (elseTree prog els n).map fun r => ((), r.2, r.1.acts)
  | none, n => rfl
  | some (.ifs _ _ cond body _), n => by
      have hbody := out_indentedBlock (out_writeBlock prog body n)
      simp only [elseClause, elseTree, writeElse, out_bind, writef, out_perform, Option.bind_some,
        out_format, Option.bind_eq_bind]
      cases treeOf prog n cond with
      | none => rfl
      | some c =>
          simp only [Option.map_some, Option.bind_some, hbody]
          cases blockTree prog body n with
          | none => rfl
          | some r => simp [CElse.acts, writeIndent, writeln]
  | some (.block _ list), n => by
      have hbody := out_indentedBlock (out_writeBlock prog list n)
      simp only [elseClause, elseTree, writeElse, out_bind, writef, out_perform, Option.bind_some,
        hbody]
      cases blockTree prog list n with
      | none => rfl
      | some r => simp [CElse.acts, writeIndent, writeln]
  | some (.decl _ _ _), _ => rfl
  | some (.assign _ _ _), _ => rfl
  | some (.ret _ _), _ => rfl
  | some (.expr _), _ => rfl
  | some (.fors _ _ _ _ _), _ => rfl
  | some (.incDec _ _), _ => rfl
  | some (.other _ _ _), _ => rfl
end

/-! ## Inversion -/

theorem stmtTree_ifs {prog : Program} {pos : Pos} {init : Option Stmt} {cond : Expr}
    {body : List Stmt} {els : Option Stmt} {n : Names} {r : CStmt × Names}
    (h : stmtTree prog (.ifs pos init cond body els) n = some r) :
    init = none ∧ ∃ c b n₁ e, treeOf prog n cond = some c ∧ blockTree prog body n = some (b, n₁) ∧
      elseTree prog els n₁ = some (e, r.2) ∧ r.1 = .ite pos cond c b e := by
  rw [stmtTree] at h
  split_ifs at h with hinit
  obtain ⟨c, hc, h⟩ := Option.bind_eq_some_iff.mp h
  obtain ⟨⟨b, n₁⟩, hb, h⟩ := Option.bind_eq_some_iff.mp h
  obtain ⟨⟨e, n₂⟩, he, h⟩ := Option.bind_eq_some_iff.mp h
  cases h
  exact ⟨by simpa using hinit, c, b, n₁, e, hc, hb, he, rfl⟩

theorem stmtTree_fors {prog : Program} {pos : Pos} {init : Option Stmt} {cond : Option Expr}
    {post : Option Stmt} {body : List Stmt} {n : Names} {r : CStmt × Names}
    (h : stmtTree prog (.fors pos init cond post body) n = some r) :
    ∃ i c p initL condT postL b, init = some i ∧ cond = some c ∧ post = some p ∧
      forClause prog n i = some initL ∧ treeOf prog n c = some condT ∧
      forClause prog n p = some postL ∧ blockTree prog body n = some (b, r.2) ∧
      r.1 = .loop pos i initL c condT p postL b := by
  rcases init with _ | i
  · cases h
  · rcases cond with _ | c
    · cases h
    · rcases post with _ | p
      · cases h
      · rw [stmtTree] at h
        obtain ⟨initL, hi, h⟩ := Option.bind_eq_some_iff.mp h
        obtain ⟨condT, hc, h⟩ := Option.bind_eq_some_iff.mp h
        obtain ⟨postL, hp, h⟩ := Option.bind_eq_some_iff.mp h
        obtain ⟨⟨b, n'⟩, hb, h⟩ := Option.bind_eq_some_iff.mp h
        cases h
        exact ⟨i, c, p, initL, condT, postL, b, rfl, rfl, rfl, hi, hc, hp, hb, rfl⟩

theorem stmtTree_block {prog : Program} {pos : Pos} {list : List Stmt} {n : Names}
    {r : CStmt × Names} (h : stmtTree prog (.block pos list) n = some r) :
    ∃ b, blockTree prog list n = some (b, r.2) ∧ r.1 = .block pos b := by
  rw [stmtTree] at h
  obtain ⟨⟨b, n'⟩, hb, h⟩ := Option.map_eq_some_iff.mp h
  cases h
  exact ⟨b, hb, rfl⟩

/-- A statement without statements inside. -/
def isSimple : Stmt → Bool
  | .decl _ _ _ | .assign _ _ _ | .ret _ _ | .expr _ | .incDec _ _ => true
  | _ => false

theorem stmtTree_simple {prog : Program} {s : Stmt} {n : Names} {r : CStmt × Names}
    (hs : isSimple s = true) (h : stmtTree prog s n = some r) :
    ∃ lines, r.1 = .simple s lines := by
  cases s with
  | decl pos tok specs =>
      rw [stmtTree] at h
      split_ifs at h
      obtain ⟨ls, -, h⟩ := Option.map_eq_some_iff.mp h
      exact ⟨ls, by rw [← h]⟩
  | assign lhs tok rhs =>
      obtain ⟨l, -, h⟩ := Option.map_eq_some_iff.mp h
      exact ⟨[l.1], by rw [← h]⟩
  | ret pos results =>
      obtain ⟨l, -, h⟩ := Option.map_eq_some_iff.mp h
      exact ⟨[l], by rw [← h]⟩
  | expr x =>
      obtain ⟨c, -, h⟩ := Option.map_eq_some_iff.mp h
      exact ⟨[.expr c], by rw [← h]⟩
  | incDec x inc =>
      obtain ⟨c, -, h⟩ := Option.map_eq_some_iff.mp h
      exact ⟨[.step c (incDecText inc)], by rw [← h]⟩
  | _ => simp [isSimple] at hs

theorem blockTree_cons {prog : Program} {s : Stmt} {rest : List Stmt} {n : Names}
    {r : List CStmt × Names} (h : blockTree prog (s :: rest) n = some r) :
    ∃ c n₁ cs, stmtTree prog s n = some (c, n₁) ∧ blockTree prog rest n₁ = some (cs, r.2) ∧
      r.1 = c :: cs := by
  rw [blockTree] at h
  obtain ⟨⟨c, n₁⟩, hc, h⟩ := Option.bind_eq_some_iff.mp h
  obtain ⟨⟨cs, n₂⟩, hcs, h⟩ := Option.bind_eq_some_iff.mp h
  cases h
  exact ⟨c, n₁, cs, hc, hcs, rfl⟩

theorem elseTree_ifs {prog : Program} {pos : Pos} {init : Option Stmt} {cond : Expr}
    {body : List Stmt} {els : Option Stmt} {n : Names} {r : CElse × Names}
    (h : elseTree prog (some (.ifs pos init cond body els)) n = some r) :
    ∃ c b, treeOf prog n cond = some c ∧ blockTree prog body n = some (b, r.2) ∧
      r.1 = .elseIf pos cond c b := by
  rw [elseTree] at h
  obtain ⟨c, hc, h⟩ := Option.bind_eq_some_iff.mp h
  obtain ⟨⟨b, n'⟩, hb, h⟩ := Option.bind_eq_some_iff.mp h
  cases h
  exact ⟨c, b, hc, hb, rfl⟩

theorem elseTree_block {prog : Program} {pos : Pos} {list : List Stmt} {n : Names}
    {r : CElse × Names} (h : elseTree prog (some (.block pos list)) n = some r) :
    ∃ b, blockTree prog list n = some (b, r.2) ∧ r.1 = .block pos b := by
  rw [elseTree] at h
  obtain ⟨⟨b, n'⟩, hb, h⟩ := Option.map_eq_some_iff.mp h
  cases h
  exact ⟨b, hb, rfl⟩

/-- A clause of a `for` is an assignment or a step. -/
theorem forClause_simple {prog : Program} {n : Names} {s : Stmt} {l : CLine}
    (h : forClause prog n s = some l) : isSimple s = true ∧ ∀ pos results, s ≠ .ret pos results := by
  cases s with
  | assign lhs tok rhs => exact ⟨rfl, by simp⟩
  | incDec x inc => exact ⟨rfl, by simp⟩
  | _ => simp [forClause] at h

/-- **What a successful `writeBlock` has emitted.** -/
theorem writeBlock_ok_iff {prog : Program} {body : List Stmt} {n n' : Names} {acts : List Act} :
    writeBlock prog body n = .ok ((), n', acts) ↔
      ∃ cs, blockTree prog body n = some (cs, n') ∧ acts = blockActs cs := by
  rw [← out_eq_some, out_writeBlock]
  constructor
  · intro h
    obtain ⟨⟨cs, m⟩, hcs, heq⟩ := Option.map_eq_some_iff.mp h
    cases heq
    exact ⟨cs, hcs, rfl⟩
  · rintro ⟨cs, hcs, rfl⟩
    rw [hcs]
    rfl

end Gobee
