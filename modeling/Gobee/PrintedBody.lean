/-
# What of a function body is printed

The statements print their expressions under the alias table of the moment.  This module
lists the printed expressions of a body in order and says what is collected from the
trees of the emitted body, whatever the collector is.

* `accounts_block` : **what is collected from the trees of a block is what its printed
  expressions contribute**, each under an alias table that the emitter really had.
* `functionTrees` : the trees of all emitted functions.
-/
import Gobee.Printed
import Gobee.EmitProgram
import Gobee.StmtTree

namespace Gobee

open CSyntax

/-! ## The trees of a statement -/

/-- The expressions of a line. -/
def CLine.trees : CLine → List CTree
  | .decl _ _ _ init => init.toList
  | .assign lhs _ rhs => [lhs, rhs]
  | .step x _ => [x]
  | .expr x => [x]
  | .ret x => x.toList

mutual
/-- The expressions of an emitted statement. -/
def CStmt.trees : CStmt → List CTree
  | .simple _ lines => lines.flatMap CLine.trees
  | .block _ body => blockTrees body
  | .ite _ _ cond body els => cond :: (blockTrees body ++ els.trees)
  | .loop _ _ init _ cond _ post body => init.trees ++ cond :: (post.trees ++ blockTrees body)

/-- The expressions of an else part. -/
def CElse.trees : CElse → List CTree
  | .none => []
  | .elseIf _ _ cond body => cond :: blockTrees body
  | .block _ body => blockTrees body

/-- The expressions of a list of statements. -/
def blockTrees : List CStmt → List CTree
  | [] => []
  | c :: rest => c.trees ++ blockTrees rest
end

/-! ## The printed nodes of a statement -/

/-- A printed node: an expression, or the reservation of a record in a ring buffer, which
has no form as an expression. -/
inductive PNode where
  | expr (e : Expr)
  | reserve (buf : Ident) (valC : Text)

/-- The reservation of a record. -/
def reserveTree (buf : Ident) (valC : Text) : CTree :=
  .call (name "bpf_ringbuf_reserve") [addrOf buf, name ("sizeof(" ++ valC ++ ")"), name ['0']]

/-- The nodes printed for an expression. -/
def exprNodes (prog : Program) (e : Expr) : List PNode := (printed prog e).map .expr

/-- The nodes printed for some expressions. -/
def exprsNodes (prog : Program) (es : List Expr) : List PNode := es.flatMap (exprNodes prog)

/-- The nodes printed for the right side of a comma-ok statement. -/
def commaOkNodes (prog : Program) (rhs : Expr) : List PNode :=
  match rhs with
  | .call fn args =>
      match mapLookupCall prog fn, ringbufReserveCall prog fn with
      | none, some (buf, valType) => [.reserve buf ((goTypeToC valType).toOption.getD [])]
      | _, _ => exprNodes prog (.call fn args)
  | _ => []

/-- The nodes printed for an assignment. -/
def assignNodes (prog : Program) (lhs : List Expr) (tok : AssignTok) (rhs : List Expr) :
    List PNode :=
  match lhs, rhs with
  | [_, _], [r] => commaOkNodes prog r
  -- a definition prints the name it declares
  | [l], [r] => if tok = .define then exprNodes prog r else exprNodes prog l ++ exprNodes prog r
  | _, _ => []

/-- The nodes printed for a clause of a `for`. -/
def clauseNodes (prog : Program) : Stmt → List PNode
  | .assign [l] tok [r] =>
      if tok = .define then exprNodes prog r else exprNodes prog l ++ exprNodes prog r
  | .incDec x _ => exprNodes prog x
  | _ => []

/-- The nodes printed for an optional clause of a `for`. -/
def clauseNodes? (prog : Program) : Option Stmt → List PNode
  | some s => clauseNodes prog s
  | none => []

/-- The nodes printed for a specification: one value for each name. -/
def specNodes (prog : Program) (spec : ValueSpec) : List PNode :=
  exprsNodes prog (spec.values.take spec.names.length)

mutual
/-- The nodes printed for a statement. -/
def stmtNodes (prog : Program) : Stmt → List PNode
  | .decl _ _ specs => specs.flatMap (specNodes prog)
  | .assign lhs tok rhs => assignNodes prog lhs tok rhs
  | .ifs _ _ cond body els =>
      exprNodes prog cond ++ (blockNodes prog body ++ elseNodes prog els)
  | .ret _ results => exprsNodes prog results
  | .expr x => exprNodes prog x
  | .fors _ init cond post body =>
      clauseNodes? prog init ++ (exprsNodes prog cond.toList ++
        (clauseNodes? prog post ++ blockNodes prog body))
  | .block _ list => blockNodes prog list
  | .incDec x _ => exprNodes prog x
  | .other _ _ _ => []

/-- The nodes printed for a list of statements. -/
def blockNodes (prog : Program) : List Stmt → List PNode
  | [] => []
  | s :: rest => stmtNodes prog s ++ blockNodes prog rest

/-- The nodes printed for an else clause. -/
def elseNodes (prog : Program) : Option Stmt → List PNode
  | some (.ifs _ _ cond body _) => exprNodes prog cond ++ blockNodes prog body
  | some (.block _ list) => blockNodes prog list
  | _ => []
end

/-! ## Accounting -/

section

variable {β : Type} (prog : Program) (g : CTree → List β) (h : Text → Option Ident → List β)

/-- What a printed node contributes. -/
def PNode.own (aliases : Aliases) : PNode → List β
  | .expr e => Gobee.own prog aliases g h e
  | .reserve buf valC => g (reserveTree buf valC) ++ h buf.name (some buf)

/-- A printed call has a tree. -/
def PNode.Ok (aliases : Aliases) : PNode → Prop
  | .expr e => CallOk prog aliases e
  | .reserve _ _ => True

/-- What is collected from the trees is what the nodes contribute, each under some alias
table with the property `I`, under which it has a tree. -/
def Accounts (I : Aliases → Prop) (trees : List CTree) (nodes : List PNode) : Prop :=
  ∃ occs : List (Aliases × PNode), occs.map Prod.snd = nodes ∧
    (∀ o ∈ occs, I o.1 ∧ o.2.Ok prog o.1) ∧
    ∀ b, (∃ t ∈ trees, b ∈ t.collect g h) ↔ ∃ o ∈ occs, b ∈ o.2.own prog g h o.1

end

section

variable {β : Type} {prog : Program} {g : CTree → List β} {h : Text → Option Ident → List β}
  {I : Aliases → Prop} {S : Stmt → Prop}

theorem Accounts.nil : Accounts prog g h I [] [] := ⟨[], rfl, by simp, by simp⟩

theorem Accounts.append {ts us : List CTree} {ms ns : List PNode}
    (ht : Accounts prog g h I ts ms) (hu : Accounts prog g h I us ns) :
    Accounts prog g h I (ts ++ us) (ms ++ ns) := by
  obtain ⟨os, hms, hI, hos⟩ := ht
  obtain ⟨ps, hns, hI', hps⟩ := hu
  refine ⟨os ++ ps, by rw [List.map_append, hms, hns], ?_, fun b => ?_⟩
  · intro o ho
    rcases List.mem_append.mp ho with ho | ho
    · exact hI o ho
    · exact hI' o ho
  · simp only [List.mem_append, or_and_right, exists_or]
    rw [hos b, hps b]

theorem exprTree_of_treeOf {n : Names} {e : Expr} {t : CTree} (ht : treeOf prog n e = some t) :
    exprTree prog n.aliases e = .ok t := by
  unfold treeOf at ht
  cases he : exprTree prog n.aliases e with
  | error f => rw [he] at ht; cases ht
  | ok c => rw [he] at ht; cases ht; rfl

theorem accounts_of_collects {aliases : Aliases} {e : Expr} {t : CTree} (hI : I aliases)
    (hok : ∀ e' ∈ printed prog e, CallOk prog aliases e')
    (ht : Collects prog aliases g h t (printed prog e)) :
    Accounts prog g h I [t] (exprNodes prog e) := by
  refine ⟨(printed prog e).map fun e' => (aliases, .expr e'), ?_, ?_, fun b => ?_⟩
  · simp [exprNodes, Function.comp_def]
  · intro o ho
    obtain ⟨e', he', rfl⟩ := List.mem_map.mp ho
    exact ⟨hI, hok e' he'⟩
  · simpa [PNode.own] using ht b

theorem accounts_expr {n : Names} {e : Expr} {t : CTree} (hword : ∀ w, h w none = [])
    (hI : I n.aliases) (ht : treeOf prog n e = some t) :
    Accounts prog g h I [t] (exprNodes prog e) :=
  accounts_of_collects hI (printed_ok e (exprTree_of_treeOf ht))
    (mem_collect_iff hword e (exprTree_of_treeOf ht))

theorem mapLookupCall_form {fn : Expr} {buf : Ident} {valType : GoType}
    (hlookup : mapLookupCall prog fn = some (buf, valType)) :
    callForm prog fn 1 = .helper "bpf_map_lookup_elem" [.addr buf, .arg 0] := by
  unfold mapLookupCall at hlookup
  split at hlookup
  · rename_i m valType' helper hcall
    split_ifs at hlookup with hsel
    cases hlookup
    rw [mapMethodCall_form 1 hcall]
    obtain ⟨-, hhelper, -⟩ := mapMethodCall_some hcall
    rw [hsel] at hhelper
    cases hhelper
    rfl
  · cases hlookup

theorem storageGetCall_form {fn : Expr} {buf : Ident} {valType : GoType} {getFn : Text}
    (hget : storageGetCall prog fn = some (buf, valType, getFn)) :
    callForm prog fn 1 =
      .helper getFn [.addr buf, .arg 0, .word "NULL", .word ['0']] := by
  unfold storageGetCall at hget
  split at hget
  · rename_i m valType' getFn' deleteFn hinfo
    split_ifs at hget with hsel
    cases hget
    refine storageMapInfo_form 1 hinfo ?_
    unfold storageForm
    rw [if_neg (by rw [hsel]; decide), if_neg (by rw [hsel]; decide), if_pos hsel]
  · cases hget

theorem accounts_exprs {n : Names} {es : List Expr} {ts : List CTree} (hword : ∀ w, h w none = [])
    (hI : I n.aliases) (hts : es.map (treeOf prog n) = ts.map some) :
    Accounts prog g h I ts (exprsNodes prog es) := by
  induction es generalizing ts with
  | nil =>
      cases ts with
      | nil => exact Accounts.nil
      | cons t rest => cases hts
  | cons e rest ih =>
      cases ts with
      | nil => cases hts
      | cons t ts =>
          rw [List.map_cons, List.map_cons, List.cons.injEq] at hts
          exact (accounts_expr hword hI hts.1).append (ih hts.2)

theorem accounts_spec {n : Names} (hword : ∀ w, h w none = []) (hI : I n.aliases) :
    ∀ {ids : List Ident} {values : List Expr} {ls : List CLine},
      specLines prog n ids values = some ls →
        Accounts prog g h I (ls.flatMap CLine.trees) (exprsNodes prog (values.take ids.length))
  | [], values, ls, hls => by
      cases hls
      rw [List.length_nil, List.take_zero]
      exact Accounts.nil
  | id :: ids, values, ls, hls => by
      obtain ⟨cType, -, hls⟩ := Option.bind_eq_some_iff.mp hls
      obtain ⟨init, hinit, hls⟩ := Option.bind_eq_some_iff.mp hls
      obtain ⟨rest, hrest, hls⟩ := Option.bind_eq_some_iff.mp hls
      cases hls
      have hih := accounts_spec hword hI hrest
      cases values with
      | nil =>
          cases hinit
          rw [List.take_nil]
          rw [List.tail_nil, List.take_nil] at hih
          exact hih
      | cons value values =>
          obtain ⟨t, ht, rfl⟩ := Option.map_eq_some_iff.mp hinit
          rw [List.length_cons, List.take_succ_cons]
          exact (accounts_expr hword hI ht).append hih

theorem accounts_specs {n : Names} (hword : ∀ w, h w none = []) (hI : I n.aliases)
    {specs : List ValueSpec} : ∀ {ls : List CLine}, specsLines prog n specs = some ls →
      Accounts prog g h I (ls.flatMap CLine.trees) (specs.flatMap (specNodes prog)) := by
  induction specs with
  | nil =>
      intro ls hls
      cases hls
      exact Accounts.nil
  | cons spec rest ih =>
      intro ls hls
      obtain ⟨ls₁, hls₁, hls⟩ := Option.bind_eq_some_iff.mp hls
      obtain ⟨ls₂, hls₂, hls⟩ := Option.bind_eq_some_iff.mp hls
      cases hls
      rw [List.flatMap_append, List.flatMap_cons]
      exact (accounts_spec hword hI hls₁).append (ih hls₂)

/-- A comma-ok call reserves a record, or is printed as the expression it is. -/
theorem commaOkCall_cases {n : Names} {fn : Expr} {args : List Expr} {c : CommaOkCall}
    (hc : commaOkCall prog n fn args = some c) :
    (∃ buf valType, mapLookupCall prog fn = none ∧
      ringbufReserveCall prog fn = some (buf, valType) ∧
      c.call = reserveTree buf ((goTypeToC valType).toOption.getD [])) ∨
    ((mapLookupCall prog fn = none → ringbufReserveCall prog fn = none) ∧
      (callForm prog fn args.length).Prints (exprTree prog n.aliases fn)
        (nodeTrees prog n.aliases args) c.call) := by
  have hsole : ∀ {a t : CTree}, soleTree prog n args = some a →
      (callForm prog fn 1).Prints (exprTree prog n.aliases fn) [.ok a] t →
      (callForm prog fn args.length).Prints (exprTree prog n.aliases fn)
        (nodeTrees prog n.aliases args) t := by
    intro a t ha hprints
    unfold soleTree at ha
    split at ha
    · rename_i arg
      have htrees : nodeTrees prog n.aliases [arg] = [.ok a] := by
        rw [nodeTrees, nodeTrees]
        exact congrArg (· :: []) (exprTree_of_treeOf ha)
      rwa [← htrees] at hprints
    · cases ha
  unfold commaOkCall at hc
  split at hc
  · rename_i buf valType hlookup
    obtain ⟨valC, -, hc⟩ := Option.bind_eq_some_iff.mp hc
    obtain ⟨key, hkey, hc⟩ := Option.bind_eq_some_iff.mp hc
    cases hc
    refine .inr ⟨fun hnone => absurd (hlookup.symm.trans hnone) (by simp), hsole hkey ?_⟩
    rw [mapLookupCall_form hlookup]
    exact ⟨_, rfl, rfl⟩
  · rename_i hlookup
    split at hc
    · rename_i buf valType hreserve
      obtain ⟨valC, hvalC, hc⟩ := Option.bind_eq_some_iff.mp hc
      cases hc
      refine .inl ⟨buf, valType, hlookup, hreserve, ?_⟩
      rw [hvalC]
      rfl
    · rename_i hreserve
      split at hc
      · rename_i buf valType getFn hget
        obtain ⟨valC, -, hc⟩ := Option.bind_eq_some_iff.mp hc
        obtain ⟨obj, hobj, hc⟩ := Option.bind_eq_some_iff.mp hc
        cases hc
        refine .inr ⟨fun _ => hreserve, hsole hobj ?_⟩
        rw [storageGetCall_form hget]
        exact ⟨_, rfl, rfl⟩
      · cases hc

theorem commaOkNodes_call {fn : Expr} {args : List Expr}
    (h : mapLookupCall prog fn = none → ringbufReserveCall prog fn = none) :
    commaOkNodes prog (.call fn args) = exprNodes prog (.call fn args) := by
  rw [commaOkNodes]
  split
  · rename_i hlookup hreserve
    rw [h hlookup] at hreserve
    cases hreserve
  · rfl

/-- The call of a comma-ok statement is printed as the expression it is, unless it
reserves a record. -/
theorem accounts_commaOkCall {n : Names} {fn : Expr} {args : List Expr} {c : CommaOkCall}
    (hword : ∀ w, h w none = []) (hI : I n.aliases) (hc : commaOkCall prog n fn args = some c) :
    Accounts prog g h I [c.call] (commaOkNodes prog (.call fn args)) := by
  rcases commaOkCall_cases hc with ⟨buf, valType, hlookup, hreserve, hcall⟩ | ⟨hplain, hprints⟩
  · rw [commaOkNodes, hlookup, hreserve, hcall]
    refine ⟨[(n.aliases, .reserve buf _)], rfl, by simpa [PNode.Ok] using hI, fun b => ?_⟩
    simp [PNode.own, reserveTree, addrOf, CExpr.collect, CExpr.collectArgs, collect_name hword]
  · rw [commaOkNodes_call hplain]
    refine accounts_of_collects hI ?_ (collects_call hword
      (fun f hf => mem_collect_iff hword fn hf) (collects_each hword args) hprints)
    refine List.forall_mem_cons.mpr ⟨?_, ?_⟩
    · intro fn' args' heq
      cases heq
      exact ⟨c.call, hprints.tree⟩
    · exact callOk_printedParts (fun f hf => printed_ok fn hf) (printedEach_ok args) hprints

/-- The property of alias tables survives the comma-ok statements with the property `S`. -/
def Survives (prog : Program) (S : Stmt → Prop) (I : Aliases → Prop) : Prop :=
  ∀ v okId r n cName, S (.assign [v, .ident okId] .define [r]) → I n.aliases →
    I (aliased prog n okId cName).aliases

theorem accounts_singleAssign {n : Names} {l r : Expr} {tok : AssignTok} {line : CLine}
    (hword : ∀ w, h w none = []) (hI : I n.aliases)
    (hline : singleAssignLine prog n l tok r = some line) :
    Accounts prog g h I line.trees (assignNodes prog [l] tok [r]) := by
  obtain ⟨lhs, hlhs, hline⟩ := Option.bind_eq_some_iff.mp hline
  obtain ⟨rhs, hrhs, hline⟩ := Option.bind_eq_some_iff.mp hline
  rw [assignNodes]
  by_cases htok : tok = .define
  · subst htok
    obtain ⟨id, -, hline⟩ := Option.bind_eq_some_iff.mp hline
    obtain ⟨cType, -, hline⟩ := Option.bind_eq_some_iff.mp hline
    cases hline
    exact accounts_expr hword hI hrhs
  · rw [if_neg htok]
    split at hline
    · exact absurd rfl htok
    · obtain ⟨op, -, hline⟩ := Option.bind_eq_some_iff.mp hline
      cases hline
      exact (accounts_expr hword hI hlhs).append (accounts_expr hword hI hrhs)

theorem accounts_assign {n n' : Names} {lhs rhs : List Expr} {tok : AssignTok} {line : CLine}
    (hword : ∀ w, h w none = []) (hsurvives : Survives prog S I)
    (hS : S (.assign lhs tok rhs)) (hI : I n.aliases)
    (hline : assignLine prog n lhs tok rhs = some (line, n')) :
    Accounts prog g h I line.trees (assignNodes prog lhs tok rhs) ∧ I n'.aliases := by
  unfold assignLine at hline
  split at hline
  · rename_i v ok r
    split_ifs at hline with htok
    subst htok
    unfold commaOkLine at hline
    split at hline
    · rename_i fn args
      obtain ⟨c, hc, hline⟩ := Option.bind_eq_some_iff.mp hline
      obtain ⟨vId, -, hline⟩ := Option.bind_eq_some_iff.mp hline
      obtain ⟨okId, hok, hline⟩ := Option.bind_eq_some_iff.mp hline
      cases hline
      refine ⟨accounts_commaOkCall hword hI hc, ?_⟩
      have hokId : ok = .ident okId := by
        unfold identOf at hok
        split at hok
        · cases hok
          rfl
        · cases hok
      rw [hokId] at hS
      refine hsurvives _ _ _ _ _ hS ?_
      unfold lhsName
      split <;> exact hI
    · cases hline
  · obtain ⟨line', hline', heq⟩ := Option.map_eq_some_iff.mp hline
    cases heq
    exact ⟨accounts_singleAssign hword hI hline', hI⟩
  · cases hline

theorem accounts_clause {n : Names} {s : Stmt} {line : CLine} (hword : ∀ w, h w none = [])
    (hI : I n.aliases) (hline : forClause prog n s = some line) :
    Accounts prog g h I line.trees (clauseNodes prog s) := by
  unfold forClause at hline
  split at hline
  · rename_i l tok r
    obtain ⟨rhs, hrhs, hline⟩ := Option.bind_eq_some_iff.mp hline
    rw [clauseNodes]
    split_ifs at hline with htok
    · rw [if_pos htok]
      obtain ⟨id, -, hline⟩ := Option.bind_eq_some_iff.mp hline
      obtain ⟨cType, -, hline⟩ := Option.bind_eq_some_iff.mp hline
      cases hline
      exact accounts_expr hword hI hrhs
    · rw [if_neg htok]
      obtain ⟨lhs, hlhs, hline⟩ := Option.bind_eq_some_iff.mp hline
      cases hline
      exact (accounts_expr hword hI hlhs).append (accounts_expr hword hI hrhs)
  · obtain ⟨t, ht, heq⟩ := Option.map_eq_some_iff.mp hline
    cases heq
    exact accounts_expr hword hI ht
  · cases hline

theorem accounts_ret {n : Names} {results : List Expr} {line : CLine} (hword : ∀ w, h w none = [])
    (hI : I n.aliases) (hline : returnLine prog n results = some line) :
    Accounts prog g h I line.trees (exprsNodes prog results) := by
  unfold returnLine at hline
  split at hline
  · cases hline
    exact Accounts.nil
  · obtain ⟨t, ht, heq⟩ := Option.map_eq_some_iff.mp hline
    cases heq
    exact @accounts_exprs _ _ _ _ _ _ _ [t] hword hI (by simp [ht])
  · cases hline

mutual
/-- What is collected from a statement, and that the alias table keeps its property. -/
theorem accounts_stmt (hword : ∀ w, h w none = []) (hsurvives : Survives prog S I) :
    ∀ {s : Stmt} {n n' : Names} {c : CStmt}, (∀ s', .stmt s' ∈ inspectStmt s → S s') →
      I n.aliases → stmtTree prog s n = some (c, n') →
      Accounts prog g h I c.trees (stmtNodes prog s) ∧ I n'.aliases
  | .decl pos tok specs, n, n', c, hS, hI, hc => by
      rw [stmtTree] at hc
      split_ifs at hc
      obtain ⟨ls, hls, heq⟩ := Option.map_eq_some_iff.mp hc
      cases heq
      rw [CStmt.trees, stmtNodes]
      exact ⟨accounts_specs hword hI hls, hI⟩
  -- only an assignment changes the aliases, so only it must keep `I`
  | .assign lhs tok rhs, n, n', c, hS, hI, hc => by
      rw [stmtTree] at hc
      obtain ⟨⟨line, n₁⟩, hline, heq⟩ := Option.map_eq_some_iff.mp hc
      cases heq
      rw [CStmt.trees, stmtNodes, List.flatMap_singleton]
      exact accounts_assign hword hsurvives (hS _ (by simp [inspectStmt])) hI hline
  | .ifs pos init cond body els, n, n', c, hS, hI, hc => by
      obtain ⟨-, t, b, n₁, e, ht, hb, he, heq⟩ := stmtTree_ifs hc
      cases heq
      rw [CStmt.trees, stmtNodes]
      obtain ⟨hbody, hI₁⟩ := accounts_block hword hsurvives
        (fun s' hs' => hS s' (by simp [inspectStmt, hs'])) hI hb
      obtain ⟨helse, hI₂⟩ := accounts_else hword hsurvives
        (fun s' hs' => hS s' (by simp [inspectStmt, hs'])) hI₁ he
      exact ⟨(accounts_expr hword hI ht).append (hbody.append helse), hI₂⟩
  | .ret pos results, n, n', c, hS, hI, hc => by
      rw [stmtTree] at hc
      obtain ⟨line, hline, heq⟩ := Option.map_eq_some_iff.mp hc
      cases heq
      rw [CStmt.trees, stmtNodes, List.flatMap_singleton]
      exact ⟨accounts_ret hword hI hline, hI⟩
  | .expr x, n, n', c, hS, hI, hc => by
      rw [stmtTree] at hc
      obtain ⟨t, ht, heq⟩ := Option.map_eq_some_iff.mp hc
      cases heq
      rw [CStmt.trees, stmtNodes, List.flatMap_singleton]
      exact ⟨accounts_expr hword hI ht, hI⟩
  | .fors pos init cond post body, n, n', c, hS, hI, hc => by
      obtain ⟨i, co, p, initL, condT, postL, b, rfl, rfl, rfl, hi, hcond, hp, hb, heq⟩ :=
        stmtTree_fors hc
      cases heq
      rw [CStmt.trees, stmtNodes]
      obtain ⟨hbody, hI'⟩ := accounts_block hword hsurvives
        (fun s' hs' => hS s' (by simp [inspectStmt, hs'])) hI hb
      have hexpr := @accounts_exprs _ prog g h I n [co] [condT] hword hI (by simp [hcond])
      exact ⟨(accounts_clause hword hI hi).append
        (hexpr.append ((accounts_clause hword hI hp).append hbody)), hI'⟩
  | .block pos list, n, n', c, hS, hI, hc => by
      obtain ⟨b, hb, heq⟩ := stmtTree_block hc
      cases heq
      rw [CStmt.trees, stmtNodes]
      exact accounts_block hword hsurvives (fun s' hs' => hS s' (by simp [inspectStmt, hs'])) hI hb
  | .incDec x inc, n, n', c, hS, hI, hc => by
      rw [stmtTree] at hc
      obtain ⟨t, ht, heq⟩ := Option.map_eq_some_iff.mp hc
      cases heq
      rw [CStmt.trees, stmtNodes, List.flatMap_singleton]
      exact ⟨accounts_expr hword hI ht, hI⟩
  | .other kind pos children, n, n', c, hS, hI, hc => by cases hc

/-- **What is collected from the trees of a block is what its printed expressions
contribute.** -/
theorem accounts_block (hword : ∀ w, h w none = []) (hsurvives : Survives prog S I) :
    ∀ {list : List Stmt} {n n' : Names} {cs : List CStmt},
      (∀ s', .stmt s' ∈ inspectStmts list → S s') → I n.aliases →
      blockTree prog list n = some (cs, n') →
      Accounts prog g h I (blockTrees cs) (blockNodes prog list) ∧ I n'.aliases
  | [], n, n', cs, hS, hI, hcs => by
      rw [blockTree] at hcs
      cases hcs
      exact ⟨Accounts.nil, hI⟩
  | s :: rest, n, n', cs, hS, hI, hcs => by
      obtain ⟨c, n₁, cs', hc, hrest, heq⟩ := blockTree_cons hcs
      cases heq
      rw [blockTrees, blockNodes]
      obtain ⟨hs, hI₁⟩ := accounts_stmt hword hsurvives
        (fun s' hs' => hS s' (by simp [inspectStmts, hs'])) hI hc
      obtain ⟨hr, hI₂⟩ := accounts_block hword hsurvives
        (fun s' hs' => hS s' (by simp [inspectStmts, hs'])) hI₁ hrest
      exact ⟨hs.append hr, hI₂⟩

theorem accounts_else (hword : ∀ w, h w none = []) (hsurvives : Survives prog S I) :
    ∀ {els : Option Stmt} {n n' : Names} {e : CElse},
      (∀ s', .stmt s' ∈ inspectStmt? els → S s') → I n.aliases →
      elseTree prog els n = some (e, n') →
      Accounts prog g h I e.trees (elseNodes prog els) ∧ I n'.aliases
  | none, n, n', e, hS, hI, he => by
      rw [elseTree] at he
      cases he
      exact ⟨Accounts.nil, hI⟩
  | some (.ifs pos init cond body els), n, n', e, hS, hI, he => by
      obtain ⟨t, b, ht, hb, heq⟩ := elseTree_ifs he
      cases heq
      rw [CElse.trees, elseNodes]
      obtain ⟨hbody, hI'⟩ := accounts_block hword hsurvives
        (fun s' hs' => hS s' (by simp [inspectStmt?, inspectStmt, hs'])) hI hb
      exact ⟨(accounts_expr hword hI ht).append hbody, hI'⟩
  | some (.block pos list), n, n', e, hS, hI, he => by
      obtain ⟨b, hb, heq⟩ := elseTree_block he
      cases heq
      rw [CElse.trees, elseNodes]
      exact accounts_block hword hsurvives
        (fun s' hs' => hS s' (by simp [inspectStmt?, inspectStmt, hs'])) hI hb
  | some (.decl _ _ _), n, n', e, hS, hI, he => by cases he
  | some (.assign _ _ _), n, n', e, hS, hI, he => by cases he
  | some (.ret _ _), n, n', e, hS, hI, he => by cases he
  | some (.expr _), n, n', e, hS, hI, he => by cases he
  | some (.fors _ _ _ _ _), n, n', e, hS, hI, he => by cases he
  | some (.incDec _ _), n, n', e, hS, hI, he => by cases he
  | some (.other _ _ _), n, n', e, hS, hI, he => by cases he
end

end

/-! ## Printed expressions stand in the syntax tree -/

section

variable {prog : Program}

theorem printedParts_mem {α : Type} {form : CallForm} {fn : List α} {args : List (List α)} {a : α}
    (h : a ∈ form.printedParts fn args) : a ∈ fn ∨ ∃ l ∈ args, a ∈ l := by
  unfold CallForm.printedParts at h
  rcases List.mem_append.mp h with h | h
  · left
    split at h
    · exact h
    · cases h
  · obtain ⟨i, -, hi⟩ := List.mem_flatMap.mp h
    cases hargs : args[i]? with
    | none => rw [hargs] at hi; cases hi
    | some l =>
        rw [hargs] at hi
        exact .inr ⟨l, List.mem_of_getElem? hargs, hi⟩

mutual
theorem printed_inspect : ∀ {e e' : Expr}, e' ∈ printed prog e → .expr e' ∈ inspectExpr e
  | .basicLit _ _ _, e', h | .ident _, e', h => by
      rw [List.mem_singleton.mp h]
      exact List.mem_cons_self
  | .selector x sel, e', h => by
      rcases List.mem_cons.mp h with rfl | h
      · exact List.mem_cons_self
      · split_ifs at h
        · cases h
        · have hx := printed_inspect h
          simp [inspectExpr, hx]
  | .unary _ _ x, e', h | .paren _ x, e', h | .star _ x, e', h => by
      rcases List.mem_cons.mp h with rfl | h
      · exact List.mem_cons_self
      · exact List.mem_cons_of_mem _ (printed_inspect h)
  | .binary x _ y, e', h | .index x y, e', h => by
      rcases List.mem_cons.mp h with rfl | h
      · exact List.mem_cons_self
      · refine List.mem_cons_of_mem _ (List.mem_append.mpr ?_)
        exact (List.mem_append.mp h).imp printed_inspect printed_inspect
  | .call fn args, e', h => by
      rcases List.mem_cons.mp h with rfl | h
      · exact List.mem_cons_self
      · refine List.mem_cons_of_mem _ (List.mem_append.mpr ?_)
        exact (printedParts_mem h).imp printed_inspect printedEach_inspect
  | .other _ _ _, e', h => by cases h

theorem printedEach_inspect : ∀ {es : List Expr} {e' : Expr},
    (∃ l ∈ printedEach prog es, e' ∈ l) → .expr e' ∈ inspectExprs es
  | [], e', ⟨l, hl, _⟩ => by cases hl
  | e :: rest, e', ⟨l, hl, h⟩ => by
      rw [inspectExprs, List.mem_append]
      rcases List.mem_cons.mp hl with rfl | hl
      · exact .inl (printed_inspect h)
      · exact .inr (printedEach_inspect ⟨l, hl, h⟩)
end

theorem exprNodes_inspect {e e' : Expr} (h : .expr e' ∈ exprNodes prog e) :
    .expr e' ∈ inspectExpr e := by
  obtain ⟨x, hx, heq⟩ := List.mem_map.mp h
  cases heq
  exact printed_inspect hx

theorem exprsNodes_inspect {es : List Expr} {e' : Expr} (h : .expr e' ∈ exprsNodes prog es) :
    .expr e' ∈ inspectExprs es := by
  induction es with
  | nil => cases h
  | cons e rest ih =>
      rw [exprsNodes, List.flatMap_cons, List.mem_append] at h
      rw [inspectExprs, List.mem_append]
      exact h.imp exprNodes_inspect ih

theorem inspectExprs_take {es : List Expr} {k : Nat} {nd : Node}
    (h : nd ∈ inspectExprs (es.take k)) : nd ∈ inspectExprs es := by
  induction es generalizing k with
  | nil => rwa [List.take_nil] at h
  | cons e rest ih =>
      cases k with
      | zero => cases h
      | succ k =>
          rw [List.take_succ_cons, inspectExprs, List.mem_append] at h
          rw [inspectExprs, List.mem_append]
          exact h.imp_right ih

theorem specs_inspect {specs : List ValueSpec} {e' : Expr}
    (h : .expr e' ∈ specs.flatMap (specNodes prog)) : .expr e' ∈ inspectSpecs specs := by
  induction specs with
  | nil => cases h
  | cons spec rest ih =>
      rw [List.flatMap_cons, List.mem_append] at h
      rw [inspectSpecs, List.mem_append]
      refine h.imp (fun h => ?_) ih
      obtain ⟨names, type, values⟩ := spec
      rw [inspectSpec, List.mem_append]
      exact .inr (inspectExprs_take (exprsNodes_inspect h))

theorem clause_inspect {s : Stmt} {e' : Expr} (h : .expr e' ∈ clauseNodes prog s) :
    .expr e' ∈ inspectStmt s := by
  unfold clauseNodes at h
  split at h
  · rename_i l tok r
    have hr : .expr e' ∈ exprNodes prog r → .expr e' ∈ inspectStmt (.assign [l] tok [r]) := by
      intro h
      simp [inspectStmt, inspectExprs, exprNodes_inspect h]
    split_ifs at h
    · exact hr h
    · rcases List.mem_append.mp h with h | h
      · simp [inspectStmt, inspectExprs, exprNodes_inspect h]
      · exact hr h
  · exact List.mem_cons_of_mem _ (exprNodes_inspect h)
  · cases h

theorem assign_inspect {lhs rhs : List Expr} {tok : AssignTok} {e' : Expr}
    (h : .expr e' ∈ assignNodes prog lhs tok rhs) :
    .expr e' ∈ inspectStmt (.assign lhs tok rhs) := by
  unfold assignNodes at h
  split at h
  · rename_i r
    unfold commaOkNodes at h
    split at h
    · split at h
      · cases List.mem_singleton.mp h
      · simp [inspectStmt, inspectExprs, exprNodes_inspect h]
    · cases h
  · rename_i l r
    exact clause_inspect h
  · cases h

theorem clause?_inspect {s : Option Stmt} {e' : Expr} (h : .expr e' ∈ clauseNodes? prog s) :
    .expr e' ∈ inspectStmt? s := by
  cases s with
  | none => cases h
  | some s => exact clause_inspect h

mutual
/-- A printed expression of a statement is a node of it. -/
theorem stmt_inspect : ∀ {s : Stmt} {e' : Expr}, .expr e' ∈ stmtNodes prog s →
    .expr e' ∈ inspectStmt s
  | .decl _ _ specs, e', h => List.mem_cons_of_mem _ (specs_inspect h)
  | .assign lhs tok rhs, e', h => assign_inspect h
  | .ifs _ init cond body els, e', h => by
      rw [stmtNodes, List.mem_append, List.mem_append] at h
      rcases h with h | h | h
      · simp [inspectStmt, exprNodes_inspect h]
      · simp [inspectStmt, block_inspect h]
      · simp [inspectStmt, else_inspect h]
  | .ret _ results, e', h => List.mem_cons_of_mem _ (exprsNodes_inspect h)
  | .expr x, e', h => List.mem_cons_of_mem _ (exprNodes_inspect h)
  | .fors _ init cond post body, e', h => by
      rw [stmtNodes, List.mem_append, List.mem_append, List.mem_append] at h
      rcases h with h | h | h | h
      · simp [inspectStmt, clause?_inspect h]
      · have hcond : .expr e' ∈ inspectExpr? cond := by
          cases cond with
          | none => cases h
          | some c =>
              have hc := exprsNodes_inspect h
              simpa [inspectExprs, inspectExpr?] using hc
        simp [inspectStmt, hcond]
      · simp [inspectStmt, clause?_inspect h]
      · simp [inspectStmt, block_inspect h]
  | .block _ list, e', h => List.mem_cons_of_mem _ (block_inspect h)
  | .incDec x _, e', h => List.mem_cons_of_mem _ (exprNodes_inspect h)
  | .other _ _ _, e', h => by cases h

theorem block_inspect : ∀ {list : List Stmt} {e' : Expr}, .expr e' ∈ blockNodes prog list →
    .expr e' ∈ inspectStmts list
  | [], e', h => by cases h
  | s :: rest, e', h => by
      rw [blockNodes, List.mem_append] at h
      rw [inspectStmts, List.mem_append]
      exact h.imp stmt_inspect block_inspect

theorem else_inspect : ∀ {els : Option Stmt} {e' : Expr}, .expr e' ∈ elseNodes prog els →
    .expr e' ∈ inspectStmt? els
  | none, e', h => by cases h
  | some (.ifs _ _ cond body _), e', h => by
      rw [elseNodes, List.mem_append] at h
      rcases h with h | h
      · simp [inspectStmt?, inspectStmt, exprNodes_inspect h]
      · simp [inspectStmt?, inspectStmt, block_inspect h]
  | some (.block _ list), e', h => List.mem_cons_of_mem _ (block_inspect h)
  | some (.decl _ _ _), e', h | some (.assign _ _ _), e', h | some (.ret _ _), e', h
  | some (.expr _), e', h | some (.fors _ _ _ _ _), e', h | some (.incDec _ _), e', h
  | some (.other _ _ _), e', h => by cases h
end

end

end Gobee
