/-
# The subset that the emitter accepts

The validator is a deny-list of syntax nodes and the emitter an allow-list of syntax nodes
and types.  This module states the allow-list by itself, over the Go syntax tree and the
types of the program, and shows that `Emit` succeeds exactly on it:

* `CallRule` : what a recogniser of `formatCall` asks of the arguments of a call;
* `exprSupported`, `stmtSupported`, `supported` : the allow-list;
* `emit_isOk` : `Emit` succeeds exactly on the supported programs;
* `validate_gate_iff` : **so validation is a complete gate exactly for the programs it
  rejects and the supported ones.**
-/
import Gobee.Validate
import Gobee.EmitProgram
import Gobee.StmtTree

namespace Gobee

open CSyntax EmitM

variable {prog : Program}

/-! ## Calls -/

/-- What a recogniser asks of the arguments of a call: their number, the number of leading
ones it does not format, and whether the call is done with it. -/
structure CallRule where
  arity : Option Nat
  skip : Nat
  done : Bool

/-- The arguments, given which of them are supported, satisfy a rule. -/
def CallRule.accepts (r : CallRule) (args : List Bool) : Bool :=
  (r.arity.all fun k => args.length == k) && (args.drop r.skip).all id

/-- The rule for conversions. -/
def conversionRule (fn : Expr) : Option CallRule :=
  if (conversionType fn).isSome then some ⟨some 1, 0, true⟩ else none

/-- The rule for `unsafe.Pointer`. -/
def unsafePointerRule (fn : Expr) : Option CallRule :=
  if isUnsafePointer fn then some ⟨some 1, 0, true⟩ else none

/-- The rule for ring buffers: any method is checked to have one argument. -/
def ringbufRule (prog : Program) (fn : Expr) : Option CallRule :=
  match methodOf prog id fn with
  | none => none
  | some m =>
      if m.type = "RingBuf" then
        some ⟨some 1, 0, m.sel = "Submit" ∨ m.sel = "Discard" ∨ m.sel = "Output"⟩
      else none

/-- The rule for queues and stacks. -/
def queueLikeRule (prog : Program) (fn : Expr) : Option CallRule :=
  match methodOf prog id fn with
  | none => none
  | some m =>
      if m.type = "Queue" ∨ m.type = "Stack" then
        some ⟨some 1, 0, m.sel = "Push" ∨ m.sel = "Pop" ∨ m.sel = "Peek"⟩
      else none

/-- The rule for tail calls. -/
def progArrayRule (prog : Program) (fn : Expr) : Option CallRule :=
  match methodOf prog id fn with
  | none => none
  | some m =>
      if m.sel = "TailCall" ∧ m.type = "ProgArray" then some ⟨some 2, 0, true⟩ else none

/-- The rule for perf event output. -/
def perfEventArrayRule (prog : Program) (fn : Expr) : Option CallRule :=
  match methodOf prog id fn with
  | none => none
  | some m =>
      if m.sel = "Output" ∧ m.type = "PerfEventArray" then some ⟨some 2, 0, true⟩ else none

/-- The rule for storage maps. -/
def storageRule (prog : Program) (fn : Expr) : Option CallRule :=
  match storageMapInfo prog fn with
  | none => none
  | some (m, _, _, _) =>
      if m.sel = "GetOrCreate" then some ⟨some 2, 0, true⟩
      else if m.sel = "Delete" then some ⟨some 1, 0, true⟩
      else if m.sel = "Get" then some ⟨some 1, 0, true⟩
      else none

/-- The rule for redirects, which do not format the context. -/
def redirectRule (prog : Program) (fn : Expr) : Option CallRule :=
  match methodOf prog stripPointer fn with
  | none => none
  | some m =>
      if m.sel = "Redirect" ∧ m.type ∈ redirectMapTypes then some ⟨some 3, 1, true⟩ else none

/-- The rule for map methods. -/
def mapRule (prog : Program) (fn : Expr) : Option CallRule :=
  match mapMethodCall prog fn with
  | none => none
  | some _ => some ⟨none, 0, true⟩

/-- The number of arguments that a sugar function of the `bpf` package asks for. -/
def expansionArity (fn : Text) : Option Nat :=
  if fn = "GetTaskComm" then some 1
  else if fn = "GetUserString" ∨ fn = "GetUserArgv" then some 2
  else none

/-- The rule for `bpf` functions. -/
def bpfRule (prog : Program) (fn : Expr) : Option CallRule :=
  match bpfFunction prog fn with
  | none => none
  | some f => some ⟨expansionArity f, 0, true⟩

/-- Use a rule, or go on. -/
def orRule (r : Option CallRule) (args : List Bool) (next : Bool) : Bool :=
  match r with
  | none => next
  | some r => r.accepts args && (r.done || next)

/-- A call is supported, given which of its callee and its arguments are. -/
def callSupported (prog : Program) (fn : Expr) (fnOk : Bool) (args : List Bool) : Bool :=
  orRule (conversionRule fn) args <|
  orRule (unsafePointerRule fn) args <|
  orRule (ringbufRule prog fn) args <|
  orRule (queueLikeRule prog fn) args <|
  orRule (progArrayRule prog fn) args <|
  orRule (perfEventArrayRule prog fn) args <|
  orRule (storageRule prog fn) args <|
  orRule (redirectRule prog fn) args <|
  orRule (mapRule prog fn) args <|
  orRule (bpfRule prog fn) args <|
  fnOk && args.all id

/-! ## Expressions -/

/-- Whether an expression is supported, and whether the one below its selectors is. -/
structure Checked where
  text : Bool
  base : Bool

/-- An expression that is no selector is its own base. -/
def Checked.plain (b : Bool) : Checked := ⟨b, b⟩

/-- A selector is a constant of the `bpf` package, a chain of declared kernel fields, or a
member of a supported expression. -/
def selectorSupported (prog : Program) (x : Expr) (sel : Ident) (text base : Bool) : Bool :=
  (bpfConstant prog x sel).isSome ||
    match coreReadFields prog (.selector x sel) [] with
    | .error _ => false
    | .ok none => text
    | .ok (some _) => base

mutual
/-- The emitter has a case for the expression and for everything in it that is printed. -/
def nodeSupported (prog : Program) : Expr → Checked
  | .basicLit _ _ _ | .ident _ => .plain true
  | .selector x sel =>
      let c := nodeSupported prog x
      ⟨selectorSupported prog x sel c.text c.base, c.base⟩
  | .unary _ op x => .plain ((nodeSupported prog x).text && (unaryText op).isSome)
  | .binary x _ y => .plain ((nodeSupported prog x).text && (nodeSupported prog y).text)
  | .call fn args =>
      .plain (callSupported prog fn (nodeSupported prog fn).text (nodesSupported prog args))
  | .paren _ x => .plain (nodeSupported prog x).text
  | .index x i => .plain ((nodeSupported prog x).text && (nodeSupported prog i).text)
  | .star _ x => .plain (nodeSupported prog x).text
  | .other _ _ _ => .plain false

/-- Which of a list of expressions are supported. -/
def nodesSupported (prog : Program) : List Expr → List Bool
  | [] => []
  | e :: rest => (nodeSupported prog e).text :: nodesSupported prog rest
end

/-- The expression is supported. -/
def exprSupported (prog : Program) (e : Expr) : Bool := (nodeSupported prog e).text

/-! ## Formatting succeeds on supported expressions -/

/-- What a rule says about the outcome of its recogniser. -/
def RuleFor (r : Option CallRule) (args : List (Result CTree)) (t : Result (Option CTree)) :
    Prop :=
  match r, t with
  | none, t => t = .ok none
  | some r, .error _ => r.accepts (args.map Except.isOk) = false
  | some r, .ok c => r.accepts (args.map Except.isOk) = true ∧ c.isSome = r.done

theorem isOk_orTry {r : Option CallRule} {args : List (Result CTree)}
    {t : Result (Option CTree)} {next : Result CTree} {nextOk : Bool} (h : RuleFor r args t)
    (hn : next.isOk = nextOk) :
    (orTry t next).isOk = orRule r (args.map Except.isOk) nextOk := by
  cases r with
  | none =>
      obtain rfl : t = .ok none := h
      exact hn
  | some r =>
      cases t with
      | error e =>
          have h' : r.accepts (args.map Except.isOk) = false := h
          rw [orRule, h']
          rfl
      | ok c =>
          obtain ⟨ha, hd⟩ : r.accepts (args.map Except.isOk) = true ∧ c.isSome = r.done := h
          rw [orRule, ha, ← hd, Bool.true_and]
          cases c with
          | none => exact hn
          | some c => rfl

theorem isOk_sequence (args : List (Result CTree)) :
    (sequence args).isOk = (args.map Except.isOk).all id := by
  induction args with
  | nil => rfl
  | cons a rest ih =>
      rw [sequence, List.map_cons, List.all_cons, ← ih]
      cases a with
      | error e => rfl
      | ok c => cases sequence rest <;> rfl

/-- A recogniser of a call with one formatted argument. -/
theorem ruleFor_one (args : List (Result CTree)) (f : CTree → Option CTree) (msg : Text)
    {done : Bool} (hf : ∀ x, (f x).isSome = done) :
    RuleFor (some ⟨some 1, 0, done⟩) args
      (match args with
        | [a] => do
            let x ← a
            return f x
        | _ => errorf msg) := by
  rcases args with _ | ⟨a, _ | ⟨b, rest⟩⟩
  · rfl
  · cases a with
    | error e => rfl
    | ok x => exact ⟨rfl, hf x⟩
  · simp [RuleFor, errorf, CallRule.accepts]

theorem conversion_ruleFor (fn : Expr) (args : List (Result CTree)) :
    RuleFor (conversionRule fn) args (conversionTree prog fn args) := by
  unfold conversionRule conversionTree
  cases conversionType fn with
  | none => rfl
  | some cType => exact ruleFor_one args _ _ fun _ => rfl

theorem unsafePointer_ruleFor (fn : Expr) (args : List (Result CTree)) :
    RuleFor (unsafePointerRule fn) args (unsafePointerTree prog fn args) := by
  unfold unsafePointerRule unsafePointerTree
  split_ifs
  · exact ruleFor_one args some _ fun _ => rfl
  · rfl

theorem ringbuf_ruleFor (fn : Expr) (args : List (Result CTree)) :
    RuleFor (ringbufRule prog fn) args (ringbufMethodTree prog fn args) := by
  unfold ringbufRule ringbufMethodTree
  cases methodOf prog id fn with
  | none => rfl
  | some m =>
      dsimp only
      split_ifs with htype h1 h2 h3
      · exact ruleFor_one args _ _ fun x => (decide_eq_true (Or.inl h1)).symm
      · exact ruleFor_one args _ _ fun x => (decide_eq_true (Or.inr (Or.inl h2))).symm
      · exact ruleFor_one args _ _ fun x => (decide_eq_true (Or.inr (Or.inr h3))).symm
      · have hno := not_or.mpr ⟨h1, not_or.mpr ⟨h2, h3⟩⟩
        exact ruleFor_one args _ _ fun x => (decide_eq_false hno).symm
      · rfl

theorem queueLike_ruleFor (fn : Expr) (args : List (Result CTree)) :
    RuleFor (queueLikeRule prog fn) args (queueLikeMethodTree prog fn args) := by
  unfold queueLikeRule queueLikeMethodTree
  cases methodOf prog id fn with
  | none => rfl
  | some m =>
      dsimp only
      split_ifs with htype h1 h2 h3
      · exact ruleFor_one args _ _ fun x => (decide_eq_true (Or.inl h1)).symm
      · exact ruleFor_one args _ _ fun x => (decide_eq_true (Or.inr (Or.inl h2))).symm
      · exact ruleFor_one args _ _ fun x => (decide_eq_true (Or.inr (Or.inr h3))).symm
      · have hno := not_or.mpr ⟨h1, not_or.mpr ⟨h2, h3⟩⟩
        exact ruleFor_one args _ _ fun x => (decide_eq_false hno).symm
      · rfl

/-- A recogniser of a call with two formatted arguments. -/
theorem ruleFor_two (args : List (Result CTree)) (f : CTree → CTree → CTree) (msg : Text) :
    RuleFor (some ⟨some 2, 0, true⟩) args
      (match args with
        | [a, b] => do
            let x ← a
            let y ← b
            return some (f x y)
        | _ => errorf msg) := by
  rcases args with _ | ⟨a, _ | ⟨b, _ | ⟨c, rest⟩⟩⟩
  · rfl
  · simp [RuleFor, errorf, CallRule.accepts]
  · cases a with
    | error e => rfl
    | ok x =>
        cases b with
        | error e => rfl
        | ok y => exact ⟨rfl, rfl⟩
  · simp [RuleFor, errorf, CallRule.accepts]

theorem progArray_ruleFor (fn : Expr) (args : List (Result CTree)) :
    RuleFor (progArrayRule prog fn) args (progArrayMethodTree prog fn args) := by
  unfold progArrayRule progArrayMethodTree
  cases methodOf prog id fn with
  | none => rfl
  | some m =>
      dsimp only
      split_ifs
      · exact ruleFor_two args (fun c k => .call (name "bpf_tail_call") [c, addrOf m.recv, k]) _
      · rfl

theorem perfEventArray_ruleFor (fn : Expr) (args : List (Result CTree)) :
    RuleFor (perfEventArrayRule prog fn) args (perfEventArrayMethodTree prog fn args) := by
  unfold perfEventArrayRule perfEventArrayMethodTree
  cases methodOf prog id fn with
  | none => rfl
  | some m =>
      dsimp only
      split_ifs
      · exact ruleFor_two args _ _
      · rfl

theorem storage_ruleFor (fn : Expr) (args : List (Result CTree)) :
    RuleFor (storageRule prog fn) args (storageMethodTree prog fn args) := by
  unfold storageRule storageMethodTree
  cases storageMapInfo prog fn with
  | none => rfl
  | some info =>
      obtain ⟨m, valType, getFn, deleteFn⟩ := info
      dsimp only
      split_ifs
      · exact ruleFor_two args _ _
      · exact ruleFor_one args _ _ fun _ => rfl
      · exact ruleFor_one args _ _ fun _ => rfl
      · rfl

theorem redirect_ruleFor (fn : Expr) (args : List (Result CTree)) :
    RuleFor (redirectRule prog fn) args (redirectMapTree prog fn args) := by
  unfold redirectRule redirectMapTree
  cases methodOf prog stripPointer fn with
  | none => rfl
  | some m =>
      dsimp only
      split_ifs
      · rcases args with _ | ⟨a, _ | ⟨b, _ | ⟨c, _ | ⟨d, rest⟩⟩⟩⟩
        · rfl
        · rfl
        · rfl
        · cases b with
          | error e => rfl
          | ok k =>
              cases c with
              | error e => rfl
              | ok f => exact ⟨rfl, rfl⟩
        · simp [RuleFor, errorf, CallRule.accepts]
      · rfl

theorem ruleFor_all (args : List (Result CTree)) (f : List CTree → Option CTree)
    (hf : ∀ as, (f as).isSome = true) :
    RuleFor (some ⟨none, 0, true⟩) args (do let as ← sequence args; return f as) := by
  have h : CallRule.accepts ⟨none, 0, true⟩ (args.map Except.isOk) = (sequence args).isOk := by
    rw [isOk_sequence]
    rfl
  cases hs : sequence args with
  | error e => exact h.trans (by rw [hs]; rfl)
  | ok as => exact ⟨h.trans (by rw [hs]; rfl), hf as⟩

theorem map_ruleFor (fn : Expr) (args : List (Result CTree)) :
    RuleFor (mapRule prog fn) args (mapTree prog fn args) := by
  unfold mapRule mapTree
  cases mapMethodCall prog fn with
  | none => rfl
  | some info => exact ruleFor_all args _ fun as => rfl

/-- A sugar function is expanded exactly when it has the arguments it asks for. -/
theorem expansion_arity (f : Text) (as : List CTree) :
    ((expansionTree f as).all Except.isOk) = (expansionArity f).all fun k => as.length == k := by
  unfold expansionTree expansionArity
  by_cases h1 : f = "GetCurrentPid"
  · subst h1; rfl
  by_cases h2 : f = "GetCurrentTid"
  · subst h2; rfl
  by_cases h3 : f = "GetCurrentUid"
  · subst h3; rfl
  by_cases h4 : f = "GetCurrentGid"
  · subst h4; rfl
  rw [if_neg h1, if_neg h2, if_neg h3, if_neg h4]
  by_cases h5 : f = "GetTaskComm"
  · rw [if_pos h5, if_pos h5]
    rcases as with _ | ⟨a, _ | ⟨b, rest⟩⟩
    · rfl
    · rfl
    · simp [errorf, Except.isOk, Except.toBool]
  rw [if_neg h5, if_neg h5]
  by_cases h6 : f = "GetUserString"
  · rw [if_pos h6, if_pos (Or.inl h6)]
    rcases as with _ | ⟨a, _ | ⟨b, _ | ⟨c, rest⟩⟩⟩
    · rfl
    · rfl
    · rfl
    · simp [errorf, Except.isOk, Except.toBool]
  rw [if_neg h6]
  by_cases h7 : f = "GetUserArgv"
  · rw [if_pos h7, if_pos (Or.inr h7)]
    rcases as with _ | ⟨a, _ | ⟨b, _ | ⟨c, rest⟩⟩⟩
    · rfl
    · rfl
    · rfl
    · simp [errorf, Except.isOk, Except.toBool]
  rw [if_neg h7, if_neg (not_or.mpr ⟨h6, h7⟩)]
  rfl

theorem length_sequence {args : List (Result CTree)} {as : List CTree}
    (h : sequence args = .ok as) : as.length = args.length := by
  induction args generalizing as with
  | nil =>
      cases h
      rfl
  | cons a rest ih =>
      rw [sequence] at h
      obtain ⟨c, -, h⟩ := bind_ok h
      obtain ⟨cs, hcs, h⟩ := bind_ok h
      cases h
      rw [List.length_cons, List.length_cons, ih hcs]

theorem bpf_ruleFor (fn : Expr) (args : List (Result CTree)) :
    RuleFor (bpfRule prog fn) args (bpfTree prog fn args) := by
  unfold bpfRule bpfTree
  cases bpfFunction prog fn with
  | none => rfl
  | some f =>
      dsimp only
      have hall := isOk_sequence args
      cases hs : sequence args with
      | error e =>
          rw [hs] at hall
          change CallRule.accepts _ _ = false
          rw [CallRule.accepts, List.drop_zero, ← hall]
          exact Bool.and_false _
      | ok as =>
          rw [hs] at hall
          have harity := expansion_arity f as
          rw [length_sequence hs] at harity
          have haccepts : CallRule.accepts ⟨expansionArity f, 0, true⟩ (args.map Except.isOk) =
              (expansionTree f as).all Except.isOk := by
            rw [CallRule.accepts, List.drop_zero, ← hall, List.length_map, harity]
            exact Bool.and_true _
          simp only [bind, Except.bind]
          cases he : expansionTree f as with
          | none =>
              rw [he] at haccepts
              exact ⟨haccepts, rfl⟩
          | some r =>
              rw [he] at haccepts
              cases r with
              | error e => exact haccepts
              | ok c => exact ⟨haccepts, rfl⟩

theorem isOk_callTree (fn : Expr) (fnTree : Result CTree) (args : List (Result CTree)) :
    (callTree prog fn fnTree args).isOk =
      callSupported prog fn fnTree.isOk (args.map Except.isOk) := by
  unfold callTree callSupported
  refine isOk_orTry (conversion_ruleFor fn args) ?_
  refine isOk_orTry (unsafePointer_ruleFor fn args) ?_
  refine isOk_orTry (ringbuf_ruleFor fn args) ?_
  refine isOk_orTry (queueLike_ruleFor fn args) ?_
  refine isOk_orTry (progArray_ruleFor fn args) ?_
  refine isOk_orTry (perfEventArray_ruleFor fn args) ?_
  refine isOk_orTry (storage_ruleFor fn args) ?_
  refine isOk_orTry (redirect_ruleFor fn args) ?_
  refine isOk_orTry (map_ruleFor fn args) ?_
  refine isOk_orTry (bpf_ruleFor fn args) ?_
  rw [← isOk_sequence]
  unfold userTree
  cases fnTree with
  | error e => rfl
  | ok f => cases sequence args <;> rfl

theorem isOk_selectorTree (x : Expr) (sel : Ident) (tree base : Result CTree) :
    (selectorTree prog x sel tree base).isOk =
      selectorSupported prog x sel tree.isOk base.isOk := by
  unfold selectorTree selectorSupported
  cases bpfConstant prog x sel with
  | some c => rfl
  | none =>
      unfold coreReadTree
      cases coreReadFields prog (.selector x sel) [] with
      | error e => rfl
      | ok fields =>
          cases fields with
          | none => cases tree <;> rfl
          | some fs => cases base <;> rfl

/-- The outcome of formatting agrees with a check. -/
def Agrees (f : Formatted CTree) (c : Checked) : Prop :=
  f.text.isOk = c.text ∧ f.base.isOk = c.base

theorem agrees_plain {r : Result CTree} {b : Bool} (h : r.isOk = b) :
    Agrees (.plain r) (.plain b) := ⟨h, h⟩

theorem isOk_map {r : Result CTree} (f : CTree → CTree) :
    (do let c ← r; return f c : Result CTree).isOk = r.isOk := by
  cases r <;> rfl

theorem isOk_map₂ {r q : Result CTree} (f : CTree → CTree → CTree) :
    (do let c ← r; let d ← q; return f c d : Result CTree).isOk = (r.isOk && q.isOk) := by
  cases r <;> cases q <;> rfl

mutual
/-- **`formatExpr` succeeds exactly on the supported expressions.** -/
theorem agrees_nodeTree (aliases : Aliases) : ∀ e : Expr,
    Agrees (nodeTree prog aliases e) (nodeSupported prog e)
  | .basicLit _ _ _ => agrees_plain rfl
  | .ident _ => agrees_plain rfl
  | .selector x sel => by
      obtain ⟨htext, hbase⟩ := agrees_nodeTree aliases x
      refine ⟨?_, hbase⟩
      rw [nodeTree, nodeSupported]
      simp only [isOk_selectorTree, htext, hbase]
  | .unary pos op x => by
      refine agrees_plain ?_
      rw [← (agrees_nodeTree aliases x).1, unaryTree]
      cases (nodeTree prog aliases x).text with
      | error e => rfl
      | ok c => cases hop : unaryText op <;> rfl
  | .binary x op y => by
      refine agrees_plain ?_
      rw [← (agrees_nodeTree aliases x).1, ← (agrees_nodeTree aliases y).1]
      exact isOk_map₂ _
  | .call fn args => by
      refine agrees_plain ?_
      rw [isOk_callTree, (agrees_nodeTree aliases fn).1, isOk_nodeTrees aliases args]
  | .paren _ x => by
      refine agrees_plain ?_
      rw [← (agrees_nodeTree aliases x).1]
      exact isOk_map _
  | .index x i => by
      refine agrees_plain ?_
      rw [← (agrees_nodeTree aliases x).1, ← (agrees_nodeTree aliases i).1]
      exact isOk_map₂ _
  | .star _ x => by
      refine agrees_plain ?_
      rw [← (agrees_nodeTree aliases x).1]
      exact isOk_map _
  | .other _ _ _ => agrees_plain rfl

theorem isOk_nodeTrees (aliases : Aliases) : ∀ es : List Expr,
    (nodeTrees prog aliases es).map Except.isOk = nodesSupported prog es
  | [] => rfl
  | e :: rest => by
      rw [nodeTrees, nodesSupported, List.map_cons, (agrees_nodeTree aliases e).1,
        isOk_nodeTrees aliases rest]
end

theorem isSome_toOption {α : Type} (r : Result α) : r.toOption.isSome = r.isOk := by
  cases r <;> rfl

theorem isSome_treeOf (n : Names) (e : Expr) :
    (treeOf prog n e).isSome = exprSupported prog e := by
  rw [treeOf, isSome_toOption]
  exact (agrees_nodeTree n.aliases e).1

/-! ## Statements -/

/-- The type of an identifier has a C spelling. -/
def hasCType (prog : Program) (id : Ident) : Bool := (goTypeToC? (typeOfIdent prog id)).isOk

/-- The names of a specification have C types and the values they start with are supported. -/
def specSupported (prog : Program) : List Ident → List Expr → Bool
  | [], _ => true
  | id :: ids, values =>
      hasCType prog id && values.head?.all (exprSupported prog) &&
        specSupported prog ids values.tail

/-- The only argument of a call is supported. -/
def soleSupported (prog : Program) : List Expr → Bool
  | [arg] => exprSupported prog arg
  | _ => false

/-- The right side of a comma-ok statement is a map lookup, a ring buffer reservation or a
storage lookup. -/
def commaOkCallSupported (prog : Program) (fn : Expr) (args : List Expr) : Bool :=
  match mapLookupCall prog fn with
  | some (_, valType) => (goTypeToC valType).isOk && soleSupported prog args
  | none =>
      match ringbufReserveCall prog fn with
      | some (_, valType) => (goTypeToC valType).isOk
      | none =>
          match storageGetCall prog fn with
          | some (_, valType, _) => (goTypeToC valType).isOk && soleSupported prog args
          | none => false

/-- A comma-ok statement. -/
def commaOkSupported (prog : Program) (v ok rhs : Expr) : Bool :=
  match rhs with
  | .call fn args =>
      commaOkCallSupported prog fn args && (identOf v).isSome && (identOf ok).isSome
  | _ => false

/-- A definition declares an identifier that has a C type. -/
def definedSupported (prog : Program) (l : Expr) : Bool := (identOf l).any (hasCType prog)

/-- An assignment: comma-ok or a single one, and not `&^=`. -/
def assignSupported (prog : Program) (lhs : List Expr) (tok : AssignTok) (rhs : List Expr) :
    Bool :=
  match lhs, rhs with
  | [v, ok], [r] => tok = .define && commaOkSupported prog v ok r
  | [l], [r] =>
      exprSupported prog l && exprSupported prog r &&
        match tok with
        | .define => definedSupported prog l
        | .andNot => false
        | _ => true
  | _, _ => false

/-- A clause of a `for`: a single assignment or a step. -/
def clauseSupported (prog : Program) : Stmt → Bool
  | .assign [l] tok [r] =>
      exprSupported prog r &&
        if tok = .define then definedSupported prog l else exprSupported prog l
  | .incDec x _ => exprSupported prog x
  | _ => false

/-- At most one result, which is supported. -/
def resultsSupported (prog : Program) : List Expr → Bool
  | [] => true
  | [x] => exprSupported prog x
  | _ => false

mutual
/-- The emitter has a case for the statement and for everything of it that is printed. -/
def stmtSupported (prog : Program) : Stmt → Bool
  | .decl _ tok specs =>
      tok = .var && specs.all fun spec => specSupported prog spec.names spec.values
  | .assign lhs tok rhs => assignSupported prog lhs tok rhs
  | .ifs _ init cond body els =>
      init.isNone && exprSupported prog cond && blockSupported prog body &&
        elseSupported prog els
  | .ret _ results => resultsSupported prog results
  | .expr x => exprSupported prog x
  | .fors _ init cond post body =>
      init.any (clauseSupported prog) && cond.any (exprSupported prog) &&
        post.any (clauseSupported prog) && blockSupported prog body
  | .block _ list => blockSupported prog list
  | .incDec x _ => exprSupported prog x
  | .other _ _ _ => false

/-- Every statement of a list is supported. -/
def blockSupported (prog : Program) : List Stmt → Bool
  | [] => true
  | s :: rest => stmtSupported prog s && blockSupported prog rest

/-- An else clause is absent, a block, or an `if` whose condition and body are supported;
its other clauses are not looked at. -/
def elseSupported (prog : Program) : Option Stmt → Bool
  | none => true
  | some (.ifs _ _ cond body _) => exprSupported prog cond && blockSupported prog body
  | some (.block _ list) => blockSupported prog list
  | some _ => false
end

theorem isSome_cTypeOf (id : Ident) : (cTypeOf prog id).isSome = hasCType prog id :=
  isSome_toOption _

theorem isSome_bind {α β : Type} {x : Option α} {f : α → Option β} {b : Bool}
    (hf : ∀ a, (f a).isSome = b) : (x.bind f).isSome = (x.isSome && b) := by
  cases x with
  | none => rfl
  | some a => exact hf a

theorem isSome_bind_some {α β : Type} {x : Option α} {f : α → Option β}
    (hf : ∀ a, (f a).isSome = true) : (x.bind f).isSome = x.isSome := by
  cases x with
  | none => rfl
  | some a => exact hf a

theorem isSome_initOf (n : Names) (values : List Expr) :
    (initOf prog n values).isSome = values.head?.all (exprSupported prog) := by
  cases values with
  | nil => rfl
  | cons v rest =>
      rw [initOf, Option.isSome_map, isSome_treeOf]
      rfl

theorem isSome_specLines (n : Names) : ∀ (ids : List Ident) (values : List Expr),
    (specLines prog n ids values).isSome = specSupported prog ids values
  | [], _ => rfl
  | id :: ids, values => by
      rw [specLines, specSupported, ← isSome_cTypeOf, ← isSome_initOf n,
        ← isSome_specLines n ids values.tail, Bool.and_assoc]
      refine isSome_bind fun cType => isSome_bind fun init => ?_
      exact isSome_bind_some fun rest => rfl

theorem isSome_specsLines (n : Names) (specs : List ValueSpec) :
    (specsLines prog n specs).isSome =
      specs.all fun spec => specSupported prog spec.names spec.values := by
  induction specs with
  | nil => rfl
  | cons spec specs ih =>
      rw [specsLines, List.all_cons, ← isSome_specLines n, ← ih]
      refine isSome_bind fun ls => ?_
      exact isSome_bind_some fun rest => rfl

theorem isSome_soleTree (n : Names) (args : List Expr) :
    (soleTree prog n args).isSome = soleSupported prog args := by
  rcases args with _ | ⟨a, _ | ⟨b, rest⟩⟩
  · rfl
  · exact isSome_treeOf n a
  · rfl

theorem isSome_commaOkCall (n : Names) (fn : Expr) (args : List Expr) :
    (commaOkCall prog n fn args).isSome = commaOkCallSupported prog fn args := by
  unfold commaOkCall commaOkCallSupported
  cases mapLookupCall prog fn with
  | some p =>
      dsimp only
      rw [← isSome_soleTree n, ← isSome_toOption]
      refine isSome_bind fun valC => ?_
      exact isSome_bind_some fun key => rfl
  | none =>
      cases ringbufReserveCall prog fn with
      | some p =>
          dsimp only
          rw [← isSome_toOption]
          exact isSome_bind_some fun valC => rfl
      | none =>
          cases storageGetCall prog fn with
          | some p =>
              dsimp only
              rw [← isSome_soleTree n, ← isSome_toOption]
              refine isSome_bind fun valC => ?_
              exact isSome_bind_some fun key => rfl
          | none => rfl

theorem isSome_commaOkLine (n : Names) (v ok rhs : Expr) :
    (commaOkLine prog n v ok rhs).isSome = commaOkSupported prog v ok rhs := by
  cases rhs with
  | call fn args =>
      rw [commaOkLine, commaOkSupported, ← isSome_commaOkCall n, Bool.and_assoc]
      refine isSome_bind fun c => isSome_bind fun vId => ?_
      exact isSome_bind_some fun okId => rfl
  | _ => rfl

theorem isSome_defined (l : Expr) (f : Ident → Text → CLine) :
    ((identOf l).bind fun id => (cTypeOf prog id).bind fun cType => some (f id cType)).isSome =
      definedSupported prog l := by
  unfold definedSupported
  cases identOf l with
  | none => rfl
  | some id =>
      have hbind : ((cTypeOf prog id).bind fun cType => some (f id cType)).isSome =
          (cTypeOf prog id).isSome := isSome_bind_some fun cType => rfl
      exact hbind.trans (isSome_cTypeOf id)

theorem isSome_singleAssignLine (n : Names) (l : Expr) (tok : AssignTok) (r : Expr) :
    (singleAssignLine prog n l tok r).isSome = assignSupported prog [l] tok [r] := by
  unfold singleAssignLine assignSupported
  dsimp only
  rw [← isSome_treeOf n l, ← isSome_treeOf n r, Bool.and_assoc]
  refine isSome_bind fun lhs => isSome_bind fun rhs => ?_
  cases tok with
  | define => exact isSome_defined l fun id cType => .decl cType id.name id (some rhs)
  | _ => rfl

theorem isSome_assignLine (n : Names) (lhs : List Expr) (tok : AssignTok) (rhs : List Expr) :
    (assignLine prog n lhs tok rhs).isSome = assignSupported prog lhs tok rhs := by
  rcases lhs with _ | ⟨a, _ | ⟨b, _ | ⟨c, lhs⟩⟩⟩ <;> rcases rhs with _ | ⟨r, _ | ⟨r', rhs⟩⟩ <;>
    try rfl
  · rw [assignLine, Option.isSome_map, isSome_singleAssignLine]
  · rw [assignLine, assignSupported]
    split_ifs with htok
    · rw [isSome_commaOkLine, decide_eq_true htok, Bool.true_and]
    · rw [decide_eq_false htok, Bool.false_and]
      rfl

theorem isSome_forClause (n : Names) (s : Stmt) :
    (forClause prog n s).isSome = clauseSupported prog s := by
  cases s with
  | assign lhs tok rhs =>
      rcases lhs with _ | ⟨l, _ | ⟨l', lhs⟩⟩ <;> rcases rhs with _ | ⟨r, _ | ⟨r', rhs⟩⟩ <;>
        try rfl
      rw [forClause, clauseSupported, ← isSome_treeOf n r]
      refine isSome_bind fun rhs => ?_
      split_ifs
      · exact isSome_defined l fun id cType => .decl cType id.name id (some rhs)
      · rw [← isSome_treeOf n l]
        exact isSome_bind_some fun lhs => rfl
  | incDec x inc =>
      rw [forClause, Option.isSome_map, isSome_treeOf]
      rfl
  | _ => rfl

theorem isSome_returnLine (n : Names) (results : List Expr) :
    (returnLine prog n results).isSome = resultsSupported prog results := by
  rcases results with _ | ⟨x, _ | ⟨y, rest⟩⟩
  · rfl
  · rw [returnLine, Option.isSome_map, isSome_treeOf]
    rfl
  · rfl

mutual
/-- **`writeStmt` succeeds exactly on the supported statements**, whatever the names are. -/
theorem isSome_stmtTree : ∀ (s : Stmt) (n : Names),
    (stmtTree prog s n).isSome = stmtSupported prog s
  | .decl pos tok specs, n => by
      rw [stmtTree, stmtSupported]
      split_ifs with htok
      · rw [Option.isSome_map, isSome_specsLines, decide_eq_true htok, Bool.true_and]
      · rw [decide_eq_false htok, Bool.false_and]
        rfl
  | .assign lhs tok rhs, n => by
      rw [stmtTree, stmtSupported, Option.isSome_map, isSome_assignLine]
  | .ifs pos init cond body els, n => by
      rw [stmtTree, stmtSupported]
      cases init with
      -- an `if` with an init statement is refused on both sides
      | some i => rfl
      | none =>
          rw [if_neg (by simp), Option.isNone_none, Bool.true_and, Bool.and_assoc,
            ← isSome_treeOf n cond]
          refine isSome_bind fun c => ?_
          have hbody := isSome_blockTree body n
          rw [← hbody]
          refine isSome_bind fun r => ?_
          rw [← isSome_elseTree els r.2]
          exact isSome_bind_some fun q => rfl
  | .ret pos results, n => by
      rw [stmtTree, stmtSupported, Option.isSome_map, isSome_returnLine]
  | .expr x, n => by
      rw [stmtTree, stmtSupported, Option.isSome_map, isSome_treeOf]
  | .fors pos init cond post body, n => by
      -- a loop that lacks one of its three clauses is refused on both sides
      rcases init with _ | i
      · rfl
      · rcases cond with _ | c
        · rw [stmtSupported, Option.any_none, Bool.and_false, Bool.false_and, Bool.false_and]
          rfl
        · rcases post with _ | p
          · rw [stmtSupported, Option.any_none, Bool.and_false, Bool.false_and]
            rfl
          · rw [stmtTree, stmtSupported, Option.any_some, Option.any_some, Option.any_some,
              ← isSome_forClause n i, ← isSome_forClause n p, ← isSome_treeOf n c,
              ← isSome_blockTree body n, Bool.and_assoc, Bool.and_assoc]
            refine isSome_bind fun initL => isSome_bind fun condT => isSome_bind fun postL => ?_
            exact isSome_bind_some fun r => rfl
  | .block pos list, n => by
      rw [stmtTree, stmtSupported, Option.isSome_map, isSome_blockTree list n]
  | .incDec x inc, n => by
      rw [stmtTree, stmtSupported, Option.isSome_map, isSome_treeOf]
  | .other _ _ _, n => rfl

theorem isSome_blockTree : ∀ (list : List Stmt) (n : Names),
    (blockTree prog list n).isSome = blockSupported prog list
  | [], n => rfl
  | s :: rest, n => by
      rw [blockTree, blockSupported, ← isSome_stmtTree s n]
      refine isSome_bind fun r => ?_
      rw [← isSome_blockTree rest r.2]
      exact isSome_bind_some fun q => rfl

theorem isSome_elseTree : ∀ (els : Option Stmt) (n : Names),
    (elseTree prog els n).isSome = elseSupported prog els
  | none, n => rfl
  | some (.ifs _ _ cond body _), n => by
      rw [elseTree, elseSupported, ← isSome_treeOf n cond, ← isSome_blockTree body n]
      refine isSome_bind fun c => ?_
      exact isSome_bind_some fun r => rfl
  | some (.block _ list), n => by
      rw [elseTree, elseSupported, Option.isSome_map, isSome_blockTree list n]
  | some (.decl _ _ _), _ => rfl
  | some (.assign _ _ _), _ => rfl
  | some (.ret _ _), _ => rfl
  | some (.expr _), _ => rfl
  | some (.fors _ _ _ _ _), _ => rfl
  | some (.incDec _ _), _ => rfl
  | some (.other _ _ _), _ => rfl
end

/-! ## The file -/

/-- A field has a C type, or is an array of something that has one. -/
def fieldSupported (f : StructField) : Bool :=
  match f.type with
  | .array elem _ => (goTypeToC elem).isOk
  | t => (goTypeToC t).isOk

/-- A user type is a struct of supported fields. -/
def typeSupported (prog : Program) (t : UserTypeDecl) : Bool :=
  match prog.info.underlying t.type [] with
  | .struct fields => fields.all fieldSupported
  | _ => false

/-- A type that may be absent is there and has a C spelling. -/
def hasCType? (t : Option GoType) : Bool := (goTypeToC? t).isOk

/-- A map has a known kind, and the key and value types this kind asks for. -/
def mapSupported (m : MapDecl) : Bool :=
  (mapTypeToC.lookup m.type).isSome &&
    if m.type = "ringbuf" then true
    else if m.type = "queue" ∨ m.type = "stack" ∨ m.type = "bloom_filter" then
      hasCType? m.valType
    else if m.type = "prog_array" ∨ m.type = "perf_event_array" ∨ m.type = "devmap" ∨
        m.type = "xskmap" then true
    else if m.type = "cpumap" then true
    else if m.type = "task_storage" ∨ m.type = "sk_storage" ∨ m.type = "inode_storage" then
      hasCType? m.valType
    else hasCType? m.keyType && hasCType? m.valType

/-- At most one result with at most one name, and its type has a C spelling. -/
def returnSupported (prog : Program) (fd : FuncDecl) : Bool :=
  match fieldsOf fd.results with
  | [] => true
  | [r] => r.names.length ≤ 1 && hasCType? (prog.info.typeOf r.type)
  | _ => false

/-- A function has a body of supported statements. -/
def bodySupported (prog : Program) (fd : FuncDecl) : Bool :=
  fd.body.any fun body => blockSupported prog body.list

/-- A helper. -/
def helperSupported (prog : Program) (h : HelperFunc) : Bool :=
  returnSupported prog h.decl &&
    (fieldsOf h.decl.params).all (fun f => hasCType? (prog.info.typeOf f.type)) &&
    bodySupported prog h.decl

/-- A program has one parameter with one name. -/
def programSupported (prog : Program) (p : ProgramFunc) : Bool :=
  (match p.decl.params with
    | some ⟨_, [field]⟩ => field.names.length = 1 && hasCType? (prog.info.typeOf field.type)
    | _ => false) &&
    bodySupported prog p.decl

/-- **The allow-list of the emitter.** -/
def supported (prog : Program) : Bool :=
  prog.types.all (typeSupported prog) && prog.maps.all mapSupported &&
    prog.helpers.all (helperSupported prog) && prog.programs.all (programSupported prog)

/-- The computation succeeds or not, whatever the names are. -/
def Succeeds {α : Type} (m : EmitM α) (b : Bool) : Prop := ∀ n, (out m n).isSome = b

theorem Succeeds.bind {α β : Type} {m : EmitM α} {f : α → EmitM β} {b c : Bool}
    (hm : Succeeds m b) (hf : ∀ a, Succeeds (f a) c) : Succeeds (m >>= f) (b && c) := by
  intro n
  rw [out_bind, ← hm n]
  exact isSome_bind fun r => by rw [Option.isSome_map, hf]

/-- A step that always succeeds. -/
theorem Succeeds.after {α β : Type} {m : EmitM α} {f : α → EmitM β} {b : Bool}
    (hm : Succeeds m true) (hf : ∀ a, Succeeds (f a) b) : Succeeds (m >>= f) b := by
  have h := Succeeds.bind hm hf
  rwa [Bool.true_and] at h

/-- A step before steps that always succeed. -/
theorem Succeeds.before {α β : Type} {m : EmitM α} {f : α → EmitM β} {b : Bool}
    (hm : Succeeds m b) (hf : ∀ a, Succeeds (f a) true) : Succeeds (m >>= f) b := by
  have h := Succeeds.bind hm hf
  rwa [Bool.and_true] at h

theorem succeeds_perform (a : Act) : Succeeds (perform a) true := fun _ => rfl

theorem succeeds_fail {α : Type} (msg : Text) : Succeeds (fail msg : EmitM α) false := fun _ => rfl

theorem succeeds_lift {α : Type} (r : Result α) : Succeeds (lift r) r.isOk := by
  intro n
  rw [out_lift, Option.isSome_map, isSome_toOption]

theorem isOk_wrapError {α : Type} (wrap : Text → Text) (r : Result α) :
    (wrapError wrap r).isOk = r.isOk := by
  rw [← isSome_toOption, toOption_wrapError, isSome_toOption]

theorem succeeds_indented {m : EmitM Unit} {b : Bool} (h : Succeeds m b) :
    Succeeds (indented m) b :=
  Succeeds.after (succeeds_perform _) fun _ => Succeeds.before h fun _ => succeeds_perform _

theorem succeeds_forEach {γ : Type} {f : γ → EmitM Unit} {ok : γ → Bool}
    (hf : ∀ x, Succeeds (f x) (ok x)) (xs : List γ) : Succeeds (forEach f xs) (xs.all ok) := by
  induction xs with
  | nil => exact fun _ => rfl
  | cons x xs ih => exact Succeeds.bind (hf x) fun _ => ih

theorem isOk_memberDecl (f : StructField) : (memberDecl f).isOk = fieldSupported f := by
  have hmap : ∀ (r : Result Text) (g : Text → Text),
      (do let c ← r; return g c : Result Text).isOk = r.isOk := by
    intro r g
    cases r <;> rfl
  obtain ⟨name, type, tag⟩ := f
  cases type <;> exact hmap _ _

theorem succeeds_writeFields (t : UserTypeDecl) (fields : List StructField) :
    Succeeds (writeFields t fields) (fields.all fieldSupported) := by
  induction fields with
  | nil => exact fun _ => rfl
  | cons f fields ih =>
      refine Succeeds.after (succeeds_perform _) fun _ => ?_
      rw [List.all_cons, ← isOk_memberDecl, ← isOk_wrapError]
      exact Succeeds.bind (succeeds_lift _) fun _ => Succeeds.after (succeeds_perform _) fun _ => ih

theorem succeeds_writeUserType (t : UserTypeDecl) :
    Succeeds (writeUserType prog t) (typeSupported prog t) := by
  refine Succeeds.after (succeeds_perform _) fun _ => ?_
  unfold writeStruct typeSupported
  cases prog.info.underlying t.type [] with
  | struct fields =>
      refine Succeeds.after (succeeds_perform _) fun _ => ?_
      refine Succeeds.before (succeeds_indented (succeeds_writeFields t fields)) fun _ => ?_
      exact Succeeds.after (succeeds_perform _) fun _ => succeeds_perform _
  | basic kind => exact succeeds_fail _
  | other => exact succeeds_fail _

theorem succeeds_writeMapEnd (m : MapDecl) : Succeeds (writeMapEnd m) true := by
  unfold writeMapEnd
  dsimp only
  split_ifs
  · exact Succeeds.after (succeeds_perform _) fun _ => succeeds_perform _
  · exact succeeds_perform _

theorem isOk_mapValueC (m : MapDecl) : (mapValueC m).isOk = hasCType? m.valType := by
  unfold mapValueC hasCType?
  cases m.valType with
  | none => rfl
  | some t => exact isOk_wrapError _ _

theorem succeeds_writeMap (m : MapDecl) : Succeeds (writeMap m) (mapSupported m) := by
  have hend := succeeds_writeMapEnd m
  have hval : Succeeds (lift (mapValueC m)) (hasCType? m.valType) := by
    rw [← isOk_mapValueC]
    exact succeeds_lift _
  have hkind : (mapKindC m).isOk = (mapTypeToC.lookup m.type).isSome := by
    unfold mapKindC
    cases mapTypeToC.lookup m.type <;> rfl
  have hdef : Succeeds (writeMapDef m) (mapSupported m) := by
    unfold writeMapDef mapSupported
    rw [← hkind]
    refine Succeeds.bind (succeeds_lift _) fun cType => ?_
    refine Succeeds.after (succeeds_perform _) fun _ => ?_
    refine Succeeds.after (succeeds_perform _) fun _ => ?_
    unfold writeMapTypes
    -- the branches of the map types in the order of the source
    split_ifs
    · exact hend
    · exact Succeeds.before hval fun _ => Succeeds.after (succeeds_perform _) fun _ => hend
    · exact Succeeds.after (succeeds_perform _) fun _ =>
        Succeeds.after (succeeds_perform _) fun _ => hend
    · exact Succeeds.after (succeeds_perform _) fun _ =>
        Succeeds.after (succeeds_perform _) fun _ => hend
    · refine Succeeds.before hval fun _ => Succeeds.after (succeeds_perform _) fun _ => ?_
      refine Succeeds.after (succeeds_perform _) fun _ => ?_
      exact Succeeds.after (succeeds_perform _) fun _ => succeeds_perform _
    · cases hkey : m.keyType with
      | none => exact succeeds_fail _
      | some key =>
          have h1 : hasCType? (some key) = (wrapError (m.pos.string ++ ": map key: " ++ ·)
              (goTypeToC key)).isOk := (isOk_wrapError _ _).symm
          have h2 : hasCType? m.valType = (wrapError (m.pos.string ++ ": map value: " ++ ·)
              (goTypeToC? m.valType)).isOk := (isOk_wrapError _ _).symm
          rw [h1, h2]
          refine Succeeds.bind (succeeds_lift _) fun keyC => ?_
          refine Succeeds.before (succeeds_lift _) fun valC => ?_
          refine Succeeds.after (succeeds_perform _) fun _ => ?_
          exact Succeeds.after (succeeds_perform _) fun _ => hend
  unfold writeMap
  split
  · exact Succeeds.after (succeeds_perform _) fun _ => hdef
  · exact hdef

theorem succeeds_writeBody (fd : FuncDecl) :
    Succeeds (writeBody prog fd.body) (bodySupported prog fd) := by
  unfold bodySupported
  cases fd.body with
  | none => exact fun _ => rfl
  | some body =>
      intro n
      rw [writeBody, out_writeBlock, Option.isSome_map, isSome_blockTree]
      rfl

theorem isOk_helperReturn (h : HelperFunc) :
    (helperReturn prog h).isOk = returnSupported prog h.decl := by
  unfold helperReturn returnSupported
  rcases fieldsOf h.decl.results with _ | ⟨r, _ | ⟨r', rest⟩⟩
  · rfl
  · dsimp only
    split_ifs with hlen
    · rw [decide_eq_false (by omega), Bool.false_and]
      rfl
    · rw [isOk_wrapError, decide_eq_true (by omega), Bool.true_and]
      rfl
  · rfl

theorem isOk_helperParams (h : HelperFunc) (fields : List Field) :
    (helperParams prog h fields).isOk =
      fields.all fun f => hasCType? (prog.info.typeOf f.type) := by
  induction fields with
  | nil => rfl
  | cons f fields ih =>
      rw [helperParams, List.all_cons, ← ih]
      have hwrap : hasCType? (prog.info.typeOf f.type) = (wrapError
          (h.pos.string ++ ": " ++ h.name ++ " param: " ++ ·)
          (goTypeToC? (prog.info.typeOf f.type))).isOk := (isOk_wrapError _ _).symm
      rw [hwrap]
      cases wrapError (h.pos.string ++ ": " ++ h.name ++ " param: " ++ ·)
          (goTypeToC? (prog.info.typeOf f.type)) with
      | error e => rfl
      | ok pc =>
          cases helperParams prog h fields with
          | error e => rfl
          | ok params =>
              simp only [bind, Except.bind]
              split_ifs <;> rfl

theorem succeeds_writeHelper (h : HelperFunc) :
    Succeeds (writeHelper prog h) (helperSupported prog h) := by
  unfold helperSupported
  refine Succeeds.after (succeeds_perform _) fun _ => ?_
  rw [← isOk_helperReturn, ← isOk_helperParams h, Bool.and_assoc]
  refine Succeeds.bind (succeeds_lift _) fun retC => Succeeds.bind (succeeds_lift _) fun _ => ?_
  refine Succeeds.after (succeeds_perform _) fun _ => ?_
  refine Succeeds.before (succeeds_indented (succeeds_writeBody h.decl)) fun _ => ?_
  exact Succeeds.after (succeeds_perform _) fun _ => succeeds_perform _

theorem succeeds_writeProgram (p : ProgramFunc) :
    Succeeds (writeProgram prog p) (programSupported prog p) := by
  have hparam : (programParam prog p).isOk = (match p.decl.params with
      | some ⟨_, [field]⟩ => field.names.length = 1 && hasCType? (prog.info.typeOf field.type)
      | _ => false) := by
    unfold programParam
    rcases p.decl.params with _ | ⟨pos, _ | ⟨field, _ | ⟨g, rest⟩⟩⟩
    · rfl
    · rfl
    · dsimp only
      rcases field.names with _ | ⟨n, _ | ⟨n', names⟩⟩
      · rfl
      · have hwrap : hasCType? (prog.info.typeOf field.type) = (wrapError
            (p.pos.string ++ ": " ++ p.name ++ " param: " ++ ·)
            (goTypeToC? (prog.info.typeOf field.type))).isOk := (isOk_wrapError _ _).symm
        rw [hwrap]
        cases wrapError (p.pos.string ++ ": " ++ p.name ++ " param: " ++ ·)
          (goTypeToC? (prog.info.typeOf field.type)) <;> rfl
      · simp [errorf, Except.isOk, Except.toBool]
    · rfl
  unfold programSupported
  refine Succeeds.after (succeeds_perform _) fun _ => Succeeds.after (succeeds_perform _) fun _ => ?_
  rw [← hparam]
  refine Succeeds.bind (succeeds_lift _) fun param => ?_
  refine Succeeds.after (succeeds_perform _) fun _ => ?_
  exact Succeeds.before (succeeds_indented (succeeds_writeBody p.decl)) fun _ => succeeds_perform _

theorem succeeds_writeHeader (source : Text) (withCoRE withEndian : Bool) :
    Succeeds (writeHeader source withCoRE withEndian) true := by
  unfold writeHeader
  intro n
  cases withCoRE <;> cases withEndian <;> rfl

theorem succeeds_writePrelude (fs : List Text) : Succeeds (writePrelude fs) true := by
  induction fs with
  | nil => exact fun _ => rfl
  | cons f fs ih =>
      exact Succeeds.after (succeeds_perform _) fun _ =>
        Succeeds.after (succeeds_perform _) fun _ => ih

/-- **`Emit` succeeds exactly on the supported programs.** -/
theorem emit_isOk (prog : Program) (label : Text) : (emit prog label).isOk = supported prog := by
  have hacts : Succeeds (emitActs prog label) (supported prog) := by
    unfold supported
    rw [Bool.and_assoc, Bool.and_assoc]
    refine Succeeds.after (succeeds_writeHeader _ _ _) fun _ => ?_
    refine Succeeds.after (succeeds_perform _) fun _ => ?_
    refine Succeeds.after (succeeds_writePrelude _) fun _ => ?_
    refine Succeeds.bind (succeeds_forEach succeeds_writeUserType _) fun _ => ?_
    refine Succeeds.bind (succeeds_forEach succeeds_writeMap _) fun _ => ?_
    refine Succeeds.bind (succeeds_forEach succeeds_writeHelper _) fun _ => ?_
    exact succeeds_forEach succeeds_writeProgram _
  rw [← hacts ⟨[], 0⟩, out, isSome_toOption, emit]
  cases emitActs prog label ⟨[], 0⟩ <;> rfl

/-! ## The gate -/

/-- **When validation is a complete gate.**  A program without findings is emitted exactly
if it is on the allow-list; so the gate is complete for the programs that `Validate`
rejects and for the supported ones. -/
theorem validate_gate_iff (prog : Program) (label : Text) :
    (validate prog = [] → ∃ out, emit prog label = .ok out) ↔
      (validate prog ≠ [] ∨ supported prog = true) := by
  have hok : (∃ out, emit prog label = .ok out) ↔ supported prog = true := by
    rw [← emit_isOk prog label]
    cases emit prog label with
    | error e => simp [Except.isOk, Except.toBool]
    | ok r => simp [Except.isOk, Except.toBool]
  rw [hok]
  constructor
  · intro h
    by_cases hv : validate prog = []
    · exact Or.inr (h hv)
    · exact Or.inl hv
  · rintro (hv | hs) h
    · exact absurd h hv
    · exact hs

/-- `func spin() { for i := 0; i < 10; i++ { } }`, where `i` is an `int`. -/
def spinProgram : Program :=
  { emptyProgram (paramInfo (.basic .int)) with
    helpers := [⟨"spin", ⟨"x.go", 3, 1⟩,
      { pos := 30
        name := ⟨"spin", 35⟩
        recv := none
        typeParams := none
        params := some ⟨39, []⟩
        results := none
        body := some ⟨42, [.fors 44 (some (.assign [var 'i' 48] .define [.basicLit 53 .int ['0']]))
          (some (.binary (var 'i' 56) .lss (.basicLit 60 .int "10")))
          (some (.incDec (var 'i' 64) true)) []], 70⟩ }⟩] }

/-- The documented loop passes `Validate` and is rejected by `Emit`. -/
theorem spinProgram_rejected :
    validate spinProgram = [] ∧ ¬ ∃ out, emit spinProgram "x.go" = .ok out := by
  refine ⟨validate_eq_nil.mpr rfl, ?_⟩
  have herr : emit spinProgram "x.go" = errorf "unsupported basic type: int" := rfl
  rintro ⟨out, hout⟩
  rw [herr] at hout
  cases hout

end Gobee
