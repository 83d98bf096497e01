/-
# The operator tree of a Go expression

`exprTree` reads a Go expression as a C expression tree: each operator node of the Go
tree becomes the C node of the same operator over the trees of its operands, Go's own
parentheses are kept, a call that the emitter expands becomes the expansion over the
trees of its arguments, and an inlined constant becomes the tree of its own value.  No
text is involved: the tree is where the operators *should* end up.

* `formatExpr_eq` : the emitted text is the rendering of this tree;
* `formatExpr_readBack_iff` : **reading the emitted text with C's grammar gives the tree
  back exactly when every operand binds tightly enough for the place where it stands and
  no two tokens run into each other.**

Each leaf remembers the Go identifier it was printed for.
-/
import Gobee.FormatExpr
import Gobee.CParse

namespace Gobee

open CSyntax CExpr

/-- C expressions whose leaves remember the Go identifier they stand for. -/
abbrev CTree := CExpr (Option Ident)

/-! ## Leaves -/

/-- A name the emitter inserts. -/
def name (w : Text) : CTree := .leaf w none

/-- The address of a map. -/
def addrOf (id : Ident) : CTree := .unary ['&'] (.leaf id.name (some id))

/-- A number with its sign. -/
def numberTree : Text → CTree
  | '-' :: digits => .unary ['-'] (name digits)
  | digits => name digits

/-- An inlined constant. -/
def constTree : ConstVal → CTree
  | .int n => numberTree (intText n)
  | .rat num den => .binary false ['/'] (numberTree (intText num)) (name (itoa den))
  | val => name val.exactString

/-- The tree of an identifier. -/
def identTree (prog : Program) (aliases : Aliases) (id : Ident) : CTree :=
  match prog.info.uses id with
  | none => .leaf id.name (some id)
  | some obj =>
      match aliases.lookup obj.decl with
      | some cName => .leaf cName (some id)
      | none =>
          match obj.kind with
          | .const val => constTree val
          | _ => .leaf id.name (some id)

/-- A member access; a field tag `f[i]` is an element of the member `f`. -/
def memberTree (b : CTree) (op field : Text) : CTree :=
  match field.span (· != '[') with
  | (f, '[' :: i) =>
      if i.getLast? = some ']' then .index (.member b op f) (name i.dropLast)
      else .member b op field
  | _ => .member b op field

/-! ## Selectors and operators -/

/-- The tree of a chain of kernel reads. -/
def coreReadTree (prog : Program) (sel : Expr) (base : Result CTree) :
    Result (Option CTree) := do
  match ← coreReadFields prog sel [] with
  | none => return none
  | some fields =>
      let b ← base
      return some (.call (name "BPF_CORE_READ") (b :: fields.map name))

/-- The tree of a selector. -/
def selectorTree (prog : Program) (x : Expr) (sel : Ident) (tree base : Result CTree) :
    Result CTree :=
  match bpfConstant prog x sel with
  | some c => .ok (numberTree c)
  | none =>
      orTry (coreReadTree prog (.selector x sel) base) do
        let b ← tree
        let access := memberAccess prog x sel
        return memberTree b access.1 access.2

/-- The tree of a unary expression. -/
def unaryTree (prog : Program) (pos : Pos) (op : UnaryOp) (x : Result CTree) :
    Result CTree := do
  let inner ← x
  match unaryText op with
  | some c => return .unary c inner
  | none => errorf (posText prog pos ++ ": unsupported unary op " ++ quote op.string)

/-- The tree of a binary expression. -/
def binaryTree (x : Result CTree) (op : BinaryOp) (y : Result CTree) : Result CTree := do
  let l ← x
  let r ← y
  return .binary true op.string l r

/-! ## Calls -/

/-- `sizeof(*e)`. -/
def sizeofDeref (e : CTree) : CTree := .unary "sizeof" (.paren (.unary ['*'] e))

/-- The tree of a conversion. -/
def conversionTree (prog : Program) (fn : Expr) (args : List (Result CTree)) :
    Result (Option CTree) :=
  match conversionType fn with
  | none => .ok none
  | some cType =>
      match args with
      | [arg] => do
          let inner ← arg
          return some (.cast [cType] (.paren inner))
      | _ =>
          errorf (posText prog fn.pos ++ ": type conversion expects exactly one argument")

/-- The tree of `unsafe.Pointer(x)`. -/
def unsafePointerTree (prog : Program) (fn : Expr) (args : List (Result CTree)) :
    Result (Option CTree) :=
  if isUnsafePointer fn then
    match args with
    | [arg] => do
        let inner ← arg
        return some inner
    | _ => errorf (posText prog fn.pos ++ ": unsafe.Pointer expects exactly one argument")
  else .ok none

/-- The tree of a ring buffer method. -/
def ringbufMethodTree (prog : Program) (fn : Expr) (args : List (Result CTree)) :
    Result (Option CTree) :=
  match methodOf prog id fn with
  | none => .ok none
  | some m =>
      if m.type = "RingBuf" then
        match args with
        | [arg] => do
            let a ← arg
            if m.sel = "Submit" then
              return some (.call (name "bpf_ringbuf_submit") [a, name ['0']])
            else if m.sel = "Discard" then
              return some (.call (name "bpf_ringbuf_discard") [a, name ['0']])
            else if m.sel = "Output" then
              return some (.call (name "bpf_ringbuf_output")
                [addrOf m.recv, a, sizeofDeref a, name ['0']])
            else return none
        | _ =>
            errorf (posText prog fn.pos ++ ": " ++ m.sel ++ " expects exactly one argument")
      else .ok none

/-- The tree of a queue or stack method. -/
def queueLikeMethodTree (prog : Program) (fn : Expr) (args : List (Result CTree)) :
    Result (Option CTree) :=
  match methodOf prog id fn with
  | none => .ok none
  | some m =>
      if m.type = "Queue" ∨ m.type = "Stack" then
        match args with
        | [arg] => do
            let a ← arg
            if m.sel = "Push" then
              return some (.call (name "bpf_map_push_elem") [addrOf m.recv, a, name ['0']])
            else if m.sel = "Pop" then
              return some (.call (name "bpf_map_pop_elem") [addrOf m.recv, a])
            else if m.sel = "Peek" then
              return some (.call (name "bpf_map_peek_elem") [addrOf m.recv, a])
            else return none
        | _ =>
            errorf (posText prog fn.pos ++ ": " ++ m.sel ++ " expects exactly one argument")
      else .ok none

/-- The tree of a tail call. -/
def progArrayMethodTree (prog : Program) (fn : Expr) (args : List (Result CTree)) :
    Result (Option CTree) :=
  match methodOf prog id fn with
  | none => .ok none
  | some m =>
      if m.sel = "TailCall" ∧ m.type = "ProgArray" then
        match args with
        | [ctx, key] => do
            let c ← ctx
            let k ← key
            return some (.call (name "bpf_tail_call") [c, addrOf m.recv, k])
        | _ => errorf (posText prog fn.pos ++ ": TailCall expects (ctx, key)")
      else .ok none

/-- The tree of a perf event output. -/
def perfEventArrayMethodTree (prog : Program) (fn : Expr) (args : List (Result CTree)) :
    Result (Option CTree) :=
  match methodOf prog id fn with
  | none => .ok none
  | some m =>
      if m.sel = "Output" ∧ m.type = "PerfEventArray" then
        match args with
        | [ctx, val] => do
            let c ← ctx
            let v ← val
            return some (.call (name "bpf_perf_event_output")
              [c, addrOf m.recv, name "BPF_F_CURRENT_CPU", v, sizeofDeref v])
        | _ => errorf (posText prog fn.pos ++ ": Output expects (ctx, *T)")
      else .ok none

/-- The tree of a storage map method. -/
def storageMethodTree (prog : Program) (fn : Expr) (args : List (Result CTree)) :
    Result (Option CTree) :=
  match storageMapInfo prog fn with
  | none => .ok none
  | some (m, _, getFn, deleteFn) =>
      if m.sel = "GetOrCreate" then
        match args with
        | [obj, val] => do
            let o ← obj
            let v ← val
            return some (.call (name getFn)
              [addrOf m.recv, o, v, name "BPF_LOCAL_STORAGE_GET_F_CREATE"])
        | _ =>
            errorf (posText prog fn.pos ++ ": " ++ m.type ++ ".GetOrCreate expects (obj, *V)")
      else if m.sel = "Delete" then
        match args with
        | [obj] => do
            let o ← obj
            return some (.call (name deleteFn) [addrOf m.recv, o])
        | _ => errorf (posText prog fn.pos ++ ": " ++ m.type ++ ".Delete expects (obj)")
      else if m.sel = "Get" then
        match args with
        | [obj] => do
            let o ← obj
            return some (.call (name getFn) [addrOf m.recv, o, name "NULL", name ['0']])
        | _ => errorf (posText prog fn.pos ++ ": " ++ m.type ++ ".Get expects (obj)")
      else .ok none

/-- The tree of a redirect. -/
def redirectMapTree (prog : Program) (fn : Expr) (args : List (Result CTree)) :
    Result (Option CTree) :=
  match methodOf prog stripPointer fn with
  | none => .ok none
  | some m =>
      if m.sel = "Redirect" ∧ m.type ∈ redirectMapTypes then
        match args with
        | [_, key, flags] => do
            let k ← key
            let f ← flags
            return some (.call (name "bpf_redirect_map") [addrOf m.recv, k, f])
        | _ =>
            errorf (posText prog fn.pos ++ ": " ++ m.type ++
              ".Redirect expects (ctx, key, flags)")
      else .ok none

/-- The tree of a map method. -/
def mapTree (prog : Program) (fn : Expr) (args : List (Result CTree)) :
    Result (Option CTree) :=
  match mapMethodCall prog fn with
  | none => .ok none
  | some (m, _, helper) => do
      let as ← sequence args
      let flags : List CTree :=
        if helper = "bpf_map_update_elem" then [name "BPF_ANY"] else []
      return some (.call (name helper) (addrOf m.recv :: as ++ flags))

/-- A call of a helper without arguments. -/
def nullaryCall (w : Text) : CTree := .call (name w) []

/-- The trees of the sugar functions. -/
def expansionTree (fn : Text) (args : List CTree) : Option (Result CTree) :=
  if fn = "GetCurrentPid" then
    some (.ok (.cast ["__u32"] (.paren (.binary true ">>"
      (nullaryCall "bpf_get_current_pid_tgid") (name "32")))))
  else if fn = "GetCurrentTid" then
    some (.ok (.cast ["__u32"] (.paren (nullaryCall "bpf_get_current_pid_tgid"))))
  else if fn = "GetCurrentUid" then
    some (.ok (.cast ["__u32"] (.paren (nullaryCall "bpf_get_current_uid_gid"))))
  else if fn = "GetCurrentGid" then
    some (.ok (.cast ["__u32"] (.paren (.binary true ">>"
      (nullaryCall "bpf_get_current_uid_gid") (name "32")))))
  else if fn = "GetTaskComm" then
    some <| match args with
      | [a] => .ok (.call (name "bpf_get_current_comm") [a, name "16"])
      | _ => errorf "GetTaskComm expects exactly one *[16]byte argument"
  else if fn = "GetUserString" then
    some <| match args with
      | [a, b] =>
          .ok (.call (name "bpf_probe_read_user_str")
            [a, sizeofDeref a, .cast ["const", "char", "*"] b])
      | _ => errorf "GetUserString expects (*[128]byte, uint64)"
  else if fn = "GetUserArgv" then
    some <| match args with
      | [a, b] =>
          .ok (.call (name "gobee_read_user_argv")
            [.cast ["char", "*"] a, sizeofDeref a,
              .cast ["const", "char", "*", "const", "*"] b])
      | _ => errorf "GetUserArgv expects (*[256]byte, uint64)"
  else none

/-- The tree of a call of a `bpf` function. -/
def bpfTree (prog : Program) (fn : Expr) (args : List (Result CTree)) :
    Result (Option CTree) :=
  match bpfFunction prog fn with
  | none => .ok none
  | some f => do
      let as ← sequence args
      match expansionTree f as with
      | some expanded =>
          let c ← expanded
          return some c
      | none => return some (.call (name (helperName f)) as)

/-- The tree of a call of a user function. -/
def userTree (fn : Result CTree) (args : List (Result CTree)) : Result CTree := do
  let f ← fn
  let as ← sequence args
  return .call f as

/-- The tree of a call. -/
def callTree (prog : Program) (fn : Expr) (fnTree : Result CTree)
    (args : List (Result CTree)) : Result CTree :=
  orTry (conversionTree prog fn args) <|
  orTry (unsafePointerTree prog fn args) <|
  orTry (ringbufMethodTree prog fn args) <|
  orTry (queueLikeMethodTree prog fn args) <|
  orTry (progArrayMethodTree prog fn args) <|
  orTry (perfEventArrayMethodTree prog fn args) <|
  orTry (storageMethodTree prog fn args) <|
  orTry (redirectMapTree prog fn args) <|
  orTry (mapTree prog fn args) <|
  orTry (bpfTree prog fn args) <|
  userTree fnTree args

/-! ## Expressions -/

mutual
/-- The tree of an expression, with the tree below its selectors. -/
def nodeTree (prog : Program) (aliases : Aliases) : Expr → Formatted CTree
  | .basicLit _ _ value => .plain (.ok (name value))
  | .ident id => .plain (.ok (identTree prog aliases id))
  | .selector x sel =>
      let f := nodeTree prog aliases x
      ⟨selectorTree prog x sel f.text f.base, f.base⟩
  | .unary pos op x => .plain (unaryTree prog pos op (nodeTree prog aliases x).text)
  | .binary x op y =>
      .plain (binaryTree (nodeTree prog aliases x).text op (nodeTree prog aliases y).text)
  | .call fn args =>
      .plain (callTree prog fn (nodeTree prog aliases fn).text (nodeTrees prog aliases args))
  | .paren _ x =>
      .plain do
        let inner ← (nodeTree prog aliases x).text
        return .paren inner
  | .index x i =>
      .plain do
        let base ← (nodeTree prog aliases x).text
        let idx ← (nodeTree prog aliases i).text
        return .index base idx
  | .star _ x =>
      .plain do
        let inner ← (nodeTree prog aliases x).text
        return .unary ['*'] inner
  | .other kind pos _ =>
      .plain (errorf (posText prog pos ++ ": unsupported expression " ++ kind.goType))

/-- The trees of a list of expressions. -/
def nodeTrees (prog : Program) (aliases : Aliases) : List Expr → List (Result CTree)
  | [] => []
  | e :: rest => (nodeTree prog aliases e).text :: nodeTrees prog aliases rest
end

/-- **The operator tree of a Go expression.** -/
def exprTree (prog : Program) (aliases : Aliases) (e : Expr) : Result CTree :=
  (nodeTree prog aliases e).text

/-! ## The emitted text renders the tree -/

/-- The text of a computed tree. -/
def textOf (r : Result CTree) : Result Text := r.map render

@[simp] theorem textOf_ok (c : CTree) : textOf (.ok c) = .ok (render c) := rfl

@[simp] theorem textOf_error (e : Failure) : textOf (.error e) = .error e := rfl

/-- The text of what a recogniser found. -/
def textOf? (r : Result (Option CTree)) : Result (Option Text) := r.map (Option.map render)

@[simp] theorem textOf?_ok (c : Option CTree) : textOf? (.ok c) = .ok (c.map render) := rfl

@[simp] theorem textOf?_error (e : Failure) : textOf? (.error e) = .error e := rfl

theorem textOf_orTry {r : Result (Option Text)} {t : Result (Option CTree)}
    {next : Result Text} {nextTree : Result CTree} (hr : r = textOf? t)
    (hn : next = textOf nextTree) : orTry r next = textOf (orTry t nextTree) := by
  subst hr hn
  cases t with
  | error e => rfl
  | ok c => cases c <;> rfl

@[simp] theorem render_name (w : Text) : render (name w) = w := rfl

@[simp] theorem render_numberTree (t : Text) : render (numberTree t) = t := by
  unfold numberTree
  split <;> rfl

@[simp] theorem render_constTree (v : ConstVal) : render (constTree v) = v.exactString := by
  cases v with
  | rat num den => simp [constTree, render, gap, ConstVal.exactString]
  | int n => simp [constTree, ConstVal.exactString]
  | bool b => rfl
  | string q => rfl
  | other t => rfl

theorem render_identTree (prog : Program) (aliases : Aliases) (id : Ident) :
    render (identTree prog aliases id) = formatIdent prog aliases id := by
  unfold identTree formatIdent
  cases prog.info.uses id with
  | none => rfl
  | some obj =>
      cases h : aliases.lookup obj.decl with
      | some c => simp [h, render]
      | none => cases hk : obj.kind <;> simp [h, hk, render]

theorem render_memberTree (b : CTree) (op field : Text) :
    render (memberTree b op field) = render b ++ op ++ field := by
  unfold memberTree
  split
  · rename_i f i heq
    split
    · rename_i hlast
      have hfield : field = f ++ '[' :: i := by
        rw [List.span_eq_takeWhile_dropWhile, Prod.mk.injEq] at heq
        rw [← heq.1, ← heq.2, List.takeWhile_append_dropWhile]
      obtain ⟨j, rfl⟩ := List.getLast?_eq_some_iff.mp hlast
      simp [render, hfield]
    · rfl
  · rfl

theorem renderArgs_eq_join (args : List CTree) : renderArgs args = join ", " (args.map render) := by
  induction args with
  | nil => rfl
  | cons a rest ih =>
      cases rest with
      | nil => rfl
      | cons b rest => rw [renderArgs, ih]; rfl

theorem sequence_textOf (args : List (Result CTree)) :
    sequence (args.map textOf) = (sequence args).map (List.map render) := by
  induction args with
  | nil => rfl
  | cons a rest ih =>
      rw [List.map_cons, sequence, sequence, ih]
      cases a with
      | error e => rfl
      | ok c => cases sequence rest <;> rfl

/-- The text of a call of a named function. -/
theorem render_call (f : Text) (args : List CTree) :
    render (.call (name f) args) = f ++ "(" ++ join ", " (args.map render) ++ ")" := by
  rw [render, renderArgs_eq_join]
  rfl

@[simp] theorem render_addrOf (id : Ident) : render (addrOf id) = '&' :: id.name := rfl

@[simp] theorem render_sizeofDeref (e : CTree) :
    render (sizeofDeref e) = "sizeof(*" ++ render e ++ ")" := by
  simp [sizeofDeref, render]

@[simp] theorem join_singleton (sep a : Text) : join sep [a] = a := rfl

@[simp] theorem join_cons_cons (sep a b : Text) (rest : List Text) :
    join sep (a :: b :: rest) = a ++ sep ++ join sep (b :: rest) := rfl

theorem conversionCall_textOf (prog : Program) (fn : Expr) (args : List (Result CTree)) :
    conversionCall prog fn (args.map textOf) = textOf? (conversionTree prog fn args) := by
  unfold conversionCall conversionTree
  cases conversionType fn with
  | none => rfl
  | some cType =>
      rcases args with _ | ⟨a, _ | ⟨b, rest⟩⟩
      · rfl
      · cases a with
        | error e => rfl
        | ok c =>
            simp [bind, Except.bind, pure, Except.pure, render, typeText, typePieces, joinPieces]
      · rfl

theorem unsafePointerCall_textOf (prog : Program) (fn : Expr) (args : List (Result CTree)) :
    unsafePointerCall prog fn (args.map textOf) = textOf? (unsafePointerTree prog fn args) := by
  unfold unsafePointerCall unsafePointerTree
  split_ifs
  · rcases args with _ | ⟨a, _ | ⟨b, rest⟩⟩
    · rfl
    · cases a <;> rfl
    · rfl
  · rfl

theorem ringbufMethodCall_textOf (prog : Program) (fn : Expr) (args : List (Result CTree)) :
    ringbufMethodCall prog fn (args.map textOf) = textOf? (ringbufMethodTree prog fn args) := by
  unfold ringbufMethodCall ringbufMethodTree
  cases methodOf prog id fn with
  | none => rfl
  | some m =>
      rcases args with _ | ⟨a, _ | ⟨b, rest⟩⟩
      · dsimp only [List.map_nil]
        split_ifs <;> rfl
      · cases a with
        | error e =>
            dsimp only [List.map_cons, List.map_nil, textOf_error]
            split_ifs <;> rfl
        | ok c =>
            dsimp only [List.map_cons, List.map_nil, textOf_ok]
            split_ifs <;> simp [render_call, bind, Except.bind, pure, Except.pure]
      · dsimp only [List.map_cons]
        split_ifs <;> rfl

theorem queueLikeMethodCall_textOf (prog : Program) (fn : Expr) (args : List (Result CTree)) :
    queueLikeMethodCall prog fn (args.map textOf) = textOf? (queueLikeMethodTree prog fn args) := by
  unfold queueLikeMethodCall queueLikeMethodTree
  cases methodOf prog id fn with
  | none => rfl
  | some m =>
      rcases args with _ | ⟨a, _ | ⟨b, rest⟩⟩
      · dsimp only [List.map_nil]
        split_ifs <;> rfl
      · cases a with
        | error e =>
            dsimp only [List.map_cons, List.map_nil, textOf_error]
            split_ifs <;> rfl
        | ok c =>
            dsimp only [List.map_cons, List.map_nil, textOf_ok]
            split_ifs <;> simp [render_call, bind, Except.bind, pure, Except.pure]
      · dsimp only [List.map_cons]
        split_ifs <;> rfl

theorem progArrayMethodCall_textOf (prog : Program) (fn : Expr) (args : List (Result CTree)) :
    progArrayMethodCall prog fn (args.map textOf) = textOf? (progArrayMethodTree prog fn args) := by
  unfold progArrayMethodCall progArrayMethodTree
  cases methodOf prog id fn with
  | none => rfl
  | some m =>
      dsimp only
      split_ifs
      · rcases args with _ | ⟨a, _ | ⟨b, _ | ⟨c, rest⟩⟩⟩
        · rfl
        · rfl
        · cases a <;> cases b <;>
            simp [render_call, bind, Except.bind, pure, Except.pure]
        · rfl
      · rfl

theorem perfEventArrayMethodCall_textOf (prog : Program) (fn : Expr) (args : List (Result CTree)) :
    perfEventArrayMethodCall prog fn (args.map textOf) = textOf? (perfEventArrayMethodTree prog fn args) := by
  unfold perfEventArrayMethodCall perfEventArrayMethodTree
  cases methodOf prog id fn with
  | none => rfl
  | some m =>
      dsimp only
      split_ifs
      · rcases args with _ | ⟨a, _ | ⟨b, _ | ⟨c, rest⟩⟩⟩
        · rfl
        · rfl
        · cases a <;> cases b <;>
            simp [render_call, bind, Except.bind, pure, Except.pure]
        · rfl
      · rfl

theorem storageMethodCall_textOf (prog : Program) (fn : Expr) (args : List (Result CTree)) :
    storageMethodCall prog fn (args.map textOf) = textOf? (storageMethodTree prog fn args) := by
  unfold storageMethodCall storageMethodTree
  cases storageMapInfo prog fn with
  | none => rfl
  | some info =>
      obtain ⟨m, valType, getFn, deleteFn⟩ := info
      dsimp only
      split_ifs
      · rcases args with _ | ⟨a, _ | ⟨b, _ | ⟨c, rest⟩⟩⟩
        · rfl
        · rfl
        · cases a <;> cases b <;> simp [render_call, bind, Except.bind, pure, Except.pure]
        · rfl
      · rcases args with _ | ⟨a, _ | ⟨b, rest⟩⟩
        · rfl
        · cases a <;> simp [render_call, bind, Except.bind, pure, Except.pure]
        · rfl
      · rcases args with _ | ⟨a, _ | ⟨b, rest⟩⟩
        · rfl
        · cases a <;> simp [render_call, bind, Except.bind, pure, Except.pure]
        · rfl
      · rfl

theorem redirectMapCall_textOf (prog : Program) (fn : Expr) (args : List (Result CTree)) :
    redirectMapCall prog fn (args.map textOf) = textOf? (redirectMapTree prog fn args) := by
  unfold redirectMapCall redirectMapTree
  cases methodOf prog stripPointer fn with
  | none => rfl
  | some m =>
      dsimp only
      split_ifs
      · rcases args with _ | ⟨a, _ | ⟨b, _ | ⟨c, _ | ⟨d, rest⟩⟩⟩⟩
        · rfl
        · rfl
        · rfl
        · cases b <;> cases c <;> simp [render_call, bind, Except.bind, pure, Except.pure]
        · rfl
      · rfl

theorem mapCall_textOf (prog : Program) (fn : Expr) (args : List (Result CTree)) :
    mapCall prog fn (args.map textOf) = textOf? (mapTree prog fn args) := by
  unfold mapCall mapTree
  cases mapMethodCall prog fn with
  | none => rfl
  | some info =>
      obtain ⟨m, valType, helper⟩ := info
      dsimp only
      rw [sequence_textOf]
      cases sequence args with
      | error e => rfl
      | ok as =>
          simp only [Except.map, bind, Except.bind, pure, Except.pure]
          split_ifs <;> simp [render_call]

theorem bpfHelperExpansions_eq (fn : Text) (args : List CTree) :
    bpfHelperExpansions fn (args.map render) = (expansionTree fn args).map textOf := by
  unfold bpfHelperExpansions expansionTree
  rcases args with _ | ⟨a, _ | ⟨b, _ | ⟨c, rest⟩⟩⟩
  all_goals
    dsimp only [List.map_cons, List.map_nil]
    split_ifs
    all_goals
      simp [nullaryCall, render, renderArgs, gap, typeText, typePieces, joinPieces, errorf]

theorem bpfCall_textOf (prog : Program) (fn : Expr) (args : List (Result CTree)) :
    bpfCall prog fn (args.map textOf) = textOf? (bpfTree prog fn args) := by
  unfold bpfCall bpfTree
  cases bpfFunction prog fn with
  | none => rfl
  | some f =>
      dsimp only
      rw [sequence_textOf]
      cases sequence args with
      | error e => rfl
      | ok as =>
          simp only [Except.map, bind, Except.bind, pure, Except.pure, bpfHelperExpansions_eq]
          cases expansionTree f as with
          | none => simp [render_call]
          | some r => cases r <;> simp [textOf, Except.map]

theorem userCall_textOf (fn : Result CTree) (args : List (Result CTree)) :
    userCall (textOf fn) (args.map textOf) = textOf (userTree fn args) := by
  unfold userCall userTree
  rw [sequence_textOf]
  cases fn with
  | error e => rfl
  | ok c =>
      cases sequence args with
      | error e => rfl
      | ok as => simp [Except.map, bind, Except.bind, pure, Except.pure, render, renderArgs_eq_join]

theorem formatCall_textOf (prog : Program) (fn : Expr) (fnTree : Result CTree)
    (args : List (Result CTree)) :
    formatCall prog fn (textOf fnTree) (args.map textOf) =
      textOf (callTree prog fn fnTree args) :=
  textOf_orTry (conversionCall_textOf prog fn args) <|
  textOf_orTry (unsafePointerCall_textOf prog fn args) <|
  textOf_orTry (ringbufMethodCall_textOf prog fn args) <|
  textOf_orTry (queueLikeMethodCall_textOf prog fn args) <|
  textOf_orTry (progArrayMethodCall_textOf prog fn args) <|
  textOf_orTry (perfEventArrayMethodCall_textOf prog fn args) <|
  textOf_orTry (storageMethodCall_textOf prog fn args) <|
  textOf_orTry (redirectMapCall_textOf prog fn args) <|
  textOf_orTry (mapCall_textOf prog fn args) <|
  textOf_orTry (bpfCall_textOf prog fn args) <|
  userCall_textOf fnTree args

theorem coreReadChain_textOf (prog : Program) (sel : Expr) (base : Result CTree) :
    coreReadChain prog sel (textOf base) = textOf? (coreReadTree prog sel base) := by
  unfold coreReadChain coreReadTree
  cases coreReadFields prog sel [] with
  | error e => rfl
  | ok fields =>
      cases fields with
      | none => rfl
      | some fs =>
          have hmap : List.map (render ∘ name) fs = fs := by
            have : render ∘ name = id := rfl
            rw [this, List.map_id]
          cases base with
          | error e => rfl
          | ok b => simp [bind, Except.bind, pure, Except.pure, render_call, hmap]

theorem formatSelector_textOf (prog : Program) (x : Expr) (sel : Ident)
    (tree base : Result CTree) :
    formatSelector prog x sel (textOf tree) (textOf base) =
      textOf (selectorTree prog x sel tree base) := by
  unfold formatSelector selectorTree
  cases bpfConstant prog x sel with
  | some c => simp
  | none =>
      refine textOf_orTry (coreReadChain_textOf prog _ base) ?_
      cases tree with
      | error e => rfl
      | ok b => simp [bind, Except.bind, pure, Except.pure, render_memberTree]

theorem formatUnary_textOf (prog : Program) (pos : Pos) (op : UnaryOp) (x : Result CTree) :
    formatUnary prog pos op (textOf x) = textOf (unaryTree prog pos op x) := by
  unfold formatUnary unaryTree
  cases x with
  | error e => rfl
  | ok c => cases unaryText op <;> rfl

theorem formatBinary_textOf (x : Result CTree) (op : BinaryOp) (y : Result CTree) :
    formatBinary (textOf x) op (textOf y) = textOf (binaryTree x op y) := by
  cases x with
  | error e => rfl
  | ok l =>
      cases y with
      | error e => rfl
      | ok r => simp [formatBinary, binaryTree, bind, Except.bind, pure, Except.pure, render, gap]

/-- Both components of a formatted node, rendered. -/
def Formatted.rendered (f : Formatted CTree) : Formatted Text := ⟨textOf f.text, textOf f.base⟩

theorem rendered_plain (r : Result CTree) :
    (Formatted.plain r).rendered = Formatted.plain (textOf r) := rfl

mutual
theorem formatNode_eq (prog : Program) (aliases : Aliases) :
    ∀ e : Expr, formatNode prog aliases e = (nodeTree prog aliases e).rendered
  | .basicLit _ _ value => rfl
  | .ident id => by
      rw [formatNode, nodeTree, rendered_plain, textOf_ok, render_identTree]
  | .selector x sel => by
      rw [formatNode, nodeTree, formatNode_eq prog aliases x]
      simp only [Formatted.rendered, formatSelector_textOf]
  | .unary pos op x => by
      rw [formatNode, nodeTree, rendered_plain, formatNode_eq prog aliases x, ← formatUnary_textOf]
      rfl
  | .binary x op y => by
      rw [formatNode, nodeTree, rendered_plain, formatNode_eq prog aliases x,
        formatNode_eq prog aliases y, ← formatBinary_textOf]
      rfl
  | .call fn args => by
      rw [formatNode, nodeTree, rendered_plain, formatNode_eq prog aliases fn,
        formatNodes_eq prog aliases args, ← formatCall_textOf]
      rfl
  | .paren _ x => by
      rw [formatNode, nodeTree, rendered_plain, formatNode_eq prog aliases x, Formatted.rendered]
      cases (nodeTree prog aliases x).text with
      | error e => rfl
      | ok c => rfl
  | .index x i => by
      rw [formatNode, nodeTree, rendered_plain, formatNode_eq prog aliases x,
        formatNode_eq prog aliases i, Formatted.rendered, Formatted.rendered]
      cases (nodeTree prog aliases x).text with
      | error e => rfl
      | ok c => cases (nodeTree prog aliases i).text <;> rfl
  | .star _ x => by
      rw [formatNode, nodeTree, rendered_plain, formatNode_eq prog aliases x, Formatted.rendered]
      cases (nodeTree prog aliases x).text with
      | error e => rfl
      | ok c => rfl
  | .other kind pos _ => rfl

theorem formatNodes_eq (prog : Program) (aliases : Aliases) :
    ∀ es : List Expr, formatNodes prog aliases es = (nodeTrees prog aliases es).map textOf
  | [] => rfl
  | e :: rest => by
      rw [formatNodes, nodeTrees, List.map_cons, formatNode_eq prog aliases e,
        formatNodes_eq prog aliases rest]
      rfl
end

/-- **The emitted text is the rendering of the operator tree.** -/
theorem formatExpr_eq (prog : Program) (aliases : Aliases) (e : Expr) :
    formatExpr prog aliases e = textOf (exprTree prog aliases e) := by
  rw [formatExpr, formatNode_eq]
  rfl

/-! ## Reading the emitted text back -/

/-- **When operator structure survives.**  The text `formatExpr` emits, read with C's
precedence and associativity, has the operator tree of the Go expression exactly when

* no two neighbouring tokens of it fuse, and
* in the Go expression every operand binds, by C's levels, at least as tightly as the
  place where it stands asks for (`Fits`): a left operand as tightly as its operator, a
  right operand more tightly, and so on. -/
theorem formatExpr_readBack_iff (prog : Program) (aliases : Aliases) (e : Expr) (s : Text)
    (h : formatExpr prog aliases e = .ok s) :
    ∃ t, exprTree prog aliases e = .ok t ∧
      (readBack s = some (erase t) ↔ Separated (pieces t false) ∧ Fits t) := by
  rw [formatExpr_eq] at h
  cases ht : exprTree prog aliases e with
  | error f => rw [ht] at h; cases h
  | ok t =>
      rw [ht, textOf_ok, Except.ok.injEq] at h
      subst h
      exact ⟨t, rfl, readBack_iff t⟩

/-- A program without declarations. -/
def emptyProgram (info : Info) : Program where
  position := fun p => ⟨"x.go", 1, p⟩
  imports := []
  info := info
  license := "GPL"
  maps := []
  programs := []
  helpers := []
  types := []
  consts := []

/-- Every identifier is a parameter of one type. -/
def paramInfo (t : GoType) : Info where
  uses := fun id => some ⟨⟨id.name, 1⟩, .var, t⟩
  defs := []
  typeOf := fun _ => some t
  underlying := fun _ _ => .other

/-- The identifier of a one-letter variable. -/
def var (c : Char) (pos : Pos) : Expr := .ident ⟨[c], pos⟩

/-- Go's `a & b == c`, which Go reads as `(a & b) == c`. -/
def maskTest : Expr := .binary (.binary (var 'a' 10) .and (var 'b' 14)) .eql (var 'c' 19)

/-- The mask test is emitted as `a & b == c`, which C reads as `a & (b == c)`. -/
theorem maskTest_regroups :
    formatExpr (emptyProgram (paramInfo (.basic .uint32))) [] maskTest = .ok "a & b == c" ∧
    exprTree (emptyProgram (paramInfo (.basic .uint32))) [] maskTest =
      .ok (.binary true "==" (.binary true "&" (.leaf ['a'] (some ⟨['a'], 10⟩))
        (.leaf ['b'] (some ⟨['b'], 14⟩))) (.leaf ['c'] (some ⟨['c'], 19⟩))) ∧
    readBack "a & b == c" =
      some (.binary true "&" (.leaf ['a'] ()) (.binary true "==" (.leaf ['b'] ())
        (.leaf ['c'] ()))) ∧
    readBack "a & b == c" ≠
      some (.binary true "==" (.binary true "&" (.leaf ['a'] ()) (.leaf ['b'] ()))
        (.leaf ['c'] ())) := by
  have hread : readBack "a & b == c" =
      some (.binary true "&" (.leaf ['a'] ()) (.binary true "==" (.leaf ['b'] ())
        (.leaf ['c'] ()))) := rfl
  refine ⟨rfl, rfl, hread, ?_⟩
  rw [hread]
  simp

/-- Go's `a + b * c` keeps its structure: both languages bind `*` more tightly. -/
theorem sumOfProduct_readBack :
    formatExpr (emptyProgram (paramInfo (.basic .uint32))) []
      (.binary (var 'a' 10) .add (.binary (var 'b' 14) .mul (var 'c' 18))) =
        .ok "a + b * c" ∧
    ∃ t, exprTree (emptyProgram (paramInfo (.basic .uint32))) []
        (.binary (var 'a' 10) .add (.binary (var 'b' 14) .mul (var 'c' 18))) = .ok t ∧
      (readBack "a + b * c" = some (erase t) ↔ Separated (pieces t false) ∧ Fits t) :=
  ⟨rfl, formatExpr_readBack_iff _ _ _ _ rfl⟩

end Gobee
