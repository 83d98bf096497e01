/-
# Renaming the identifiers of a tree

A renaming gives the identifiers of a tree new names.  The text around them moves, so it
also moves the positions.

* `inspect_rename` : `ast.Inspect` visits the renamed nodes in the same order;
* `closed_stmt` : the nodes of a statement contain the nodes below each of them;
* `rename_inverse` : **a renaming that is undone on the identifiers of a tree is undone on
  the tree.**
-/
import Gobee.GoSyntax

namespace Gobee

/-! ## Renaming -/

/-- What becomes of the identifiers and of the positions. -/
structure Renaming where
  ident : Ident → Ident
  pos : Pos → Pos


mutual
/-- Rename the identifiers of an expression. -/
def Expr.rename (f : Renaming) : Expr → Expr
  | .basicLit pos kind value => .basicLit (f.pos pos) kind value
  | .ident id => .ident (f.ident id)
  | .selector x sel => .selector (x.rename f) (f.ident sel)
  | .unary pos op x => .unary (f.pos pos) op (x.rename f)
  | .binary x op y => .binary (x.rename f) op (y.rename f)
  | .call fn args => .call (fn.rename f) (renameExprs f args)
  | .paren pos x => .paren (f.pos pos) (x.rename f)
  | .index x i => .index (x.rename f) (i.rename f)
  | .star pos x => .star (f.pos pos) (x.rename f)
  | .other kind pos children => .other kind (f.pos pos) (renameNodes f children)

/-- Rename the identifiers of some expressions. -/
def renameExprs (f : Renaming) : List Expr → List Expr
  | [] => []
  | e :: rest => e.rename f :: renameExprs f rest

/-- Rename the identifiers of an optional expression. -/
def renameExpr? (f : Renaming) : Option Expr → Option Expr
  | none => none
  | some e => some (e.rename f)

/-- Rename the identifiers of a specification. -/
def ValueSpec.rename (f : Renaming) : ValueSpec → ValueSpec
  | .mk names type values => .mk (names.map f.ident) (renameExpr? f type) (renameExprs f values)

/-- Rename the identifiers of some specifications. -/
def renameSpecs (f : Renaming) : List ValueSpec → List ValueSpec
  | [] => []
  | v :: rest => v.rename f :: renameSpecs f rest

/-- Rename the identifiers of a statement. -/
def Stmt.rename (f : Renaming) : Stmt → Stmt
  | .decl pos tok specs => .decl (f.pos pos) tok (renameSpecs f specs)
  | .assign lhs tok rhs => .assign (renameExprs f lhs) tok (renameExprs f rhs)
  | .ifs pos init cond body els =>
      .ifs (f.pos pos) (renameStmt? f init) (cond.rename f) (renameStmts f body) (renameStmt? f els)
  | .ret pos results => .ret (f.pos pos) (renameExprs f results)
  | .expr x => .expr (x.rename f)
  | .fors pos init cond post body =>
      .fors (f.pos pos) (renameStmt? f init) (renameExpr? f cond) (renameStmt? f post)
        (renameStmts f body)
  | .block pos list => .block (f.pos pos) (renameStmts f list)
  | .incDec x inc => .incDec (x.rename f) inc
  | .other kind pos children => .other kind (f.pos pos) (renameNodes f children)

/-- Rename the identifiers of some statements. -/
def renameStmts (f : Renaming) : List Stmt → List Stmt
  | [] => []
  | s :: rest => s.rename f :: renameStmts f rest

/-- Rename the identifiers of an optional statement. -/
def renameStmt? (f : Renaming) : Option Stmt → Option Stmt
  | none => none
  | some s => some (s.rename f)

/-- Rename the identifiers of a child. -/
def Node.rename (f : Renaming) : Node → Node
  | .expr e => .expr (e.rename f)
  | .stmt s => .stmt (s.rename f)

/-- Rename the identifiers of some children. -/
def renameNodes (f : Renaming) : List Node → List Node
  | [] => []
  | n :: rest => n.rename f :: renameNodes f rest
end

/-- Rename the identifiers of a field. -/
def Field.rename (f : Renaming) (field : Field) : Field :=
  ⟨field.names.map f.ident, field.type.rename f⟩

/-- Rename the identifiers of a field list. -/
def FieldList.rename (f : Renaming) (fl : FieldList) : FieldList :=
  ⟨f.pos fl.pos, fl.list.map (Field.rename f)⟩

/-- Rename the identifiers of a body. -/
def Body.rename (f : Renaming) (body : Body) : Body :=
  ⟨f.pos body.lbrace, renameStmts f body.list, f.pos body.rbrace⟩

/-- Rename the identifiers of a function. -/
def FuncDecl.rename (f : Renaming) (fd : FuncDecl) : FuncDecl where
  pos := f.pos fd.pos
  name := f.ident fd.name
  recv := fd.recv.map (FieldList.rename f)
  typeParams := fd.typeParams.map (FieldList.rename f)
  params := fd.params.map (FieldList.rename f)
  results := fd.results.map (FieldList.rename f)
  body := fd.body.map (Body.rename f)

section

variable {f g : Renaming}

theorem renameExprs_eq (es : List Expr) : renameExprs f es = es.map (Expr.rename f) := by
  induction es with
  | nil => rfl
  | cons e es ih => rw [renameExprs, ih, List.map_cons]

theorem renameSpecs_eq (specs : List ValueSpec) :
    renameSpecs f specs = specs.map (ValueSpec.rename f) := by
  induction specs with
  | nil => rfl
  | cons v specs ih => rw [renameSpecs, ih, List.map_cons]

theorem renameStmt?_eq (s : Option Stmt) : renameStmt? f s = s.map (Stmt.rename f) := by
  cases s with
  | none => rfl
  | some s => rfl

theorem names_rename (v : ValueSpec) : (v.rename f).names = v.names.map f.ident := by
  cases v with
  | mk names type values => rfl

theorem values_rename (v : ValueSpec) : (v.rename f).values = v.values.map (Expr.rename f) := by
  cases v with
  | mk names type values => exact renameExprs_eq values

/-! ## The nodes of a renamed tree -/

theorem inspectIdents_rename (names : List Ident) :
    (names.map f.ident).map (fun n => Node.expr (.ident n)) =
      (names.map fun n => Node.expr (.ident n)).map (Node.rename f) := by
  rw [List.map_map, List.map_map]
  rfl

mutual
/-- `ast.Inspect` visits the renamed nodes in the same order. -/
theorem inspect_rename : ∀ e : Expr,
    inspectExpr (e.rename f) = (inspectExpr e).map (Node.rename f)
  | .basicLit _ _ _ => rfl
  | .ident _ => rfl
  | .selector x sel => by
      rw [Expr.rename, inspectExpr, inspectExpr, inspect_rename x, List.map_cons, List.map_append]
      rfl
  | .unary _ _ x => by
      rw [Expr.rename, inspectExpr, inspectExpr, inspect_rename x, List.map_cons]
      rfl
  | .binary x _ y => by
      rw [Expr.rename, inspectExpr, inspectExpr, inspect_rename x, inspect_rename y,
        List.map_cons, List.map_append]
      rfl
  | .call fn args => by
      rw [Expr.rename, inspectExpr, inspectExpr, inspect_rename fn, inspectExprs_rename args,
        List.map_cons, List.map_append]
      rfl
  | .paren _ x => by
      rw [Expr.rename, inspectExpr, inspectExpr, inspect_rename x, List.map_cons]
      rfl
  | .index x i => by
      rw [Expr.rename, inspectExpr, inspectExpr, inspect_rename x, inspect_rename i,
        List.map_cons, List.map_append]
      rfl
  | .star _ x => by
      rw [Expr.rename, inspectExpr, inspectExpr, inspect_rename x, List.map_cons]
      rfl
  | .other _ _ children => by
      rw [Expr.rename, inspectExpr, inspectExpr, inspectNodes_rename children, List.map_cons]
      rfl

theorem inspectExprs_rename : ∀ es : List Expr,
    inspectExprs (renameExprs f es) = (inspectExprs es).map (Node.rename f)
  | [] => rfl
  | e :: rest => by
      rw [renameExprs, inspectExprs, inspectExprs, inspect_rename e, inspectExprs_rename rest,
        List.map_append]

theorem inspectExpr?_rename : ∀ e : Option Expr,
    inspectExpr? (renameExpr? f e) = (inspectExpr? e).map (Node.rename f)
  | none => rfl
  | some e => inspect_rename e

theorem inspectSpec_rename : ∀ v : ValueSpec,
    inspectSpec (v.rename f) = (inspectSpec v).map (Node.rename f)
  | .mk names type values => by
      rw [ValueSpec.rename, inspectSpec, inspectSpec, inspectExpr?_rename type,
        inspectExprs_rename values, List.map_append, List.map_append, inspectIdents_rename]

theorem inspectSpecs_rename : ∀ specs : List ValueSpec,
    inspectSpecs (renameSpecs f specs) = (inspectSpecs specs).map (Node.rename f)
  | [] => rfl
  | v :: rest => by
      rw [renameSpecs, inspectSpecs, inspectSpecs, inspectSpec_rename v, inspectSpecs_rename rest,
        List.map_append]

theorem inspectStmt_rename : ∀ s : Stmt,
    inspectStmt (s.rename f) = (inspectStmt s).map (Node.rename f)
  | .decl _ _ specs => by
      rw [Stmt.rename, inspectStmt, inspectStmt, inspectSpecs_rename specs, List.map_cons]
      rfl
  | .assign lhs _ rhs => by
      rw [Stmt.rename, inspectStmt, inspectStmt, inspectExprs_rename lhs,
        inspectExprs_rename rhs, List.map_cons, List.map_append]
      rfl
  | .ifs _ init cond body els => by
      rw [Stmt.rename, inspectStmt, inspectStmt, inspectStmt?_rename init, inspect_rename cond,
        inspectStmts_rename body, inspectStmt?_rename els, List.map_cons, List.map_append,
        List.map_append, List.map_append]
      rfl
  | .ret _ results => by
      rw [Stmt.rename, inspectStmt, inspectStmt, inspectExprs_rename results, List.map_cons]
      rfl
  | .expr x => by
      rw [Stmt.rename, inspectStmt, inspectStmt, inspect_rename x, List.map_cons]
      rfl
  | .fors _ init cond post body => by
      rw [Stmt.rename, inspectStmt, inspectStmt, inspectStmt?_rename init,
        inspectExpr?_rename cond, inspectStmt?_rename post, inspectStmts_rename body,
        List.map_cons, List.map_append, List.map_append, List.map_append]
      rfl
  | .block _ list => by
      rw [Stmt.rename, inspectStmt, inspectStmt, inspectStmts_rename list, List.map_cons]
      rfl
  | .incDec x _ => by
      rw [Stmt.rename, inspectStmt, inspectStmt, inspect_rename x, List.map_cons]
      rfl
  | .other _ _ children => by
      rw [Stmt.rename, inspectStmt, inspectStmt, inspectNodes_rename children, List.map_cons]
      rfl

theorem inspectStmts_rename : ∀ list : List Stmt,
    inspectStmts (renameStmts f list) = (inspectStmts list).map (Node.rename f)
  | [] => rfl
  | s :: rest => by
      rw [renameStmts, inspectStmts, inspectStmts, inspectStmt_rename s,
        inspectStmts_rename rest, List.map_append]

theorem inspectStmt?_rename : ∀ s : Option Stmt,
    inspectStmt? (renameStmt? f s) = (inspectStmt? s).map (Node.rename f)
  | none => rfl
  | some s => inspectStmt_rename s

theorem inspectNode_rename : ∀ n : Node,
    inspectNode (n.rename f) = (inspectNode n).map (Node.rename f)
  | .expr e => inspect_rename e
  | .stmt s => inspectStmt_rename s

theorem inspectNodes_rename : ∀ ns : List Node,
    inspectNodes (renameNodes f ns) = (inspectNodes ns).map (Node.rename f)
  | [] => rfl
  | n :: rest => by
      rw [renameNodes, inspectNodes, inspectNodes, inspectNode_rename n,
        inspectNodes_rename rest, List.map_append]
end

/-! ## The nodes below a node -/

/-- With a node the list has all nodes below it. -/
def Closed (nodes : List Node) : Prop := ∀ n ∈ nodes, inspectNode n ⊆ nodes

theorem Closed.nil : Closed [] := fun _ hn => nomatch hn

theorem Closed.append {nodes nodes' : List Node} (h : Closed nodes) (h' : Closed nodes') :
    Closed (nodes ++ nodes') := by
  intro n hn
  rcases List.mem_append.mp hn with hn | hn
  · exact fun m hm => List.mem_append_left _ (h n hn hm)
  · exact fun m hm => List.mem_append_right _ (h' n hn hm)

theorem Closed.cons {n : Node} {nodes : List Node} (h : Closed nodes)
    (hn : inspectNode n = n :: nodes) : Closed (n :: nodes) := by
  intro m hm
  rcases List.mem_cons.mp hm with rfl | hm
  · rw [hn]
    exact List.Subset.refl _
  · exact fun k hk => List.mem_cons_of_mem _ (h m hm hk)

theorem Closed.flatMap {α : Type} {xs : List α} {nodes : α → List Node}
    (h : ∀ x ∈ xs, Closed (nodes x)) : Closed (xs.flatMap nodes) := by
  intro n hn
  obtain ⟨x, hx, hn⟩ := List.mem_flatMap.mp hn
  exact fun m hm => List.mem_flatMap.mpr ⟨x, hx, h x hx n hn hm⟩

theorem closed_idents (names : List Ident) : Closed (names.map fun n => .expr (.ident n)) := by
  intro n hn m hm
  obtain ⟨id, hid, rfl⟩ := List.mem_map.mp hn
  rw [List.mem_singleton.mp hm]
  exact List.mem_map_of_mem hid

mutual
theorem closed_expr : ∀ e : Expr, Closed (inspectExpr e)
  | .basicLit _ _ _ => Closed.nil.cons rfl
  | .ident _ => Closed.nil.cons rfl
  | .selector x sel => ((closed_expr x).append (closed_idents [sel])).cons rfl
  | .unary _ _ x => (closed_expr x).cons rfl
  | .binary x _ y => ((closed_expr x).append (closed_expr y)).cons rfl
  | .call fn args => ((closed_expr fn).append (closed_exprs args)).cons rfl
  | .paren _ x => (closed_expr x).cons rfl
  | .index x i => ((closed_expr x).append (closed_expr i)).cons rfl
  | .star _ x => (closed_expr x).cons rfl
  | .other _ _ children => (closed_nodes children).cons rfl

theorem closed_exprs : ∀ es : List Expr, Closed (inspectExprs es)
  | [] => .nil
  | e :: rest => (closed_expr e).append (closed_exprs rest)

theorem closed_expr? : ∀ e : Option Expr, Closed (inspectExpr? e)
  | none => .nil
  | some e => closed_expr e

theorem closed_spec : ∀ v : ValueSpec, Closed (inspectSpec v)
  | .mk names type values =>
      ((closed_idents names).append (closed_expr? type)).append (closed_exprs values)

theorem closed_specs : ∀ specs : List ValueSpec, Closed (inspectSpecs specs)
  | [] => .nil
  | v :: rest => (closed_spec v).append (closed_specs rest)

theorem closed_stmt : ∀ s : Stmt, Closed (inspectStmt s)
  | .decl _ _ specs => (closed_specs specs).cons rfl
  | .assign lhs _ rhs => ((closed_exprs lhs).append (closed_exprs rhs)).cons rfl
  | .ifs _ init cond body els =>
      ((((closed_stmt? init).append (closed_expr cond)).append (closed_stmts body)).append
        (closed_stmt? els)).cons rfl
  | .ret _ results => (closed_exprs results).cons rfl
  | .expr x => (closed_expr x).cons rfl
  | .fors _ init cond post body =>
      ((((closed_stmt? init).append (closed_expr? cond)).append (closed_stmt? post)).append
        (closed_stmts body)).cons rfl
  | .block _ list => (closed_stmts list).cons rfl
  | .incDec x _ => (closed_expr x).cons rfl
  | .other _ _ children => (closed_nodes children).cons rfl

theorem closed_stmts : ∀ list : List Stmt, Closed (inspectStmts list)
  | [] => .nil
  | s :: rest => (closed_stmt s).append (closed_stmts rest)

theorem closed_stmt? : ∀ s : Option Stmt, Closed (inspectStmt? s)
  | none => .nil
  | some s => closed_stmt s

theorem closed_node : ∀ n : Node, Closed (inspectNode n)
  | .expr e => closed_expr e
  | .stmt s => closed_stmt s

theorem closed_nodes : ∀ ns : List Node, Closed (inspectNodes ns)
  | [] => .nil
  | n :: rest => (closed_node n).append (closed_nodes rest)
end

/-! ## Undoing a renaming -/

/-- The renaming is undone on the identifiers among some nodes. -/
structure UndoneOn (f g : Renaming) (nodes : List Node) : Prop where
  pos : ∀ p, g.pos (f.pos p) = p
  ident : ∀ id, Node.expr (.ident id) ∈ nodes → g.ident (f.ident id) = id

theorem UndoneOn.mono {nodes nodes' : List Node} (h : UndoneOn f g nodes)
    (hsub : nodes' ⊆ nodes) : UndoneOn f g nodes' := ⟨h.pos, fun id hid => h.ident id (hsub hid)⟩

theorem undoneOn_cons {n : Node} {nodes : List Node} (h : UndoneOn f g (n :: nodes)) :
    UndoneOn f g nodes := h.mono fun _ hn => List.mem_cons_of_mem _ hn

theorem undoneOn_append {nodes nodes' : List Node} (h : UndoneOn f g (nodes ++ nodes')) :
    UndoneOn f g nodes ∧ UndoneOn f g nodes' :=
  ⟨h.mono fun _ hn => List.mem_append_left _ hn, h.mono fun _ hn => List.mem_append_right _ hn⟩

theorem names_inverse {names : List Ident}
    (h : UndoneOn f g (names.map fun n => Node.expr (.ident n))) :
    (names.map f.ident).map g.ident = names := by
  rw [List.map_map]
  refine (List.map_congr_left fun id hid => ?_).trans (List.map_id _)
  exact h.ident id (List.mem_map_of_mem (f := fun n => Node.expr (.ident n)) hid)

mutual
/-- **A renaming that is undone on the identifiers of a tree is undone on the tree.** -/
theorem rename_inverse : ∀ e : Expr, UndoneOn f g (inspectExpr e) → (e.rename f).rename g = e
  | .basicLit pos _ _, h => by rw [Expr.rename, Expr.rename, h.pos pos]
  | .ident id, h => congrArg Expr.ident (h.ident id List.mem_cons_self)
  | .selector x sel, h => by
      obtain ⟨hx, hsel⟩ := undoneOn_append (undoneOn_cons h)
      rw [Expr.rename, Expr.rename, rename_inverse x hx, hsel.ident sel List.mem_cons_self]
  | .unary pos _ x, h => by
      rw [Expr.rename, Expr.rename, h.pos pos, rename_inverse x (undoneOn_cons h)]
  | .binary x _ y, h => by
      obtain ⟨hx, hy⟩ := undoneOn_append (undoneOn_cons h)
      rw [Expr.rename, Expr.rename, rename_inverse x hx, rename_inverse y hy]
  | .call fn args, h => by
      obtain ⟨hfn, hargs⟩ := undoneOn_append (undoneOn_cons h)
      rw [Expr.rename, Expr.rename, rename_inverse fn hfn, renameExprs_inverse args hargs]
  | .paren pos x, h => by
      rw [Expr.rename, Expr.rename, h.pos pos, rename_inverse x (undoneOn_cons h)]
  | .index x i, h => by
      obtain ⟨hx, hi⟩ := undoneOn_append (undoneOn_cons h)
      rw [Expr.rename, Expr.rename, rename_inverse x hx, rename_inverse i hi]
  | .star pos x, h => by
      rw [Expr.rename, Expr.rename, h.pos pos, rename_inverse x (undoneOn_cons h)]
  | .other _ pos children, h => by
      rw [Expr.rename, Expr.rename, h.pos pos, renameNodes_inverse children (undoneOn_cons h)]

theorem renameExprs_inverse : ∀ es : List Expr,
    UndoneOn f g (inspectExprs es) → renameExprs g (renameExprs f es) = es
  | [], _ => rfl
  | e :: rest, h => by
      obtain ⟨he, hrest⟩ := undoneOn_append h
      rw [renameExprs, renameExprs, rename_inverse e he, renameExprs_inverse rest hrest]

theorem renameExpr?_inverse : ∀ e : Option Expr,
    UndoneOn f g (inspectExpr? e) → renameExpr? g (renameExpr? f e) = e
  | none, _ => rfl
  | some e, h => congrArg some (rename_inverse e h)

theorem spec_inverse : ∀ v : ValueSpec, UndoneOn f g (inspectSpec v) → (v.rename f).rename g = v
  | .mk names type values, h => by
      obtain ⟨hleft, hvalues⟩ := undoneOn_append h
      obtain ⟨hnames, htype⟩ := undoneOn_append hleft
      rw [ValueSpec.rename, ValueSpec.rename, names_inverse hnames, renameExpr?_inverse type htype,
        renameExprs_inverse values hvalues]

theorem renameSpecs_inverse : ∀ specs : List ValueSpec,
    UndoneOn f g (inspectSpecs specs) → renameSpecs g (renameSpecs f specs) = specs
  | [], _ => rfl
  | v :: rest, h => by
      obtain ⟨hv, hrest⟩ := undoneOn_append h
      rw [renameSpecs, renameSpecs, spec_inverse v hv, renameSpecs_inverse rest hrest]

theorem stmt_inverse : ∀ s : Stmt, UndoneOn f g (inspectStmt s) → (s.rename f).rename g = s
  | .decl pos _ specs, h => by
      rw [Stmt.rename, Stmt.rename, h.pos pos, renameSpecs_inverse specs (undoneOn_cons h)]
  | .assign lhs _ rhs, h => by
      obtain ⟨hlhs, hrhs⟩ := undoneOn_append (undoneOn_cons h)
      rw [Stmt.rename, Stmt.rename, renameExprs_inverse lhs hlhs, renameExprs_inverse rhs hrhs]
  | .ifs pos init cond body els, h => by
      obtain ⟨hleft, hels⟩ := undoneOn_append (undoneOn_cons h)
      obtain ⟨hleft, hbody⟩ := undoneOn_append hleft
      obtain ⟨hinit, hcond⟩ := undoneOn_append hleft
      rw [Stmt.rename, Stmt.rename, h.pos pos, renameStmt?_inverse init hinit,
        rename_inverse cond hcond,
        renameStmts_inverse body hbody, renameStmt?_inverse els hels]
  | .ret pos results, h => by
      rw [Stmt.rename, Stmt.rename, h.pos pos, renameExprs_inverse results (undoneOn_cons h)]
  | .expr x, h => by
      rw [Stmt.rename, Stmt.rename, rename_inverse x (undoneOn_cons h)]
  | .fors pos init cond post body, h => by
      obtain ⟨hleft, hbody⟩ := undoneOn_append (undoneOn_cons h)
      obtain ⟨hleft, hpost⟩ := undoneOn_append hleft
      obtain ⟨hinit, hcond⟩ := undoneOn_append hleft
      rw [Stmt.rename, Stmt.rename, h.pos pos, renameStmt?_inverse init hinit,
        renameExpr?_inverse cond hcond,
        renameStmt?_inverse post hpost, renameStmts_inverse body hbody]
  | .block pos list, h => by
      rw [Stmt.rename, Stmt.rename, h.pos pos, renameStmts_inverse list (undoneOn_cons h)]
  | .incDec x _, h => by
      rw [Stmt.rename, Stmt.rename, rename_inverse x (undoneOn_cons h)]
  | .other _ pos children, h => by
      rw [Stmt.rename, Stmt.rename, h.pos pos, renameNodes_inverse children (undoneOn_cons h)]

theorem renameStmts_inverse : ∀ list : List Stmt,
    UndoneOn f g (inspectStmts list) → renameStmts g (renameStmts f list) = list
  | [], _ => rfl
  | s :: rest, h => by
      obtain ⟨hs, hrest⟩ := undoneOn_append h
      rw [renameStmts, renameStmts, stmt_inverse s hs, renameStmts_inverse rest hrest]

theorem renameStmt?_inverse : ∀ s : Option Stmt,
    UndoneOn f g (inspectStmt? s) → renameStmt? g (renameStmt? f s) = s
  | none, _ => rfl
  | some s, h => congrArg some (stmt_inverse s h)

theorem node_inverse : ∀ n : Node, UndoneOn f g (inspectNode n) → (n.rename f).rename g = n
  | .expr e, h => congrArg Node.expr (rename_inverse e h)
  | .stmt s, h => congrArg Node.stmt (stmt_inverse s h)

theorem renameNodes_inverse : ∀ ns : List Node,
    UndoneOn f g (inspectNodes ns) → renameNodes g (renameNodes f ns) = ns
  | [], _ => rfl
  | n :: rest, h => by
      obtain ⟨hn, hrest⟩ := undoneOn_append h
      rw [renameNodes, renameNodes, node_inverse n hn, renameNodes_inverse rest hrest]
end

end

end Gobee
