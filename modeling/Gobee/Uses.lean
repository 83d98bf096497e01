/-
# How printed names are used

An emitted expression uses a name for its value, for its truth, for its address, or as
what an assignment writes to.  `reads` lists the names of a C tree that were printed for Go
identifiers, each with its use, and `reading` lists the identifiers of the Go expression
from which they come.  Helper names and other words of the emitter do not count.

* `reads_exprTree` : **the names in the tree of an expression are those of its
  identifiers, in order and in the same use.**
-/
import Gobee.ClosedCalls

namespace Gobee

open CSyntax

/-! ## Uses -/

/-- What a name is used for. -/
inductive Use where
  | value
  /-- only whether it is zero -/
  | truth
  | addr
  /-- the target of a plain assignment -/
  | store
  /-- the target of `+=`, `++` and the like -/
  | update
  /-- the target is a member or an element of it -/
  | part
  deriving DecidableEq, Repr

/-- The use of a variable of which a member or an element is used. -/
def Use.base : Use → Use
  | .value | .truth => .value
  | .addr => .addr
  | .store | .update | .part => .part

/-- The use of the operand of a unary operator. -/
def unaryUse (op : Text) : Use :=
  if op = ['!'] then .truth else if op = ['&'] then .addr else .value

/-- The use of the operands of a binary operator. -/
def binaryUse (op : Text) : Use := if op = "&&" ∨ op = "||" then .truth else .value

/-- The use of a value that is converted to a C type. -/
def typeUse (cType : Text) : Use := if cType = "bool" then .truth else .value

/-- The use of the operand of a cast. -/
def castUse (ty : List Text) : Use := if ty = ["bool"] then .truth else .value

/-- The use of a variable of which a member is used; an arrow reads the pointer. -/
def memberUse (op : Text) (u : Use) : Use := if op = ['.'] then u.base else .value

/-- The C types of the parameters of a function, one for each name or unnamed field. -/
def paramTypes (prog : Program) (fd : FuncDecl) : List Text :=
  (fieldsOf fd.params).flatMap fun f =>
    List.replicate (max 1 f.names.length)
      ((goTypeToC? (prog.info.typeOf f.type)).toOption.getD [])

/-- The use of the `i`-th argument of a function of the file: it is converted to the type
of the parameter. -/
def argUse (prog : Program) (callee : Option Ident) (i : Nat) : Use :=
  match callee.bind prog.info.uses with
  | some ⟨d, .func, _⟩ =>
      match (emittedFuncs prog).find? fun fd => fd.name = d with
      | some fd => typeUse (((paramTypes prog fd)[i]?).getD [])
      | none => .value
  | _ => .value

/-! ## Names in a tree -/

/-- A name that was printed for an identifier. -/
structure Leaf where
  use : Use
  word : Text
  id : Ident
  deriving DecidableEq, Repr

/-- The identifier a tree was printed for, if it is one name. -/
def treeTag : CTree → Option Ident
  | .leaf _ tag => tag
  | _ => none

section

variable (prog : Program)

mutual
/-- The names in a tree with their uses, in the order of the text. -/
def reads : Use → CTree → List Leaf
  | u, .leaf w (some id) => [⟨u, w, id⟩]
  | _, .leaf _ none => []
  | u, .paren e => reads u e
  | _, .unary op e => reads (unaryUse op) e
  | _, .post e _ => reads .update e
  | _, .binary _ op l r => reads (binaryUse op) l ++ reads (binaryUse op) r
  | u, .index b i => reads u.base b ++ reads .value i
  | u, .member b op _ => reads (memberUse op u) b
  | _, .call f args => reads .value f ++ readsArgs (argUse prog (treeTag f)) args
  | _, .cast ty e => reads (castUse ty) e

/-- The names in a list of arguments. -/
def readsArgs : (Nat → Use) → List CTree → List Leaf
  | _, [] => []
  | use, a :: rest => reads (use 0) a ++ readsArgs (fun i => use (i + 1)) rest
end

/-! ## Identifiers of an expression -/

/-- An identifier that is printed: as an expression, or as the receiver of a map method. -/
structure Mention where
  use : Use
  recv : Bool
  id : Ident
  deriving DecidableEq, Repr

/-- The identifiers of an expression, given its use, and the identifier it is. -/
structure Reading where
  tag : Option Ident
  mentions : Use → List Mention

/-- Nothing is read. -/
def Reading.nothing : Reading := ⟨none, fun _ => []⟩

/-- The reading of the `i`-th argument. -/
def argReading (rs : List Reading) (i : Nat) : Reading := (rs[i]?).getD .nothing

/-- The identifiers of a part of an argument list. -/
def ArgPart.mentions (rs : List Reading) : ArgPart → List Mention
  | .word _ => []
  | .addr id => [⟨.addr, true, id⟩]
  | .arg i | .sizeofArg i => (argReading rs i).mentions .value
  | .castArg ty i => (argReading rs i).mentions (castUse ty)

/-- The identifiers of the arguments of a function of the file. -/
def argsMentions : (Nat → Use) → List Reading → List Mention
  | _, [] => []
  | use, r :: rest => r.mentions (use 0) ++ argsMentions (fun i => use (i + 1)) rest

/-- The reading of a call in its form. -/
def CallForm.reading (fn : Reading) (args : List Reading) : CallForm → Reading
  | .cast cType => ⟨none, fun _ => (argReading args 0).mentions (castUse [cType])⟩
  | .bare => argReading args 0
  | .sugar _ => .nothing
  | .helper _ parts => ⟨none, fun _ => parts.flatMap (ArgPart.mentions args)⟩
  | .user => ⟨none, fun _ => fn.mentions .value ++ argsMentions (argUse prog fn.tag) args⟩

mutual
/-- **The identifiers of an expression that are printed, with their uses.** -/
def reading : Expr → Reading
  | .basicLit _ _ _ => .nothing
  | .ident id => ⟨some id, fun u => [⟨u, false, id⟩]⟩
  | .selector x sel =>
      ⟨none, fun u =>
        if (bpfConstant prog x sel).isSome then []
        else (reading x).mentions (memberUse (memberAccess prog x sel).1 u)⟩
  | .unary _ op x => ⟨none, fun _ => (reading x).mentions (unaryUse ((unaryText op).getD []))⟩
  | .binary x op y =>
      ⟨none, fun _ =>
        (reading x).mentions (binaryUse op.string) ++ (reading y).mentions (binaryUse op.string)⟩
  | .call fn args => (callForm prog fn args.length).reading prog (reading fn) (readings args)
  | .paren _ x => ⟨none, fun u => (reading x).mentions u⟩
  | .index x i => ⟨none, fun u => (reading x).mentions u.base ++ (reading i).mentions .value⟩
  | .star _ x => ⟨none, fun _ => (reading x).mentions .value⟩
  | .other _ _ _ => .nothing

/-- The readings of a list of expressions. -/
def readings : List Expr → List Reading
  | [] => []
  | e :: rest => reading e :: readings rest
end

/-- What an identifier is printed as. -/
def Mention.print (aliases : Aliases) (o : Mention) : List Leaf :=
  if o.recv then [⟨o.use, o.id.name, o.id⟩] else reads prog o.use (identTree prog aliases o.id)

end

/-! ## The names of an expression -/

section

variable {prog : Program} {aliases : Aliases} {u : Use}

/-- The tree has the names of the reading. -/
structure Reads (prog : Program) (aliases : Aliases) (t : CTree) (r : Reading) : Prop where
  names (u : Use) : reads prog u t = (r.mentions u).flatMap (Mention.print prog aliases)
  tag : argUse prog (treeTag t) = argUse prog r.tag

@[simp] theorem reads_name (w : Text) : reads prog u (name w) = [] := by rw [name, reads]

@[simp] theorem argUse_none : argUse prog none = fun _ => .value := rfl

theorem reads_numberTree (w : Text) :
    reads prog u (numberTree w) = [] ∧ treeTag (numberTree w) = none := by
  unfold numberTree
  split
  · exact ⟨by rw [reads, reads_name], rfl⟩
  · exact ⟨reads_name _, rfl⟩

theorem reads_constTree (v : ConstVal) :
    reads prog u (constTree v) = [] ∧ treeTag (constTree v) = none := by
  unfold constTree
  split
  · exact reads_numberTree _
  · exact ⟨by rw [reads, (reads_numberTree _).1, reads_name]; rfl, rfl⟩
  · exact ⟨reads_name _, rfl⟩

/-- An identifier is printed as one name or as its constant value. -/
theorem identTree_cases (id : Ident) :
    (∃ w, identTree prog aliases id = .leaf w (some id)) ∨
      ∃ d v t, prog.info.uses id = some ⟨d, .const v, t⟩ ∧
        identTree prog aliases id = constTree v := by
  unfold identTree
  split
  · exact .inl ⟨_, rfl⟩
  · rename_i obj huses
    split
    · exact .inl ⟨_, rfl⟩
    · split
      · rename_i v hkind
        obtain ⟨d, k, t⟩ := obj
        cases hkind
        exact .inr ⟨d, v, t, huses, rfl⟩
      · exact .inl ⟨_, rfl⟩

/-- A constant is no function. -/
theorem argUse_identTree (id : Ident) :
    argUse prog (treeTag (identTree prog aliases id)) = argUse prog (some id) := by
  rcases @identTree_cases prog aliases id with ⟨w, hw⟩ | ⟨d, v, t, huses, hconst⟩
  · rw [hw]
    rfl
  · rw [hconst, (@reads_constTree prog .value v).2]
    funext i
    simp only [argUse, Option.bind_some, Option.bind_none, huses]

theorem reads_ident (id : Ident) :
    Reads prog aliases (identTree prog aliases id) (reading prog (.ident id)) := by
  refine ⟨fun u => ?_, argUse_identTree id⟩
  simp [reading, Mention.print]

theorem memberUse_base (op : Text) : memberUse op u.base = memberUse op u := by
  unfold memberUse
  split_ifs
  · cases u <;> rfl
  · rfl

theorem reads_memberTree (b : CTree) (op f : Text) :
    reads prog u (memberTree b op f) = reads prog (memberUse op u) b ∧
      treeTag (memberTree b op f) = none := by
  unfold memberTree
  split
  · split
    · refine ⟨?_, rfl⟩
      rw [reads, reads, reads_name, List.append_nil, memberUse_base]
    · exact ⟨by rw [reads], rfl⟩
  · exact ⟨by rw [reads], rfl⟩

/-- The sugar functions print no identifier. -/
theorem reads_sugar {fn : Expr} {nargs : Nat} {t : CTree}
    (h : callForm prog fn nargs = .sugar t) : reads prog u t = [] ∧ treeTag t = none := by
  have hbpf : ∀ f, bpfForm nargs f = .sugar t → reads prog u t = [] ∧ treeTag t = none := by
    intro f hf
    unfold bpfForm at hf
    split_ifs at hf
    all_goals cases hf
    all_goals exact ⟨rfl, rfl⟩
  rcases @callForm_cases prog fn nargs with ⟨c, -, hc⟩ | ⟨-, hc⟩ | ⟨form, hm, hc⟩ | ⟨f, -, -, hc⟩ |
      ⟨-, -, hc⟩
  · rw [hc] at h
    cases h
  · rw [hc] at h
    cases h
  · obtain ⟨m, w, parts, -, hform, -⟩ := methodForm_some hm
    rw [hc, hform] at h
    cases h
  · exact hbpf f (hc ▸ h)
  · rw [hc] at h
    cases h

/-! ## Arguments -/

/-- Every computed argument has the names of its reading. -/
def ReadsEach (prog : Program) (aliases : Aliases) (args : List (Result CTree))
    (rs : List Reading) : Prop :=
  ∀ i a, argTree args i = .ok a → Reads prog aliases a (argReading rs i)

theorem reads_part {args : List (Result CTree)} {rs : List Reading} {part : ArgPart} {a : CTree}
    (hargs : ReadsEach prog aliases args rs) (ha : part.tree args = .ok a) :
    reads prog .value a = (part.mentions rs).flatMap (Mention.print prog aliases) := by
  have hwrap : ∀ {i : Nat} {wrap : CTree → CTree} {v : Use},
      (∀ t, reads prog .value (wrap t) = reads prog v t) → (argTree args i).map wrap = .ok a →
      reads prog .value a = ((argReading rs i).mentions v).flatMap (Mention.print prog aliases) := by
    intro i wrap v hreads ha
    cases hi : argTree args i with
    | error e => rw [hi] at ha; cases ha
    | ok a' =>
        rw [hi] at ha
        cases ha
        rw [hreads]
        exact (hargs i a' hi).names v
  cases part with
  | word w =>
      cases ha
      rw [reads_name]
      rfl
  | addr id =>
      cases ha
      rfl
  | arg i => exact (hargs i a ha).names .value
  | sizeofArg i => exact @hwrap i sizeofDeref .value (fun t => by rw [sizeofDeref]; rfl) ha
  | castArg ty i => exact hwrap (fun t => by rw [reads]) ha

theorem readsArgs_parts {args : List (Result CTree)} {rs : List Reading} {parts : List ArgPart}
    {as : List CTree} (hargs : ReadsEach prog aliases args rs)
    (has : sequence (parts.map (ArgPart.tree args)) = .ok as) :
    readsArgs prog (fun _ => .value) as =
      (parts.flatMap (ArgPart.mentions rs)).flatMap (Mention.print prog aliases) := by
  induction parts generalizing as with
  | nil =>
      cases has
      rfl
  | cons part rest ih =>
      rw [List.map_cons] at has
      obtain ⟨a, as', ha, has', rfl⟩ := sequence_ok_cons.mp has
      rw [readsArgs, reads_part hargs ha, ih has', List.flatMap_cons, List.flatMap_append]

theorem readsArgs_user {args : List (Result CTree)} {rs : List Reading} {as : List CTree}
    (hargs : ReadsEach prog aliases args rs) (hlen : rs.length = args.length)
    (has : sequence args = .ok as) (use : Nat → Use) :
    readsArgs prog use as = (argsMentions use rs).flatMap (Mention.print prog aliases) := by
  induction args generalizing rs as use with
  | nil =>
      cases has
      cases rs with
      | nil => rfl
      | cons r rs => cases hlen
  | cons arg rest ih =>
      obtain ⟨a, as', ha, has', rfl⟩ := sequence_ok_cons.mp has
      cases rs with
      | nil => cases hlen
      | cons r rs =>
          have htail : ReadsEach prog aliases rest rs := fun i a hi => hargs (i + 1) a hi
          rw [readsArgs, argsMentions, List.flatMap_append,
            ih htail (Nat.succ.inj hlen) has' fun i => use (i + 1)]
          rw [(hargs 0 a ha).names (use 0)]
          rfl

/-! ## Calls and expressions -/

theorem reads_call {fn : Expr} {args : List (Result CTree)} {fnTree : Result CTree}
    {f : Reading} {rs : List Reading} {t : CTree}
    (hfn : ∀ c, fnTree = .ok c → Reads prog aliases c f)
    (hargs : ReadsEach prog aliases args rs) (hlen : rs.length = args.length)
    (hprints : (callForm prog fn args.length).Prints fnTree args t) :
    Reads prog aliases t ((callForm prog fn args.length).reading prog f rs) := by
  cases hform : callForm prog fn args.length with
  | cast cType =>
      rw [hform] at hprints
      obtain ⟨a, rfl, rfl⟩ := hprints
      refine ⟨fun u => ?_, rfl⟩
      rw [reads, reads]
      exact (hargs 0 a rfl).names _
  | bare =>
      rw [hform] at hprints
      have harg : args = [.ok t] := hprints
      exact hargs 0 t (by rw [harg]; rfl)
  | sugar t' =>
      rw [hform] at hprints
      cases hprints
      exact ⟨fun u => (reads_sugar hform).1, by rw [(@reads_sugar prog .value _ _ _ hform).2]; rfl⟩
  | helper w parts =>
      rw [hform] at hprints
      obtain ⟨as, has, rfl⟩ := hprints
      refine ⟨fun u => ?_, rfl⟩
      rw [reads, reads_name, List.nil_append]
      exact readsArgs_parts hargs has
  | user =>
      rw [hform] at hprints
      obtain ⟨c, as, hc, has, rfl⟩ := hprints
      refine ⟨fun u => ?_, rfl⟩
      have hcallee := hfn c hc
      rw [reads, hcallee.names, hcallee.tag, readsArgs_user hargs hlen has, CallForm.reading,
        List.flatMap_append]

theorem length_readings (es : List Expr) : (readings prog es).length = es.length := by
  induction es with
  | nil => rfl
  | cons e rest ih => rw [readings, List.length_cons, List.length_cons, ih]

mutual
/-- **The names in the tree of an expression are those of its identifiers, in order and in
the same use.** -/
theorem reads_exprTree : ∀ (e : Expr) {t : CTree}, exprTree prog aliases e = .ok t →
    Reads prog aliases t (reading prog e)
  | .basicLit pos kind value, t, ht => by
      cases ht
      exact ⟨fun u => reads_name _, rfl⟩
  | .ident id, t, ht => by
      cases ht
      exact reads_ident id
  -- a folded constant reads nothing; a member reads what its operand reads
  | .selector x sel, t, ht => by
      rcases selectorTree_ok ht with ⟨c, hc, rfl⟩ | ⟨hc, b, hb, rfl⟩
      · refine ⟨fun u => ?_, by rw [(@reads_numberTree prog .value c).2]; rfl⟩
        rw [(reads_numberTree c).1, reading, hc]
        rfl
      · refine ⟨fun u => ?_, by rw [(@reads_memberTree prog .value b _ _).2]; rfl⟩
        rw [(reads_memberTree b _ _).1, (reads_exprTree x hb).names, reading, hc]
        rfl
  | .unary pos op x, t, ht => by
      obtain ⟨inner, hinner, ht⟩ := bind_ok ht
      split at ht
      · rename_i c hop
        cases ht
        refine ⟨fun u => ?_, rfl⟩
        rw [reads, (reads_exprTree x hinner).names, reading, hop]
        rfl
      · cases ht
  | .binary x op y, t, ht => by
      obtain ⟨l, hl, ht⟩ := bind_ok ht
      obtain ⟨r, hr, ht⟩ := bind_ok ht
      cases ht
      refine ⟨fun u => ?_, rfl⟩
      rw [reads, (reads_exprTree x hl).names, (reads_exprTree y hr).names, reading,
        List.flatMap_append]
  | .call fn args, t, ht => by
      have hprints := callTree_prints ht
      have hcall := reads_call (fun c hc => reads_exprTree fn hc) (readsEach args)
        (by rw [length_readings, length_nodeTrees]) hprints
      rw [length_nodeTrees] at hcall
      exact hcall
  | .paren pos x, t, ht => by
      obtain ⟨inner, hinner, ht⟩ := bind_ok ht
      cases ht
      refine ⟨fun u => ?_, rfl⟩
      rw [reads, (reads_exprTree x hinner).names, reading]
  | .index x i, t, ht => by
      obtain ⟨base, hbase, ht⟩ := bind_ok ht
      obtain ⟨idx, hidx, ht⟩ := bind_ok ht
      cases ht
      refine ⟨fun u => ?_, rfl⟩
      rw [reads, (reads_exprTree x hbase).names, (reads_exprTree i hidx).names, reading,
        List.flatMap_append]
  | .star pos x, t, ht => by
      obtain ⟨inner, hinner, ht⟩ := bind_ok ht
      cases ht
      refine ⟨fun u => ?_, rfl⟩
      rw [reads, (reads_exprTree x hinner).names, reading]
      rfl
  | .other kind pos children, t, ht => by cases ht

/-- The same for each of a list of expressions. -/
theorem readsEach : ∀ es : List Expr,
    ReadsEach prog aliases (nodeTrees prog aliases es) (readings prog es)
  | [], i, a, ha => by cases ha
  | e :: rest, 0, a, ha => reads_exprTree e ha
  | e :: rest, i + 1, a, ha => readsEach rest i a ha
end

end

end Gobee
