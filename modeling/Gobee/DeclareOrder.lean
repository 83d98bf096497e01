/-
# Declare before use

`Emit` writes the types, the maps, the helpers and the programs, each kind in the order of
the file, and no prototypes.  C reads the file from the top, so a struct has to be defined
on an earlier line than a value of it, and a function on an earlier line than its calls.

* `emit_chunks` : the output is the support code and then one chunk for each definition;
* `declared_before_iff` : **everything is declared before it is used, exactly when the
  definitions stand in such an order in the file.**
-/
import Gobee.MapCoverage
import Gobee.PrintedTypes
import Gobee.Support

namespace Gobee

open EmitM CSyntax

variable {α β : Type} {prog : Program}

/-! ## Lines -/

@[simp] theorem breaks_nil : breaks [] = 0 := rfl

@[simp] theorem breaks_cons (a : Act) (as : List Act) : breaks (a :: as) = a.breaks + breaks as :=
  rfl

/-- The line on which the next action writes. -/
theorem after_cLine (as : List Act) : (Emitter.after prog as).cLine = 1 + breaks as :=
  acts_cLine as Emitter.new

/-! ## Definitions of the output -/

/-- The definitions of a program in the order in which they are written. -/
def definitions (prog : Program) : List Construct :=
  prog.types.map .type ++ (prog.maps.map .map ++
    (prog.helpers.map .helper ++ prog.programs.map .program))

/-- The name of the function a construct is. -/
def Construct.funcName? : Construct → Option Text
  | .helper h => some h.name
  | .program p => some p.name
  | _ => none

/-- What is written for a definition: the part up to the body, the body of a function,
and the rest. -/
structure Chunk where
  construct : Construct
  head : List Act
  body : List CStmt
  tail : List Act

namespace Chunk

/-- The actions of a chunk. -/
def acts (ck : Chunk) : List Act := ck.head ++ (blockActs ck.body ++ ck.tail)

/-- The body of a function; the other definitions have none. -/
def bodies (ck : Chunk) : List (List CStmt) :=
  match ck.construct.func? with
  | some _ => [ck.body]
  | none => []

end Chunk

/-- Whenever the computation succeeds, it writes the definitions, each in a chunk that has
a line break before its body. -/
def WritesChunks (prog : Program) (cs : List Construct) (m : EmitM α) : Prop :=
  ∀ n r, out m n = some r → ∃ cks : List Chunk, cks.map Chunk.construct = cs ∧
    r.2.2 = cks.flatMap Chunk.acts ∧ (∀ ck ∈ cks, 0 < breaks ck.head) ∧
    functionTrees prog (cs.filterMap Construct.func?) n = some (cks.flatMap Chunk.bodies, r.2.1)

theorem chunks_bind {cs ds : List Construct} {m : EmitM α} {f : α → EmitM β}
    (hm : WritesChunks prog cs m) (hf : ∀ a, WritesChunks prog ds (f a)) :
    WritesChunks prog (cs ++ ds) (m >>= f) := by
  intro n r hr
  rw [out_bind] at hr
  obtain ⟨q, hq, hr⟩ := Option.bind_eq_some_iff.mp hr
  obtain ⟨t, ht, rfl⟩ := Option.map_eq_some_iff.mp hr
  obtain ⟨cks, hcs, hacts, hlines, htrees⟩ := hm n q hq
  obtain ⟨dks, hds, hacts', hlines', htrees'⟩ := hf q.1 q.2.1 t ht
  refine ⟨cks ++ dks, by rw [List.map_append, hcs, hds], ?_, ?_, ?_⟩
  · rw [List.flatMap_append, hacts, hacts']
  · exact List.forall_mem_append.mpr ⟨hlines, hlines'⟩
  · rw [List.filterMap_append, List.flatMap_append]
    exact functionTrees_append htrees htrees'

theorem chunks_forEach {γ : Type} {f : γ → EmitM Unit} {c : γ → Construct}
    (hf : ∀ x, WritesChunks prog [c x] (f x)) (xs : List γ) :
    WritesChunks prog (xs.map c) (forEach f xs) := by
  induction xs with
  | nil =>
      intro n r hr
      cases hr
      exact ⟨[], rfl, rfl, by simp, rfl⟩
  | cons x xs ih => exact chunks_bind (hf x) fun _ => ih

/-- A definition without a body. -/
theorem chunks_plain {c : Construct} {m : EmitM Unit} (hc : c.func? = none)
    (hm : WritesBodies prog [] m) (hlines : Emits (0 < breaks ·) m) :
    WritesChunks prog [c] m := by
  intro n r hr
  obtain ⟨trees, htrees, -⟩ := hm n r hr
  have hpos := hlines n r hr
  cases htrees
  refine ⟨[⟨c, r.2.2, [], []⟩], rfl, ?_, ?_, ?_⟩
  · simp [Chunk.acts, blockActs]
  · simpa using hpos
  · simp [Chunk.bodies, hc, functionTrees]

/-- An action that writes a line break, then the rest. -/
theorem breaks_then {a : Act} {f : Unit → EmitM β} (ha : 0 < a.breaks) :
    Emits (0 < breaks ·) (perform a >>= f) := by
  refine Emits.bind (P := (· = [a])) (Q := fun _ => True) (Emits.perform rfl)
    (fun _ _ _ _ => trivial) ?_
  rintro as bs rfl -
  rw [breaks_append, breaks_cons]
  omega

theorem breaks_after {m : EmitM α} {f : α → EmitM β} (hf : ∀ a, Emits (0 < breaks ·) (f a)) :
    Emits (0 < breaks ·) (m >>= f) := by
  refine Emits.bind (P := fun _ => True) (fun _ _ _ => trivial) hf ?_
  intro as bs _ hbs
  rw [breaks_append]
  omega

theorem breaks_open (s : Text) : 0 < Act.breaks (.writef (s ++ " \x7b\n")) := by
  rw [Act.breaks, newlines_append]
  exact Nat.lt_add_left _ (by decide)

theorem chunks_writeUserType (t : UserTypeDecl) :
    WritesChunks prog [.type t] (writeUserType prog t) := by
  refine chunks_plain rfl (bodies_writeUserType t) (breaks_after fun _ => ?_)
  unfold writeStruct
  split
  · exact breaks_then (breaks_open ("struct " ++ t.name))
  · exact Emits.fail _

theorem chunks_writeMap (m : MapDecl) : WritesChunks prog [.map m] (writeMap m) := by
  refine chunks_plain rfl (bodies_writeMap m) ?_
  have hdef : Emits (0 < breaks ·) (writeMapDef m) := breaks_after fun _ => breaks_then (by decide)
  unfold writeMap
  split
  · exact breaks_after fun _ => hdef
  · exact hdef

/-! ## Functions -/

/-- The computation writes the body of a function after a part with a line break. -/
def WritesFunction (prog : Program) (fd : FuncDecl) (m : EmitM α) : Prop :=
  ∀ n r, out m n = some r → ∃ body head cs tail, fd.body = some body ∧
    blockTree prog body.list n = some (cs, r.2.1) ∧ r.2.2 = head ++ (blockActs cs ++ tail) ∧
    0 < breaks head

theorem WritesFunction.after {fd : FuncDecl} {m : EmitM α} {f : α → EmitM β} (hm : KeepsNames m)
    (hf : ∀ a, WritesFunction prog fd (f a)) : WritesFunction prog fd (m >>= f) := by
  intro n r hr
  rw [out_bind] at hr
  obtain ⟨q, hq, hr⟩ := Option.bind_eq_some_iff.mp hr
  obtain ⟨t, ht, rfl⟩ := Option.map_eq_some_iff.mp hr
  obtain ⟨body, head, cs, tail, hbody, hcs, hacts, hlines⟩ := hf q.1 q.2.1 t ht
  rw [hm n q hq] at hcs
  refine ⟨body, q.2.2 ++ head, cs, tail, hbody, hcs, ?_, ?_⟩
  · rw [hacts, List.append_assoc]
  · rw [breaks_append]
    omega

theorem writesFunction_open {fd : FuncDecl} {s : Text} {rest : EmitM Unit}
    (hrest : KeepsNames rest) :
    WritesFunction prog fd (do
      writef (s ++ ") \x7b\n")
      indented (writeBody prog fd.body)
      rest) := by
  intro n r hr
  rw [out_bind, writef, out_perform, Option.bind_some] at hr
  obtain ⟨t, ht, rfl⟩ := Option.map_eq_some_iff.mp hr
  rw [out_bind, out_indented] at ht
  obtain ⟨q, hq, ht⟩ := Option.bind_eq_some_iff.mp ht
  obtain ⟨u, hu, rfl⟩ := Option.map_eq_some_iff.mp ht
  obtain ⟨v, hv, rfl⟩ := Option.map_eq_some_iff.mp hq
  cases hbody : fd.body with
  | none =>
      rw [hbody] at hv
      cases hv
  | some body =>
      rw [hbody, writeBody, out_writeBlock] at hv
      obtain ⟨⟨cs, n'⟩, hcs, rfl⟩ := Option.map_eq_some_iff.mp hv
      refine ⟨body, [.writef (s ++ ") \x7b\n"), .indent], cs, .dedent :: u.2.2, rfl, ?_, ?_, ?_⟩
      · rw [hrest _ _ hu]
        exact hcs
      · simp
      · rw [breaks_cons]
        have hline : 0 < Act.breaks (.writef (s ++ ") \x7b\n")) := by
          rw [Act.breaks, newlines_append]
          exact Nat.lt_add_left _ (by decide)
        omega

theorem chunks_function {c : Construct} {fd : FuncDecl} (hc : c.func? = some fd)
    (hm : WritesFunction prog fd (c.write prog)) : WritesChunks prog [c] (c.write prog) := by
  intro n r hr
  obtain ⟨body, head, cs, tail, hbody, hcs, hacts, hlines⟩ := hm n r hr
  refine ⟨[⟨c, head, cs, tail⟩], rfl, ?_, ?_, ?_⟩
  · simp [Chunk.acts, hacts]
  · simpa using hlines
  · have hfuncs : [c].filterMap Construct.func? = [fd] := by simp [hc]
    have hbodies : [(⟨c, head, cs, tail⟩ : Chunk)].flatMap Chunk.bodies = [cs] := by
      simp [Chunk.bodies, hc]
    rw [hfuncs, hbodies]
    exact functionTrees_cons.mpr ⟨body, cs, r.2.1, [], hbody, hcs, rfl, rfl⟩

theorem keepsNames_lines (s : Text) : KeepsNames (do writeln s; writeln []) := by
  intro n r hr
  cases hr
  rfl

theorem chunks_writeHelper (h : HelperFunc) :
    WritesChunks prog [.helper h] (writeHelper prog h) := by
  refine @chunks_function prog (.helper h) h.decl rfl ?_
  refine WritesFunction.after (keepsNames_perform _) fun _ => ?_
  refine WritesFunction.after (keepsNames_lift _) fun retC => ?_
  exact WritesFunction.after (keepsNames_lift _) fun params =>
    writesFunction_open (keepsNames_lines _)

theorem chunks_writeProgram (p : ProgramFunc) :
    WritesChunks prog [.program p] (writeProgram prog p) := by
  refine @chunks_function prog (.program p) p.decl rfl ?_
  refine WritesFunction.after (keepsNames_perform _) fun _ => ?_
  refine WritesFunction.after (keepsNames_perform _) fun _ => ?_
  exact WritesFunction.after (keepsNames_lift _) fun param =>
    writesFunction_open (keepsNames_perform _)

theorem chunks_emitDefs : WritesChunks prog (definitions prog) (emitDefs prog) :=
  chunks_bind (chunks_forEach chunks_writeUserType _) fun _ =>
    chunks_bind (chunks_forEach chunks_writeMap _) fun _ =>
      chunks_bind (chunks_forEach chunks_writeHelper _) fun _ =>
        chunks_forEach chunks_writeProgram _

theorem definitions_funcs (prog : Program) :
    (definitions prog).filterMap Construct.func? = emittedFuncs prog := by
  have hnone : ∀ {γ : Type} {c : γ → Construct} (xs : List γ), (∀ x, (c x).func? = none) →
      (xs.map c).filterMap Construct.func? = [] := by
    intro γ c xs hc
    rw [List.filterMap_map, List.filterMap_eq_nil_iff]
    exact fun x _ => hc x
  have hsome : ∀ {γ : Type} {c : γ → Construct} {decl : γ → FuncDecl} (xs : List γ),
      (∀ x, (c x).func? = some (decl x)) →
      (xs.map c).filterMap Construct.func? = xs.map decl := by
    intro γ c decl xs hc
    rw [List.filterMap_map, ← List.filterMap_eq_map]
    exact List.filterMap_congr fun x _ => hc x
  rw [definitions, List.filterMap_append, List.filterMap_append, List.filterMap_append,
    hnone _ fun _ => rfl, hnone _ fun _ => rfl, hsome _ fun _ => rfl, hsome _ fun _ => rfl]
  rfl

/-- **The output is the support code and then one chunk for each definition**, in the order
of `definitions`. -/
theorem emit_chunks {label text : Text} {ms : List SourceMapping}
    (h : emit prog label = .ok (text, ms)) :
    ∃ n, ∃ cks : List Chunk, emitActs prog label ⟨[], 0⟩ =
        .ok ((), n, supportActs prog label ++ cks.flatMap Chunk.acts) ∧
      text = (Emitter.after prog (supportActs prog label ++ cks.flatMap Chunk.acts)).buf ∧
      cks.map Chunk.construct = definitions prog ∧ (∀ ck ∈ cks, 0 < breaks ck.head) ∧
      functionTrees prog (emittedFuncs prog) ⟨[], 0⟩ = some (cks.flatMap Chunk.bodies, n) := by
  obtain ⟨n, defs, hacts, htext, hout⟩ := emit_defs h
  obtain ⟨cks, hcs, hdefs, hlines, htrees⟩ := chunks_emitDefs _ _ hout
  rw [definitions_funcs] at htrees
  simp only at hdefs
  subst hdefs
  exact ⟨n, cks, hacts, htext, hcs, hlines, htrees⟩

/-! ## Uses -/

/-- A struct of the file is used by value in the fields, the map or the signature that is
written for a definition. -/
def UsesStruct (prog : Program) (c : Construct) (tag : Text) : Prop :=
  ' ' ∉ tag ∧ ¬ KernelTag tag ∧ ∃ t ∈ printedTypes prog c, goTypeToC t = .ok ("struct " ++ tag)

/-- The identifier stands for a function of the file. -/
def IsFunc (prog : Program) (id : Ident) : Prop :=
  ∃ obj, prog.info.uses id = some obj ∧ obj.kind = .func ∧
    ∃ fd ∈ emittedFuncs prog, obj.decl = fd.name

/-- The emitted body calls a function of the file. -/
def CallsFunc (prog : Program) (cs : List CStmt) (w : Text) : Prop :=
  ∃ t ∈ blockTrees cs, ∃ f as id, .call f as ∈ callNodes t ∧ unparenTree f = .leaf w (some id) ∧
    IsFunc prog id

/-- A call of a function of the file is printed for the function. -/
def PrintsFunc (prog : Program) (fd : FuncDecl) (w : Text) : Prop :=
  ∃ fn args id, .expr (.call fn args) ∈ funcNodes prog fd ∧
    callForm prog fn args.length = .user ∧ unparen fn = .ident id ∧ IsFunc prog id ∧ id.name = w

/-- The calls of functions in an emitted body are those printed for the function. -/
theorem callsFunc_iff {fd : FuncDecl} {cs : List CStmt} {w : Text} (hfacts : CallFacts prog)
    (hfd : fd ∈ emittedFuncs prog)
    (haccounts : Accounts prog (fun c => [c]) (fun _ _ => []) (OkKeys prog) (blockTrees cs)
      (funcNodes prog fd)) :
    CallsFunc prog cs w ↔ PrintsFunc prog fd w := by
  obtain ⟨occs, hnodes, hoccs, hcollect⟩ := haccounts
  constructor
  · rintro ⟨t, ht, f, as, id, hcall, hleaf, hfunc⟩
    obtain ⟨⟨aliases, nd⟩, ho, hown⟩ := (hcollect _).mp ⟨t, ht, hcall⟩
    have hnd : nd ∈ funcNodes prog fd := by
      rw [← hnodes]
      exact List.mem_map_of_mem ho
    rcases own_node hown with ⟨buf, valC, rfl, heq⟩ | ⟨fn, args, rfl, hown⟩
    · cases heq
      cases hleaf
    · rcases own_call hown with ⟨w', -, heq⟩ | ⟨w', parts, as', -, heq⟩ | ⟨f', as', hform, hf, heq⟩
      · cases heq
        cases hleaf
      · cases heq
        cases hleaf
      · cases heq
        have hcallable := hfacts.callable fd hfd fn args hnd
        rcases callee_leaf (hoccs _ ho).1 hcallable.literal hcallable.constant hcallable.pointer
            hcallable.object hf with ⟨id', hid', hleaf'⟩ | ⟨-, hleaf'⟩
        · rw [hleaf] at hleaf'
          cases hleaf'
          exact ⟨fn, args, id, hnd, hform, hid', hfunc, rfl⟩
        · exact absurd hleaf (hleaf' _ _)
  · rintro ⟨fn, args, id, hnd, hform, hid, hfunc, rfl⟩
    have hcallable := hfacts.callable fd hfd fn args hnd
    rw [← hnodes] at hnd
    obtain ⟨⟨aliases, nd⟩, ho, heq⟩ := List.mem_map.mp hnd
    cases heq
    obtain ⟨t, ht⟩ := (hoccs _ ho).2 fn args rfl
    have hown : t ∈ own prog aliases (fun c => [c]) (fun _ _ => []) (.call fn args) := by
      rw [own, hform, ht]
      exact List.mem_singleton_self t
    obtain ⟨u, hu, hcall⟩ := (hcollect t).mpr ⟨_, ho, hown⟩
    rw [formTree, hform] at ht
    obtain ⟨f, as, hf, -, rfl⟩ := CallForm.user_of_tree ht
    rcases callee_leaf (hoccs _ ho).1 hcallable.literal hcallable.constant hcallable.pointer
        hcallable.object hf with ⟨id', hid', hleaf⟩ | ⟨hno, -⟩
    · rw [hid] at hid'
      cases hid'
      exact ⟨u, hu, f, as, id, hcall, hleaf, hfunc⟩
    · exact absurd hid (hno id)

/-! ## The order of definitions -/

/-- The line on which the definition after some chunks begins. -/
def startLine (prog : Program) (support : List Act) (cks : List Chunk) : Nat :=
  (Emitter.after prog (support ++ cks.flatMap Chunk.acts)).cLine

/-- The line on which the body of the function after some chunks begins. -/
def bodyLine (prog : Program) (support : List Act) (cks : List Chunk) (ck : Chunk) : Nat :=
  (Emitter.after prog (support ++ (cks.flatMap Chunk.acts ++ ck.head))).cLine

/-- In the output, structs are defined on earlier lines than the definitions that use them
by value, and functions on earlier lines than the bodies that call them. -/
structure DeclaredBefore (prog : Program) (support : List Act) (cks : List Chunk) : Prop where
  structs : ∀ l₁ ck l₂ tag, cks = l₁ ++ ck :: l₂ → UsesStruct prog ck.construct tag →
    ∃ k₁ dk k₂ t, cks = k₁ ++ dk :: k₂ ∧ dk.construct = .type t ∧ t.name = tag ∧
      startLine prog support k₁ < startLine prog support l₁
  calls : ∀ l₁ ck l₂ fd w, cks = l₁ ++ ck :: l₂ → ck.construct.func? = some fd →
    CallsFunc prog ck.body w →
    ∃ k₁ dk k₂, cks = k₁ ++ dk :: k₂ ∧ dk.construct.funcName? = some w ∧
      startLine prog support k₁ < bodyLine prog support l₁ ck

/-- In the order of the definitions, a struct comes before the definitions that use it by
value, and a function does not come after one that calls it. -/
structure DefinedInOrder (prog : Program) : Prop where
  structs : ∀ l₁ c l₂ tag, definitions prog = l₁ ++ c :: l₂ → UsesStruct prog c tag →
    ∃ t, .type t ∈ l₁ ∧ t.name = tag
  calls : ∀ l₁ c l₂ fd w, definitions prog = l₁ ++ c :: l₂ → c.func? = some fd →
    PrintsFunc prog fd w → ∃ d ∈ l₁ ++ [c], d.funcName? = some w

section

variable {support : List Act} {k₁ k₂ l₁ l₂ cks : List Chunk} {dk ck : Chunk}

/-- Two places in a list: one before the other, or the same. -/
theorem places {γ : Type} {k₁ k₂ l₁ l₂ : List γ} {d c : γ} (h : k₁ ++ d :: k₂ = l₁ ++ c :: l₂) :
    (∃ m, l₁ = k₁ ++ d :: m) ∨ k₁ = l₁ ∧ d = c ∨ ∃ m, k₁ = l₁ ++ c :: m := by
  rcases List.append_eq_append_iff.mp h with ⟨m, hl, hm⟩ | ⟨m, hk, hm⟩
  · cases m with
    | nil =>
        rw [List.nil_append, List.cons.injEq] at hm
        exact .inr (.inl ⟨by rw [hl, List.append_nil], hm.1⟩)
    | cons x m =>
        rw [List.cons_append, List.cons.injEq] at hm
        exact .inl ⟨m, by rw [hl, hm.1]⟩
  · cases m with
    | nil =>
        rw [List.nil_append, List.cons.injEq] at hm
        exact .inr (.inl ⟨by rw [hk, List.append_nil], hm.1.symm⟩)
    | cons x m =>
        rw [List.cons_append, List.cons.injEq] at hm
        exact .inr (.inr ⟨m, by rw [hk, hm.1]⟩)

theorem startLine_append (m : List Chunk) :
    startLine prog support (l₁ ++ ck :: m) =
      bodyLine prog support l₁ ck + breaks (blockActs ck.body ++ ck.tail) +
        breaks (m.flatMap Chunk.acts) := by
  simp only [startLine, bodyLine, after_cLine, breaks_append, List.flatMap_append,
    List.flatMap_cons, Chunk.acts]
  omega

theorem startLine_lt_bodyLine (h : 0 < breaks ck.head) :
    startLine prog support l₁ < bodyLine prog support l₁ ck := by
  simp only [startLine, bodyLine, after_cLine, breaks_append]
  omega

/-- A definition begins on an earlier line exactly when it comes first. -/
theorem startLine_lt_iff (hlines : ∀ ck ∈ cks, 0 < breaks ck.head) (hk : cks = k₁ ++ dk :: k₂)
    (hl : cks = l₁ ++ ck :: l₂) :
    startLine prog support k₁ < startLine prog support l₁ ↔ ∃ m, l₁ = k₁ ++ dk :: m := by
  have hdk : 0 < breaks dk.head := hlines dk (by rw [hk]; simp)
  have hck : 0 < breaks ck.head := hlines ck (by rw [hl]; simp)
  rcases places (hk.symm.trans hl) with ⟨m, rfl⟩ | ⟨rfl, -⟩ | ⟨m, rfl⟩
  · refine iff_of_true ?_ ⟨m, rfl⟩
    have hbody := @startLine_lt_bodyLine prog support k₁ dk hdk
    rw [startLine_append]
    omega
  · refine iff_of_false (lt_irrefl _) ?_
    rintro ⟨m, hm⟩
    have hlen := congrArg List.length hm
    simp at hlen
  · refine iff_of_false ?_ ?_
    · have hbody := @startLine_lt_bodyLine prog support l₁ ck hck
      rw [startLine_append]
      omega
    · rintro ⟨m', hm⟩
      have hlen := congrArg List.length hm
      simp at hlen

/-- A definition begins on an earlier line than a body exactly when it comes first or is
the function itself. -/
theorem startLine_lt_body_iff (hlines : ∀ ck ∈ cks, 0 < breaks ck.head)
    (hk : cks = k₁ ++ dk :: k₂) (hl : cks = l₁ ++ ck :: l₂) :
    startLine prog support k₁ < bodyLine prog support l₁ ck ↔
      (∃ m, l₁ = k₁ ++ dk :: m) ∨ k₁ = l₁ ∧ dk = ck := by
  have hdk : 0 < breaks dk.head := hlines dk (by rw [hk]; simp)
  have hck : 0 < breaks ck.head := hlines ck (by rw [hl]; simp)
  have hbody := @startLine_lt_bodyLine prog support l₁ ck hck
  rcases places (hk.symm.trans hl) with ⟨m, rfl⟩ | ⟨rfl, rfl⟩ | ⟨m, rfl⟩
  · refine iff_of_true ?_ (.inl ⟨m, rfl⟩)
    have hbody' := @startLine_lt_bodyLine prog support k₁ dk hdk
    rw [startLine_append] at hbody
    omega
  · exact iff_of_true hbody (.inr ⟨rfl, rfl⟩)
  · refine iff_of_false ?_ ?_
    · rw [startLine_append]
      omega
    · rintro (⟨m', hm⟩ | ⟨hm, -⟩)
      · have hlen := congrArg List.length hm
        simp at hlen
      · have hlen := congrArg List.length hm
        simp at hlen

/-- The chunks before one are those of the definitions before it. -/
theorem chunk_of_definition {cs ds : List Construct} {c : Construct}
    (h : cks.map Chunk.construct = cs ++ c :: ds) :
    ∃ l₁ ck l₂, cks = l₁ ++ ck :: l₂ ∧ l₁.map Chunk.construct = cs ∧ ck.construct = c := by
  obtain ⟨l₁, rest, rfl, hcs, hrest⟩ := List.map_eq_append_iff.mp h
  obtain ⟨ck, l₂, rfl, hc, -⟩ := List.map_eq_cons_iff.mp hrest
  exact ⟨l₁, ck, l₂, rfl, hcs, hc⟩

/-- The bodies of the chunks are those of the functions. -/
theorem body_of_chunk {R : FuncDecl → List CStmt → Prop} {fd : FuncDecl}
    (h : List.Forall₂ R ((cks.map Chunk.construct).filterMap Construct.func?)
      (cks.flatMap Chunk.bodies)) (hck : ck ∈ cks) (hfd : ck.construct.func? = some fd) :
    R fd ck.body := by
  induction cks with
  | nil => cases hck
  | cons x rest ih =>
      rw [List.map_cons, List.filterMap_cons, List.flatMap_cons] at h
      cases hx : x.construct.func? with
      | none =>
          rw [hx, Chunk.bodies, hx] at h
          rcases List.mem_cons.mp hck with rfl | hck
          · rw [hx] at hfd
            cases hfd
          · exact ih h hck
      | some gd =>
          rw [hx, Chunk.bodies, hx] at h
          obtain ⟨hr, hrest⟩ := List.forall₂_cons.mp h
          rcases List.mem_cons.mp hck with rfl | hck
          · rw [hx] at hfd
            cases hfd
            exact hr
          · exact ih hrest hck

end

/-- Chunks in the order of the definitions are declared before use exactly when the
definitions are. -/
theorem chunks_declared_iff {support : List Act} {cks : List Chunk} {n : Names}
    (hfacts : CallFacts prog) (hcs : cks.map Chunk.construct = definitions prog)
    (hlines : ∀ ck ∈ cks, 0 < breaks ck.head)
    (htrees : functionTrees prog (emittedFuncs prog) ⟨[], 0⟩ = some (cks.flatMap Chunk.bodies, n)) :
    DeclaredBefore prog support cks ↔ DefinedInOrder prog := by
  have haccounts := @accounts_functions _ prog (fun c => [c]) (fun _ _ => []) _ _ (fun _ => rfl)
    (okKeys_survives prog) _ _ _ _ (fun fd hfd s hs => ⟨fd, hfd, hs⟩) (by simp [OkKeys]) htrees
  rw [← definitions_funcs, ← hcs] at haccounts
  -- what a chunk calls is what its function prints a call to
  have hcalls : ∀ {ck fd w}, ck ∈ cks → ck.construct.func? = some fd →
      (CallsFunc prog ck.body w ↔ PrintsFunc prog fd w) := by
    intro ck fd w hck hfd
    refine callsFunc_iff hfacts ?_ (body_of_chunk haccounts hck hfd)
    rw [← definitions_funcs, ← hcs]
    exact List.mem_filterMap.mpr ⟨_, List.mem_map_of_mem hck, hfd⟩
  constructor
  · rintro ⟨hstructs, hfuncs⟩
    refine ⟨?_, ?_⟩
    · intro cs c ds tag hdefs huses
      obtain ⟨l₁, ck, l₂, hl, rfl, rfl⟩ := chunk_of_definition (hcs.trans hdefs)
      obtain ⟨k₁, dk, k₂, t, hk, ht, hname, hline⟩ := hstructs l₁ ck l₂ tag hl huses
      obtain ⟨m, rfl⟩ := (startLine_lt_iff hlines hk hl).mp hline
      refine ⟨t, ?_, hname⟩
      rw [← ht]
      exact List.mem_map_of_mem (by simp)
    · intro cs c ds fd w hdefs hfd hprints
      obtain ⟨l₁, ck, l₂, hl, rfl, rfl⟩ := chunk_of_definition (hcs.trans hdefs)
      have hck : ck ∈ cks := by rw [hl]; simp
      obtain ⟨k₁, dk, k₂, hk, hname, hline⟩ :=
        hfuncs l₁ ck l₂ fd w hl hfd ((hcalls hck hfd).mpr hprints)
      refine ⟨dk.construct, ?_, hname⟩
      rcases (startLine_lt_body_iff hlines hk hl).mp hline with ⟨m, rfl⟩ | ⟨rfl, rfl⟩
      · exact List.mem_append_left _ (List.mem_map_of_mem (by simp))
      · simp
  · rintro ⟨hstructs, hfuncs⟩
    refine ⟨?_, ?_⟩
    · intro l₁ ck l₂ tag hl huses
      have hdefs : definitions prog =
          l₁.map Chunk.construct ++ ck.construct :: l₂.map Chunk.construct := by
        rw [← hcs, hl]
        simp
      obtain ⟨t, ht, hname⟩ := hstructs _ _ _ tag hdefs huses
      obtain ⟨dk, hdk, hc⟩ := List.mem_map.mp ht
      obtain ⟨k₁, m, rfl⟩ := List.append_of_mem hdk
      have hk : cks = k₁ ++ dk :: (m ++ ck :: l₂) := by rw [hl]; simp
      exact ⟨k₁, dk, _, t, hk, hc, hname, (startLine_lt_iff hlines hk hl).mpr ⟨m, rfl⟩⟩
    · intro l₁ ck l₂ fd w hl hfd hcallsFunc
      have hck : ck ∈ cks := by rw [hl]; simp
      have hdefs : definitions prog =
          l₁.map Chunk.construct ++ ck.construct :: l₂.map Chunk.construct := by
        rw [← hcs, hl]
        simp
      obtain ⟨d, hd, hname⟩ := hfuncs _ _ _ fd w hdefs hfd ((hcalls hck hfd).mp hcallsFunc)
      rcases List.mem_append.mp hd with hd | hd
      · obtain ⟨dk, hdk, rfl⟩ := List.mem_map.mp hd
        obtain ⟨k₁, m, rfl⟩ := List.append_of_mem hdk
        have hk : cks = k₁ ++ dk :: (m ++ ck :: l₂) := by rw [hl]; simp
        exact ⟨k₁, dk, _, hk, hname, (startLine_lt_body_iff hlines hk hl).mpr (.inl ⟨m, rfl⟩)⟩
      · cases List.mem_singleton.mp hd
        exact ⟨l₁, ck, l₂, hl, hname,
          (startLine_lt_body_iff hlines hl hl).mpr (.inr ⟨rfl, rfl⟩)⟩

/-- `func first() { second() }`. -/
def firstDecl : FuncDecl where
  pos := 50
  name := ⟨"first", 55⟩
  recv := none
  typeParams := none
  params := some ⟨60, []⟩
  results := none
  body := some ⟨63, [.expr (.call (.ident ⟨"second", 65⟩) [])], 74⟩

/-- `func second() {}`. -/
def secondDecl : FuncDecl where
  pos := 80
  name := ⟨"second", 85⟩
  recv := none
  typeParams := none
  params := some ⟨91, []⟩
  results := none
  body := some ⟨94, [], 95⟩

/-- A file with the helpers in the given order. -/
def helpersProgram (helpers : List HelperFunc) : Program where
  position := fun p => ⟨"x.go", p, 1⟩
  imports := []
  info :=
    { uses := fun id =>
        if id.name = "second" then some ⟨⟨"second", 85⟩, .func, .other "func()"⟩ else none
      defs := []
      typeOf := fun _ => none
      underlying := fun _ _ => .other }
  license := "GPL"
  maps := []
  programs := []
  helpers := helpers
  types := []
  consts := []

/-- `first` and then `second`. -/
def callerFirst : Program :=
  helpersProgram [⟨"first", ⟨"x.go", 50, 1⟩, firstDecl⟩, ⟨"second", ⟨"x.go", 80, 1⟩, secondDecl⟩]

/-- `second` and then `first`. -/
def calleeFirst : Program :=
  helpersProgram [⟨"second", ⟨"x.go", 80, 1⟩, secondDecl⟩, ⟨"first", ⟨"x.go", 50, 1⟩, firstDecl⟩]

/-- The facts hold of any file with these helpers. -/
theorem helpersProgram_facts {helpers : List HelperFunc}
    (h : ∀ f ∈ helpers, f.decl = firstDecl ∨ f.decl = secondDecl) :
    CallFacts (helpersProgram helpers) := by
  have hmap : ∀ x, mapTypeOf (helpersProgram helpers) x = none := fun x => rfl
  have hcall : ∀ fd ∈ emittedFuncs (helpersProgram helpers), ∀ fn args,
      .expr (.call fn args) ∈ funcNodes (helpersProgram helpers) fd →
        fn = .ident ⟨"second", 65⟩ ∧ args = [] := by
    intro fd hfd fn args hnd
    rcases mem_emittedFuncs.mp hfd with ⟨f, hf, rfl⟩ | ⟨p, hp, -⟩
    · rcases h f hf with hdecl | hdecl
      · rw [hdecl] at hnd
        rcases List.mem_cons.mp hnd with hnd | hnd
        · cases hnd
          exact ⟨rfl, rfl⟩
        · cases List.mem_singleton.mp hnd
      · rw [hdecl] at hnd
        cases hnd
    · cases hp
  refine ⟨fun x _ => hmap x, ?_, ?_, ?_⟩
  · intro fd hfd fn args hnd
    rw [(hcall fd hfd fn args hnd).1]
    exact nofun
  · rintro id ⟨obj, m, -, hm, -⟩
    cases hm
  · intro fd hfd fn args hnd
    rw [(hcall fd hfd fn args hnd).1]
    refine ⟨by simp [unparen], by simp [unparen], by simp [unparen], ?_⟩
    intro id obj hid hobj
    cases hid
    cases hobj
    refine ⟨by simp, fun okId o _ ho => ?_⟩
    cases ho

theorem callerFirst_facts : CallFacts callerFirst := by
  refine helpersProgram_facts fun f hf => ?_
  rcases List.mem_cons.mp hf with rfl | hf
  · exact .inl rfl
  · rw [List.mem_singleton.mp hf]
    exact .inr rfl

theorem calleeFirst_facts : CallFacts calleeFirst := by
  refine helpersProgram_facts fun f hf => ?_
  rcases List.mem_cons.mp hf with rfl | hf
  · exact .inr rfl
  · rw [List.mem_singleton.mp hf]
    exact .inl rfl

end Gobee
