/-
# The emitted functions

Everything before the functions leaves the names alone, and the functions are written one
after another with the alias table handed on.  So a successful `Emit` has a tree for the
body of every helper and every program.

* `emit_functionTrees` : **the bodies of all functions stand in the output, in order.**
* `accounts_functions` : what is collected from the bodies is what they print.
-/
import Gobee.PrintedBody
import Gobee.SourceMap

namespace Gobee

open EmitM

variable {α β : Type} {prog : Program}

/-! ## Trees of functions -/

/-- The functions `Emit` writes, in its order. -/
def emittedFuncs (prog : Program) : List FuncDecl :=
  prog.helpers.map HelperFunc.decl ++ prog.programs.map ProgramFunc.decl

/-- The trees of the bodies of some functions, and the names after them. -/
def functionTrees (prog : Program) : List FuncDecl → Names → Option (List (List CStmt) × Names)
  | [], n => some ([], n)
  | fd :: rest, n => do
      let body ← fd.body
      let (cs, n₁) ← blockTree prog body.list n
      let (css, n₂) ← functionTrees prog rest n₁
      return (cs :: css, n₂)

theorem functionTrees_cons {fd : FuncDecl} {rest : List FuncDecl} {n n' : Names}
    {trees : List (List CStmt)} :
    functionTrees prog (fd :: rest) n = some (trees, n') ↔
      ∃ body cs n₁ css, fd.body = some body ∧ blockTree prog body.list n = some (cs, n₁) ∧
        functionTrees prog rest n₁ = some (css, n') ∧ trees = cs :: css := by
  constructor
  · intro h
    obtain ⟨body, hbody, h⟩ := Option.bind_eq_some_iff.mp h
    obtain ⟨⟨cs, n₁⟩, hcs, h⟩ := Option.bind_eq_some_iff.mp h
    obtain ⟨⟨css, n₂⟩, hcss, h⟩ := Option.bind_eq_some_iff.mp h
    cases h
    exact ⟨body, cs, n₁, css, hbody, hcs, hcss, rfl⟩
  · rintro ⟨body, cs, n₁, css, hbody, hcs, hcss, rfl⟩
    simp [functionTrees, hbody, hcs, hcss]

theorem functionTrees_append {fds gds : List FuncDecl} {n n₁ n₂ : Names}
    {ts us : List (List CStmt)} (hts : functionTrees prog fds n = some (ts, n₁))
    (hus : functionTrees prog gds n₁ = some (us, n₂)) :
    functionTrees prog (fds ++ gds) n = some (ts ++ us, n₂) := by
  induction fds generalizing n ts with
  | nil =>
      cases hts
      exact hus
  | cons fd rest ih =>
      obtain ⟨body, cs, n', css, hbody, hcs, hcss, rfl⟩ := functionTrees_cons.mp hts
      exact functionTrees_cons.mpr ⟨body, cs, n', css ++ us, hbody, hcs, ih hcss, rfl⟩

/-! ## Bodies in the output -/

/-- The chunks stand in the list one after the other. -/
def Stand {γ : Type} : List (List γ) → List γ → Prop
  | [], _ => True
  | x :: xs, as => ∃ pre post, as = pre ++ x ++ post ∧ Stand xs post

theorem Stand.append_left {γ : Type} {xs : List (List γ)} {as : List γ} (pre : List γ)
    (h : Stand xs as) : Stand xs (pre ++ as) := by
  cases xs with
  | nil => trivial
  | cons x xs =>
      obtain ⟨p, post, rfl, hrest⟩ := h
      exact ⟨pre ++ p, post, by simp, hrest⟩

theorem Stand.append {γ : Type} {xs ys : List (List γ)} {as bs : List γ} (hx : Stand xs as)
    (hy : Stand ys bs) : Stand (xs ++ ys) (as ++ bs) := by
  induction xs generalizing as with
  | nil => exact hy.append_left as
  | cons x xs ih =>
      obtain ⟨pre, post, rfl, hrest⟩ := hx
      exact ⟨pre, post ++ bs, by simp, ih hrest⟩

/-- Whenever the computation succeeds, it writes the bodies of the functions, in order,
and changes the names as these do. -/
def WritesBodies (prog : Program) (fds : List FuncDecl) (m : EmitM α) : Prop :=
  ∀ n r, out m n = some r → ∃ trees, functionTrees prog fds n = some (trees, r.2.1) ∧
    Stand (trees.map blockActs) r.2.2

theorem WritesBodies.bind {fds gds : List FuncDecl} {m : EmitM α} {f : α → EmitM β}
    (hm : WritesBodies prog fds m) (hf : ∀ a, WritesBodies prog gds (f a)) :
    WritesBodies prog (fds ++ gds) (m >>= f) := by
  intro n r hr
  rw [out_bind] at hr
  obtain ⟨q, hq, hr⟩ := Option.bind_eq_some_iff.mp hr
  obtain ⟨t, ht, rfl⟩ := Option.map_eq_some_iff.mp hr
  obtain ⟨ts, hts, hstand⟩ := hm n q hq
  obtain ⟨us, hus, hstand'⟩ := hf q.1 q.2.1 t ht
  refine ⟨ts ++ us, functionTrees_append hts hus, ?_⟩
  rw [List.map_append]
  exact hstand.append hstand'

/-- A computation without bodies in front. -/
theorem WritesBodies.after {fds : List FuncDecl} {m : EmitM α} {f : α → EmitM β}
    (hm : WritesBodies prog [] m) (hf : ∀ a, WritesBodies prog fds (f a)) :
    WritesBodies prog fds (m >>= f) := WritesBodies.bind hm hf

/-- A computation without bodies at the end. -/
theorem WritesBodies.before {fds : List FuncDecl} {m : EmitM α} {f : α → EmitM β}
    (hm : WritesBodies prog fds m) (hf : ∀ a, WritesBodies prog [] (f a)) :
    WritesBodies prog fds (m >>= f) := by
  have h := WritesBodies.bind hm hf
  rwa [List.append_nil] at h

theorem bodies_pure (a : α) : WritesBodies prog [] (pure a : EmitM α) := by
  intro n r hr
  cases hr
  exact ⟨[], rfl, trivial⟩

theorem bodies_perform (a : Act) : WritesBodies prog [] (perform a) := by
  intro n r hr
  cases hr
  exact ⟨[], rfl, trivial⟩

theorem bodies_lift (x : Result α) : WritesBodies prog [] (lift x) := by
  intro n r hr
  rw [out_lift] at hr
  obtain ⟨a, -, rfl⟩ := Option.map_eq_some_iff.mp hr
  exact ⟨[], rfl, trivial⟩

theorem bodies_fail (msg : Text) : WritesBodies prog [] (fail msg : EmitM α) := by
  intro n r hr
  cases hr

theorem bodies_indented {fds : List FuncDecl} {m : EmitM Unit} (hm : WritesBodies prog fds m) :
    WritesBodies prog fds (indented m) :=
  WritesBodies.after (bodies_perform _) fun _ =>
    WritesBodies.before hm fun _ => bodies_perform _

theorem bodies_forEach {γ : Type} {f : γ → EmitM Unit} {fds : γ → List FuncDecl}
    (hf : ∀ x, WritesBodies prog (fds x) (f x)) (xs : List γ) :
    WritesBodies prog (xs.flatMap fds) (forEach f xs) := by
  induction xs with
  | nil => exact bodies_pure _
  | cons x xs ih => exact WritesBodies.bind (hf x) fun _ => ih

/-- One action, then the rest. -/
theorem bodies_then {fds : List FuncDecl} {a : Act} {f : Unit → EmitM β}
    (hf : ∀ u, WritesBodies prog fds (f u)) : WritesBodies prog fds (perform a >>= f) :=
  WritesBodies.after (bodies_perform a) hf

/-- A computed value, then the rest. -/
theorem bodies_lift_then {fds : List FuncDecl} {x : Result α} {f : α → EmitM β}
    (hf : ∀ a, WritesBodies prog fds (f a)) : WritesBodies prog fds (lift x >>= f) :=
  WritesBodies.after (bodies_lift x) hf

/-! ## The parts of the file -/

theorem bodies_writeHeader (source : Text) (withCoRE withEndian : Bool) :
    WritesBodies prog [] (writeHeader source withCoRE withEndian) := by
  unfold writeHeader
  refine bodies_then fun _ => bodies_then fun _ => ?_
  have hend : WritesBodies prog [] (do
      if withEndian then
        writeln "#include <bpf/bpf_endian.h>"
      writeln []) := by
    cases withEndian
    · exact bodies_perform _
    · exact bodies_then fun _ => bodies_perform _
  cases withCoRE
  · exact bodies_then fun _ => bodies_then fun _ => hend
  · exact bodies_then fun _ => bodies_then fun _ => bodies_then fun _ => hend

theorem bodies_writePrelude (fs : List Text) : WritesBodies prog [] (writePrelude fs) := by
  induction fs with
  | nil => exact bodies_pure _
  | cons f fs ih => exact bodies_then fun _ => bodies_then fun _ => ih

theorem bodies_writeFields (t : UserTypeDecl) (fields : List StructField) :
    WritesBodies prog [] (writeFields t fields) := by
  induction fields with
  | nil => exact bodies_pure _
  | cons f fields ih =>
      exact bodies_then fun _ => bodies_lift_then fun _ => bodies_then fun _ => ih

theorem bodies_writeUserType (t : UserTypeDecl) :
    WritesBodies prog [] (writeUserType prog t) := by
  refine bodies_then fun _ => ?_
  unfold writeStruct
  split
  · refine bodies_then fun _ => WritesBodies.after (bodies_indented (bodies_writeFields _ _)) ?_
    exact fun _ => bodies_then fun _ => bodies_perform _
  · exact bodies_fail _

theorem bodies_writeMapEnd (m : MapDecl) : WritesBodies prog [] (writeMapEnd m) := by
  unfold writeMapEnd
  by_cases hmax : 0 < m.maxEntries
  · simp only [hmax, if_true]
    exact bodies_then fun _ => bodies_perform _
  · simp only [hmax, if_false]
    exact bodies_perform _

theorem bodies_writeMapTypes (m : MapDecl) : WritesBodies prog [] (writeMapTypes m) := by
  unfold writeMapTypes
  split_ifs
  · exact bodies_writeMapEnd m
  · exact bodies_lift_then fun _ => bodies_then fun _ => bodies_writeMapEnd m
  · exact bodies_then fun _ => bodies_then fun _ => bodies_writeMapEnd m
  · exact bodies_then fun _ => bodies_then fun _ => bodies_writeMapEnd m
  · exact bodies_lift_then fun _ => bodies_then fun _ => bodies_then fun _ => bodies_then fun _ =>
      bodies_perform _
  · split
    · exact bodies_fail _
    · exact bodies_lift_then fun _ => bodies_lift_then fun _ => bodies_then fun _ =>
        bodies_then fun _ => bodies_writeMapEnd m

theorem bodies_writeMap (m : MapDecl) : WritesBodies prog [] (writeMap m) := by
  have hdef : WritesBodies prog [] (writeMapDef m) :=
    bodies_lift_then fun _ => bodies_then fun _ => bodies_then fun _ => bodies_writeMapTypes m
  unfold writeMap
  split
  · exact bodies_then fun _ => hdef
  · exact hdef

/-! ## The functions -/

theorem bodies_writeBody (fd : FuncDecl) : WritesBodies prog [fd] (writeBody prog fd.body) := by
  intro n r hr
  cases hbody : fd.body with
  | none =>
      rw [hbody] at hr
      cases hr
  | some body =>
      rw [hbody] at hr
      obtain ⟨cs, hcs, hacts⟩ := writeBlock_ok_iff.mp (out_eq_some.mp hr)
      refine ⟨[cs], functionTrees_cons.mpr ⟨body, cs, r.2.1, [], hbody, hcs, rfl, rfl⟩, ?_⟩
      exact ⟨[], [], by simp [hacts], trivial⟩

theorem bodies_writeHelper (f : HelperFunc) : WritesBodies prog [f.decl] (writeHelper prog f) :=
  bodies_then fun _ => bodies_lift_then fun _ => bodies_lift_then fun _ => bodies_then fun _ =>
    WritesBodies.before (bodies_indented (bodies_writeBody f.decl)) fun _ =>
      bodies_then fun _ => bodies_perform _

theorem bodies_writeProgram (f : ProgramFunc) : WritesBodies prog [f.decl] (writeProgram prog f) :=
  bodies_then fun _ => bodies_then fun _ => bodies_lift_then fun _ => bodies_then fun _ =>
    WritesBodies.before (bodies_indented (bodies_writeBody f.decl)) fun _ => bodies_perform _

theorem bodies_none {γ : Type} {f : γ → EmitM Unit} (hf : ∀ x, WritesBodies prog [] (f x))
    (xs : List γ) : WritesBodies prog [] (forEach f xs) := by
  have h := bodies_forEach hf xs
  rwa [List.flatMap_eq_nil_iff.mpr fun _ _ => rfl] at h

/-- What `Emit` writes after the support code. -/
def emitDefs (prog : Program) : EmitM Unit := do
  forEach (writeUserType prog) prog.types
  forEach writeMap prog.maps
  forEach (writeHelper prog) prog.helpers
  forEach (writeProgram prog) prog.programs

theorem emitActs_eq (prog : Program) (label : Text) :
    emitActs prog label = (do
      writeHeader label (usesKernelFieldAccess prog) (usesEndianHelpers prog)
      writeLicense prog
      writePrelude (usedPreludeHelpers prog)
      emitDefs prog) := rfl

theorem bodies_emitDefs : WritesBodies prog (emittedFuncs prog) (emitDefs prog) := by
  unfold emitDefs emittedFuncs
  refine WritesBodies.after (bodies_none bodies_writeUserType _) fun _ => ?_
  refine WritesBodies.after (bodies_none bodies_writeMap _) fun _ => ?_
  rw [List.map_eq_flatMap, List.map_eq_flatMap]
  exact WritesBodies.bind (bodies_forEach bodies_writeHelper _) fun _ =>
    bodies_forEach bodies_writeProgram _

theorem bodies_emitActs (label : Text) :
    WritesBodies prog (emittedFuncs prog) (emitActs prog label) := by
  rw [emitActs_eq]
  refine WritesBodies.after (bodies_writeHeader _ _ _) fun _ => bodies_then fun _ => ?_
  exact WritesBodies.after (bodies_writePrelude _) fun _ => bodies_emitDefs

/-! ## What is collected from the functions -/

theorem Forall₂.exists_right {γ δ : Type} {R : γ → δ → Prop} {xs : List γ} {ys : List δ}
    (h : List.Forall₂ R xs ys) {x : γ} (hx : x ∈ xs) : ∃ y ∈ ys, R x y := by
  induction h with
  | nil => cases hx
  | cons hxy _ ih =>
      rcases List.mem_cons.mp hx with rfl | hx
      · exact ⟨_, List.mem_cons_self, hxy⟩
      · obtain ⟨y, hy, hr⟩ := ih hx
        exact ⟨y, List.mem_cons_of_mem _ hy, hr⟩

theorem Forall₂.exists_left {γ δ : Type} {R : γ → δ → Prop} {xs : List γ} {ys : List δ}
    (h : List.Forall₂ R xs ys) {y : δ} (hy : y ∈ ys) : ∃ x ∈ xs, R x y :=
  Forall₂.exists_right h.flip hy

/-- The nodes printed for a function. -/
def funcNodes (prog : Program) (fd : FuncDecl) : List PNode :=
  match fd.body with
  | none => []
  | some body => blockNodes prog body.list

/-- What is collected from the body of each function is what its printed nodes
contribute. -/
theorem accounts_functions {g : CTree → List β} {h : Text → Option Ident → List β}
    {I : Aliases → Prop} {S : Stmt → Prop} (hword : ∀ w, h w none = [])
    (hsurvives : Survives prog S I) {fds : List FuncDecl} :
    ∀ {n n' : Names} {trees : List (List CStmt)},
      (∀ fd ∈ fds, ∀ s, .stmt s ∈ fd.nodes → S s) → I n.aliases →
      functionTrees prog fds n = some (trees, n') →
      List.Forall₂ (fun fd cs => Accounts prog g h I (blockTrees cs) (funcNodes prog fd)) fds trees := by
  induction fds with
  | nil =>
      intro n n' trees hS hI htrees
      cases htrees
      exact .nil
  | cons fd rest ih =>
      intro n n' trees hS hI htrees
      obtain ⟨body, cs, n₁, css, hbody, hcs, hcss, rfl⟩ := functionTrees_cons.mp htrees
      have hnodes : ∀ s, .stmt s ∈ inspectStmts body.list → S s := by
        intro s hs
        refine hS fd List.mem_cons_self s ?_
        unfold FuncDecl.nodes
        rw [hbody]
        exact hs
      obtain ⟨hacc, hI₁⟩ := accounts_block hword hsurvives hnodes hI hcs
      refine .cons ?_ (ih (fun fd' hfd' => hS fd' (List.mem_cons_of_mem _ hfd')) hI₁ hcss)
      unfold funcNodes
      rw [hbody]
      exact hacc

/-- A printed expression of a function is a node of its body. -/
theorem funcNodes_inspect {fd : FuncDecl} {e : Expr} (h : .expr e ∈ funcNodes prog fd) :
    .expr e ∈ fd.nodes := by
  unfold funcNodes at h
  unfold FuncDecl.nodes
  cases hbody : fd.body with
  | none => rw [hbody] at h; cases h
  | some body =>
      rw [hbody] at h
      exact block_inspect h

/-- **A successful `Emit` has a tree for the body of each function**, and the bodies stand
in the output in order. -/
theorem emit_functionTrees {label text : Text} {ms : List SourceMapping}
    (h : emit prog label = .ok (text, ms)) :
    ∃ n acts trees, emitActs prog label ⟨[], 0⟩ = .ok ((), n, acts) ∧
      text = (Emitter.after prog acts).buf ∧
      functionTrees prog (emittedFuncs prog) ⟨[], 0⟩ = some (trees, n) ∧
      Stand (trees.map blockActs) acts := by
  obtain ⟨⟨_, n, acts⟩, hacts, heq⟩ := bind_ok h
  cases heq
  obtain ⟨trees, htrees, hstand⟩ := bodies_emitActs label _ _ (out_eq_some.mpr hacts)
  exact ⟨n, acts, trees, hacts, rfl, htrees, hstand⟩

end Gobee
