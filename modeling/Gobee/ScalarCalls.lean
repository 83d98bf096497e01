/-
# Scalar helpers

A scalar function is emitted as a C function, and a call of it does the same in both
languages: it returns the same value, or none, unless the function panics in Go, which is where
the operations of C have no meaning either.  The helpers are emitted in the order of the source
and call helpers declared before them, so the table of functions grows on both sides in step.

* `emitted_call` : a call of an emitted function;
* `scalar_helpers_preserved` : **whatever the helpers of a program compute in Go, the
  functions that `Emit` writes for them compute in C.**
-/
import Gobee.ConstExprs
import Gobee.Functions
import Gobee.ScalarRuns

namespace Gobee

open CSyntax MachineInt Refinement EmitM
open CSyntax.CExpr (render erase)

/-! ## The emitted function -/

section

variable (prog : Program)

/-- The types and names of the C parameters. -/
def cParams : List Field → Option (List (Text × Text))
  | [] => some []
  | f :: rest => do
      let cType ← (goTypeToC? (prog.info.typeOf f.type)).toOption
      let params ← cParams rest
      return f.names.map (fun n => (cType, n.name)) ++ params

/-- The C function of a helper. -/
def cFunction (h : HelperFunc) : Option CFunction := do
  let retC ← (helperReturn prog h).toOption
  let params ← cParams prog (fieldsOf h.decl.params)
  let body ← h.decl.body
  let cs ← (blockTree prog body.list ⟨[], 0⟩).map Prod.fst
  return ⟨retC, h.name, params, cs⟩

/-- The C functions of some helpers. -/
def cFunctions : List HelperFunc → Option (List CFunction)
  | [] => some []
  | h :: rest => do
      let fn ← cFunction prog h
      let fns ← cFunctions rest
      return fn :: fns

/-- The actions that write some helpers. -/
def helperActs : List HelperFunc → List CFunction → List Act
  | h :: hs, fn :: fns => .recordPos h.decl.pos :: (fn.acts ++ helperActs hs fns)
  | _, _ => []

end

/-! ## Parameters -/

section

variable {prog : Program} {σ : GoStore}

/-- The parameters in both languages. -/
def ParamsMatch (params : List (Text × Text)) (L : Locals) : Prop :=
  List.Forall₂ (fun q p => q.2 = p.1.name ∧ cScalar q.1 = some p.2) params L

theorem params_of_locals {h : HelperFunc} : ∀ {fields : List Field} {L : Locals},
    paramLocals prog fields = some L →
      ∃ params, cParams prog fields = some params ∧ ParamsMatch params L ∧
        helperParams prog h fields = .ok (params.map fun p => declString p.1 p.2)
  | [], L, hL => by
      cases hL
      exact ⟨[], rfl, .nil, rfl⟩
  | f :: rest, L, hL => by
      rw [paramLocals] at hL
      split_ifs at hL with hnames
      · cases hL
      obtain ⟨s, hs, hrest⟩ := Option.bind_eq_some_iff.mp hL
      obtain ⟨L₁, hL₁, heq⟩ := Option.bind_eq_some_iff.mp hrest
      cases heq
      obtain ⟨cType, hc, hscalar⟩ := cType_scalar hs
      obtain ⟨params, hparams, hmatch, htexts⟩ := params_of_locals (h := h) hL₁
      refine ⟨f.names.map (fun n => (cType, n.name)) ++ params, ?_, ?_, ?_⟩
      · rw [cParams, hc, hparams]
        rfl
      · refine List.rel_append ?_ hmatch
        rw [List.forall₂_map_left_iff, List.forall₂_map_right_iff]
        exact List.forall₂_same.mpr fun n _ => ⟨rfl, hscalar⟩
      · rw [helperParams, hc, htexts]
        have hempty : f.names.isEmpty = false := by simpa using hnames
        simp only [wrapError, hempty]
        simp [List.map_map, Function.comp_def]
        rfl

theorem assignAll_of_notMem {id : Ident} : ∀ {ids : List Ident} {ns : List Int}, id ∉ ids →
    ∀ σ, assignAll σ ids ns id = σ id
  | [], _, _, _ => rfl
  | _ :: _, [], _, _ => rfl
  | j :: ids, n :: ns, h, σ => by
      rw [List.mem_cons, not_or] at h
      have hrest : assignAll (Function.update σ j n) ids ns id = Function.update σ j n id :=
        assignAll_of_notMem h.2 _
      rw [Function.update_of_ne h.1] at hrest
      exact hrest

/-- The arguments are the values of the parameters. -/
theorem paramCells_args {params : List (Text × Text)} {L : Locals} (h : ParamsMatch params L) :
    ∀ {ns : List Int} {xs : List Typed}, (L.map (·.1.name)).Nodup →
      ArgsOf (L.map Prod.snd) ns xs → ∀ σ,
      CFunction.paramCells params xs = some (cellsOf L (assignAll σ (L.map Prod.fst) ns)) ∧
        Holding L (assignAll σ (L.map Prod.fst) ns) := by
  induction h with
  | nil =>
      intro ns xs _ hargs σ
      cases ns <;> cases xs <;> cases hargs
      exact ⟨rfl, by simp [Holding]⟩
  | @cons q p params L hp hrest ih =>
      intro ns xs hL hargs σ
      obtain ⟨n, ns, rfl⟩ : ∃ n rest, ns = n :: rest := by
        cases ns with
        | nil => cases hargs
        | cons n ns => exact ⟨n, ns, rfl⟩
      obtain ⟨x, xs, rfl⟩ : ∃ x rest, xs = x :: rest := by
        cases xs with
        | nil => cases hargs
        | cons x xs => exact ⟨x, xs, rfl⟩
      rw [List.map_cons, List.nodup_cons] at hL
      obtain ⟨⟨hn, hx⟩, hargs⟩ := hargs
      obtain ⟨hcells, hholds⟩ := ih hL.2 hargs (Function.update σ p.1 n)
      have hfirst : assignAll (Function.update σ p.1 n) (L.map Prod.fst) ns p.1 = n := by
        rw [assignAll_of_notMem, Function.update_self]
        intro hmem
        obtain ⟨r, hr, heq⟩ := List.mem_map.mp hmem
        exact ident_ne_of_fresh hL.1 hr heq
      have hassign : assignAll σ ((p :: L).map Prod.fst) (n :: ns) =
          assignAll (Function.update σ p.1 n) (L.map Prod.fst) ns := rfl
      rw [hassign]
      constructor
      · have hcons : ∀ τ : GoStore, cellsOf (p :: L) τ =
            ⟨p.1.name, p.2, some (τ p.1)⟩ :: cellsOf L τ := fun _ => rfl
        rw [hcons, hfirst, CFunction.paramCells, hp.2, hcells, hp.1]
        show some (Cell.mk p.1.name p.2 (some (convert p.2 x.2)) :: _) = _
        rw [hx]
      · refine List.forall_mem_cons.mpr ⟨?_, hholds⟩
        rw [hfirst]
        exact hn

/-! ## Functions -/

/-- The result of a function. -/
theorem result_match {h : HelperFunc} {r : Option Scalar}
    (hr : resultScalar prog (fieldsOf h.decl.results) = some r) :
    ∃ retC, helperReturn prog h = .ok retC ∧ (r = none → retC = "void") ∧
      ∀ s, r = some s → cScalar retC = some s := by
  rw [helperReturn]
  rcases hfields : fieldsOf h.decl.results with _ | ⟨f, _ | ⟨g, fs⟩⟩
  · rw [hfields, resultScalar] at hr
    cases hr
    exact ⟨_, rfl, fun _ => rfl, fun s hs => by cases hs⟩
  · rw [hfields, resultScalar] at hr
    split_ifs at hr with hnames
    obtain ⟨s, hs, rfl⟩ := Option.map_eq_some_iff.mp hr
    obtain ⟨cType, hc, hscalar⟩ := cType_scalar hs
    refine ⟨cType, ?_, fun hnone => (by cases hnone), fun u hu => by rw [hscalar, hu]⟩
    change (if 1 < f.names.length then _ else _) = _
    rw [if_neg (by simp [hnames]), hc]
    rfl
  · rw [hfields] at hr
    cases hr

mutual
/-- After a terminating statement the next one is never reached. -/
theorem goStmt_terminating {calls : GoCallees} {fuel : Nat} {τ : GoStore} :
    ∀ (s : Stmt) (σ : GoStore), isTerminating s = true →
      goStmt prog calls fuel s σ ≠ .ok (.next τ)
  | .ret _ [], σ, _, hrun => by
      rw [goStmt] at hrun
      cases hrun
  | .ret _ [e], σ, _, hrun => by
      rw [goStmt] at hrun
      obtain ⟨v, -, hrun⟩ := bind_eq_ok hrun
      cases hrun
  | .ret _ (_ :: _ :: _), σ, _, hrun => by cases hrun
  | .block _ list, σ, h, hrun => by
      rw [goStmt] at hrun
      exact goBlock_terminating list σ h hrun
  | .ifs _ init cond body els, σ, h, hrun => by
      rw [isTerminating, Bool.and_eq_true] at h
      rw [goStmt] at hrun
      obtain ⟨σ', -, hrun⟩ := andThen_eq_next hrun
      obtain ⟨b, -, hrun⟩ := bind_eq_ok hrun
      cases b with
      | true => exact goBlock_terminating body σ' h.1 hrun
      | false => exact goElse_terminating els σ' h.2 hrun
  | .decl _ _ _, _, h, _ | .assign _ _ _, _, h, _ | .incDec _ _, _, h, _ | .expr _, _, h, _
  | .fors _ _ _ _ _, _, h, _ | .other _ _ _, _, h, _ => by cases h

theorem goBlock_terminating {calls : GoCallees} {fuel : Nat} {τ : GoStore} :
    ∀ (list : List Stmt) (σ : GoStore), endsTerminating list = true →
      goBlock prog calls fuel list σ ≠ .ok (.next τ)
  | [], _, h, _ => by cases h
  | [s], σ, h, hrun => by
      rw [goBlock] at hrun
      obtain ⟨σ', hs, -⟩ := andThen_eq_next hrun
      exact goStmt_terminating s σ h hs
  | s :: t :: rest, σ, h, hrun => by
      rw [goBlock] at hrun
      obtain ⟨σ', -, hrun⟩ := andThen_eq_next hrun
      exact goBlock_terminating (t :: rest) σ' h hrun

theorem goElse_terminating {calls : GoCallees} {fuel : Nat} {τ : GoStore} :
    ∀ (els : Option Stmt) (σ : GoStore), elseTerminating els = true →
      goStmt? prog calls fuel els σ ≠ .ok (.next τ)
  | none, _, h, _ => by cases h
  | some s, σ, h, hrun => by
      rw [goStmt?] at hrun
      exact goStmt_terminating s σ h hrun
end

/-- What a function returns. -/
theorem refines_result_of {fn : CFunction} {sig : Signature} {L : Locals}
    (hvoid : sig.result = none → fn.ret = "void")
    (hC : ∀ s, sig.result = some s → cScalar fn.ret = some s) {e : Ends GoStore (Option Int)}
    {e' : Ends Cells (Option Typed)} (h : Ends.Rel (Mirrors L) (RetOf sig.result) e e')
    (hend : ∀ σ, e = .next σ → sig.result = none) :
    Refines (fun r x => r = x ∧ Returned sig.result r) (goResult sig e) (fn.result e') := by
  have hnone : sig.result = none → Refines (fun r x => r = x ∧ Returned sig.result r)
      (if sig.result = none then .ok none else .error .fault)
      (if fn.ret = "void" then .ok none else .error .fault) := fun h => by
    rw [if_pos h, if_pos (hvoid h), h]
    exact .ok ⟨rfl, trivial⟩
  match e, e', h with
  | .next σ, .next _, _ => exact hnone (hend σ rfl)
  | .ret none, .ret none, h => exact hnone h
  | .ret (some n), .ret (some x), h =>
      obtain ⟨s, hs, hn, hx⟩ := h
      rw [goResult, hs, CFunction.result, hC s hs]
      exact .ok ⟨by rw [hx], rfl, hn⟩

theorem checkHelper_cases {sigs : Signatures} {f : HelperFunc} {sig : Signature}
    (hS : ∀ q ∈ sigs, plainName q.1.name = true) (h : checkHelper prog sigs f = some sig) :
    signature prog f.decl = some sig ∧ f.name = f.decl.name.name ∧ plainName f.name = true ∧
      f.name ∉ sigs.map (·.1.name) ∧ ScalarScope sigs sig.params ∧
      ∃ body L, f.decl.body = some body ∧
        checkBlock prog sigs sig.result body.list sig.params = some L ∧
        (sig.result = none ∨ endsTerminating body.list = true) := by
  obtain ⟨sig', hsig, hif⟩ := Option.bind_eq_some_iff.mp h
  simp only at hif
  split_ifs at hif with hcheck
  obtain rfl := Option.some.inj hif
  simp only [Bool.and_eq_true, decide_eq_true_eq, List.all_eq_true] at hcheck
  obtain ⟨⟨⟨⟨⟨⟨⟨hname, hplain⟩, hnew⟩, hnodup⟩, hplains⟩, hfresh⟩, hbody⟩, hend⟩ := hcheck
  obtain ⟨L, hL⟩ := Option.isSome_iff_exists.mp hbody
  obtain ⟨body, hbody, hL⟩ := Option.bind_eq_some_iff.mp hL
  rw [hbody, Option.elim_some, Bool.or_eq_true, Option.isNone_iff_eq_none] at hend
  refine ⟨hsig, hname, hplain, hnew, ⟨⟨fun p hp => hplains _ (name_mem hp), hS⟩, hnodup, ?_⟩, body, L,
    hbody, hL, hend⟩
  intro p hp q hq heq
  exact hfresh _ (name_mem hp) (List.mem_cons_of_mem _ (heq ▸ sig_mem hq))

/-- `writeHelper` writes the C function. -/
theorem out_writeHelper {f : HelperFunc} {retC : Text} {params : List (Text × Text)} {body : Body}
    {cs : List CStmt} {n n' : Names} (hret : helperReturn prog f = .ok retC)
    (hparams : helperParams prog f (fieldsOf f.decl.params) =
      .ok (params.map fun p => declString p.1 p.2))
    (hbody : f.decl.body = some body) (hcs : blockTree prog body.list n = some (cs, n')) :
    out (writeHelper prog f) n =
      some ((), n', .recordPos f.decl.pos :: CFunction.acts ⟨retC, f.name, params, cs⟩) := by
  have hblock : out (writeBody prog f.decl.body) n = some ((), n', blockActs cs) := by
    rw [hbody, writeBody, out_writeBlock, hcs]
    rfl
  have hret' : (helperReturn prog f).toOption = some retC := by
    rw [hret]
    rfl
  have hparams' : (helperParams prog f (fieldsOf f.decl.params)).toOption =
      some (params.map fun p => declString p.1 p.2) := by
    rw [hparams]
    rfl
  rw [writeHelper]
  simp only [recordPos, writef, writeln, out_bind, out_perform, out_lift, out_indented, hret',
    hparams', hblock, Option.map_some, Option.bind_some]
  have hend : Act.indent :: (blockActs cs ++ [.dedent]) ++ ([.writeln "\x7d"] ++ [.writeln []]) =
      .indent :: (blockActs cs ++ [.dedent, .writeln "\x7d", .writeln []]) := by
    rw [List.cons_append, List.append_assoc]
    rfl
  rw [hend]
  rfl

/-- **A scalar helper is emitted, and a call of it does the same in both languages.** -/
theorem emitted_helper {sigs : Signatures} {f : HelperFunc} {sig : Signature}
    (hS : ∀ q ∈ sigs, plainName q.1.name = true) (h : checkHelper prog sigs f = some sig)
    {goCalls : GoCallees} {cCalls : Callees} (hcalls : CallsAgree sigs goCalls cCalls)
    (fuel : Nat) :
    ∃ fn, cFunction prog f = some fn ∧ fn.name = f.decl.name.name ∧
      (∀ t ∈ blockTrees fn.body, Legible t) ∧
      (∀ k, out (writeHelper prog f) ⟨[], k⟩ =
        some ((), ⟨[], k⟩, .recordPos f.decl.pos :: fn.acts)) ∧
      ∀ ns xs, ArgsOf (sig.params.map Prod.snd) ns xs →
        Refines (fun r x => r = x ∧ Returned sig.result r) (goCall prog fuel goCalls f.decl ns)
          (fn.call fuel cCalls xs) := by
  obtain ⟨hsig, hname, -, -, hscope, body, L, hbody, hL, hend⟩ := checkHelper_cases hS h
  obtain ⟨cs, htrees, hcs⟩ := emitted_block hcalls fuel body.list hscope hL
  obtain ⟨ps, hps, hrest⟩ := Option.bind_eq_some_iff.mp hsig
  obtain ⟨r, hr, heq⟩ := Option.bind_eq_some_iff.mp hrest
  cases heq
  obtain ⟨params, hparams, hmatch, htexts⟩ := params_of_locals (h := f) hps
  obtain ⟨retC, hretC, hvoid, hscalar⟩ := result_match hr
  refine ⟨⟨retC, f.name, params, cs⟩, ?_, hname, hcs.legible, fun k => ?_, ?_⟩
  · rw [cFunction, hretC, hparams, hbody]
    simp [htrees, Except.toOption]
  · exact out_writeHelper hretC htexts hbody (htrees k)
  · intro ns xs hargs
    obtain ⟨hcells, hholds⟩ := paramCells_args hmatch hscope.distinct hargs fun _ => 0
    rw [goCall, hsig, hbody, CFunction.call, hcells]
    -- a function with a result does not reach the end of its body
    have hends : ∀ e, goBlock prog goCalls fuel body.list
        (assignAll (fun _ => 0) (ps.map Prod.fst) ns) = .ok e → ∀ σ, e = .next σ → r = none := by
      rintro _ hrun σ rfl
      exact hend.resolve_right fun h => goBlock_terminating body.list _ h hrun
    exact ((hcs.runs _ hholds).and_left hends).bind fun e e' he =>
      refines_result_of hvoid hscalar he.1 he.2

/-! ## The table of functions -/

theorem CallsAgree.cons {sigs : Signatures} {goCalls : GoCallees} {cCalls : Callees} {decl : Ident}
    {sig : Signature} {go : List Int → Comp (Option Typed)}
    {c : List Typed → Comp (Option Typed)}
    (hcalls : CallsAgree sigs goCalls cCalls) (hnew : decl.name ∉ sigs.map (·.1.name))
    (hfunc : ∀ ns xs, ArgsOf (sig.params.map Prod.snd) ns xs →
      Refines (fun r x => r = x ∧ Returned sig.result r) (go ns) (c xs)) :
    CallsAgree ((decl, sig) :: sigs) (fun id args => if id = decl then go args else goCalls id args)
      (fun w args => if w = decl.name then c args else cCalls w args) := by
  intro q hq ns xs hargs
  rcases List.mem_cons.mp hq with rfl | hq
  · simp only [if_true]
    exact hfunc ns xs hargs
  · have hname : q.1.name ≠ decl.name := fun heq => hnew (heq ▸ sig_mem hq)
    have hident : q.1 ≠ decl := fun heq => hname (congrArg Ident.name heq)
    simp only [if_neg hname, if_neg hident]
    exact hcalls q hq ns xs hargs

/-- Helpers one after the other. -/
theorem emitted_helpers (fuel : Nat) : ∀ (hs : List HelperFunc) {sigs sigs' : Signatures},
    (∀ q ∈ sigs, plainName q.1.name = true) → scalarHelpers prog sigs hs = some sigs' →
    ∀ {goCalls : GoCallees} {cCalls : Callees}, CallsAgree sigs goCalls cCalls →
      ∃ fns, cFunctions prog hs = some fns ∧
        (∀ fn ∈ fns, ∀ t ∈ blockTrees fn.body, Legible t) ∧
        (∀ k, out (forEach (writeHelper prog) hs) ⟨[], k⟩ =
          some ((), ⟨[], k⟩, helperActs hs fns)) ∧
        CallsAgree sigs' (goCallees prog fuel goCalls hs) (cCallees fuel cCalls fns)
  | [], sigs, sigs', _, h, goCalls, cCalls, hcalls => by
      cases h
      exact ⟨[], rfl, by simp, fun _ => rfl, hcalls⟩
  | f :: hs, sigs, sigs', hS, h, goCalls, cCalls, hcalls => by
      obtain ⟨sig, hcheck, hrest⟩ := Option.bind_eq_some_iff.mp h
      obtain ⟨-, hname, hplain, hnew, -⟩ := checkHelper_cases hS hcheck
      obtain ⟨fn, hfn, hfname, hlegible, hout, hcall⟩ := emitted_helper hS hcheck hcalls fuel
      rw [hname] at hnew hplain
      have hcalls' := hcalls.cons hnew hcall
      obtain ⟨fns, hfns, hlegibles, houts, hagree⟩ := emitted_helpers fuel hs
        (List.forall_mem_cons.mpr ⟨hplain, hS⟩) hrest hcalls'
      refine ⟨fn :: fns, ?_, List.forall_mem_cons.mpr ⟨hlegible, hlegibles⟩, fun k => ?_, ?_⟩
      · rw [cFunctions, hfn, hfns]
        rfl
      · rw [forEach, out_bind, hout k, Option.bind_some, houts k]
        rfl
      · rw [← hfname] at hagree
        exact hagree

/-- A result in Go is the result in C. -/
theorem CallsAgree.value {sigs : Signatures} {goCalls : GoCallees} {cCalls : Callees}
    (h : CallsAgree sigs goCalls cCalls) {q : Ident × Signature} (hq : q ∈ sigs)
    {ns : List Int} {xs : List Typed} (hargs : ArgsOf (q.2.params.map Prod.snd) ns xs)
    {r : Option Typed} (hgo : goCalls q.1 ns = .ok r) : cCalls q.1.name xs = .ok r := by
  have hcall := h q hq ns xs hargs
  rw [hgo] at hcall
  obtain ⟨x, hx, rfl, -⟩ := hcall
  exact hx

theorem noSignatures (goCalls : GoCallees) (cCalls : Callees) : CallsAgree [] goCalls cCalls := by
  intro q hq
  cases hq

/-- What is written before any function leaves the names alone. -/
theorem out_after (prog : Program) {α β : Type} {m : EmitM α} {f : α → EmitM β} {n : Names} {r : β × Names × List Act}
    (hm : WritesBodies prog [] m) (h : out (m >>= f) n = some r) :
    ∃ a acts q, out (f a) n = some q ∧ r.2.2 = acts ++ q.2.2 := by
  rw [out_bind] at h
  obtain ⟨p, hp, h⟩ := Option.bind_eq_some_iff.mp h
  obtain ⟨q, hq, rfl⟩ := Option.map_eq_some_iff.mp h
  obtain ⟨trees, htrees, -⟩ := hm n p hp
  cases htrees
  exact ⟨p.1, p.2.2, q, hq, rfl⟩

/-- What `Emit` writes before and after the helpers. -/
theorem emit_helpers {label : Text} {r : Unit × Names × List Act}
    (h : emitActs prog label ⟨[], 0⟩ = .ok r) :
    ∃ pre q post, out (forEach (writeHelper prog) prog.helpers) ⟨[], 0⟩ = some q ∧
      r.2.2 = pre ++ (q.2.2 ++ post) := by
  have h₁ := out_eq_some.mpr h
  rw [emitActs_eq] at h₁
  obtain ⟨-, acts₁, q₁, h₂, hq₁⟩ := out_after prog (bodies_writeHeader _ _ _) h₁
  obtain ⟨-, acts₂, q₂, h₃, hq₂⟩ := out_after prog (bodies_perform _) h₂
  obtain ⟨-, acts₃, q₃, h₄, hq₃⟩ := out_after prog (bodies_writePrelude _) h₃
  rw [emitDefs] at h₄
  obtain ⟨-, acts₄, q₄, h₅, hq₄⟩ := out_after prog (bodies_none bodies_writeUserType _) h₄
  obtain ⟨-, acts₅, q₅, h₆, hq₅⟩ := out_after prog (bodies_none bodies_writeMap _) h₅
  rw [out_bind] at h₆
  obtain ⟨q, hq, h₇⟩ := Option.bind_eq_some_iff.mp h₆
  obtain ⟨post, -, rfl⟩ := Option.map_eq_some_iff.mp h₇
  refine ⟨acts₁ ++ (acts₂ ++ (acts₃ ++ (acts₄ ++ acts₅))), q, post.2.2, hq, ?_⟩
  rw [hq₁, hq₂, hq₃, hq₄, hq₅]
  simp only [List.append_assoc]

end

theorem exists_of_isOk {α : Type} {r : Gobee.Result α} (h : r.isOk = true) : ∃ a, r = .ok a := by
  cases r with
  | ok a => exact ⟨a, rfl⟩
  | error e => cases h

/-- **Whatever the scalar helpers of a program compute in Go, the functions that `Emit` writes
for them compute in C.**  The functions stand in the output one after the other, C reads each
of their expressions back, and a call with values of the parameter types has a meaning in Go and,
unless it panics there, ends in the same way in both languages, whatever bound is put on the
rounds of the loops. -/
theorem scalar_helpers_preserved (prog : Program) (label text : Text) (ms : List SourceMapping)
    (sigs : Signatures) (hemit : emit prog label = .ok (text, ms))
    (hscalar : scalarHelpers prog [] prog.helpers = some sigs) :
    ∃ fns pre post,
      cFunctions prog prog.helpers = some fns ∧
      text = (Emitter.new.acts prog (pre ++ (helperActs prog.helpers fns ++ post))).buf ∧
      (∀ fn ∈ fns, ∀ t ∈ blockTrees fn.body, readBack (render t) = some (erase t)) ∧
      ∀ fuel, CallsAgree sigs
        (goCallees prog fuel (fun _ _ => .error .fault) prog.helpers)
        (cCallees fuel (fun _ _ => .error .fault) fns) := by
  have htable := fun fuel => emitted_helpers fuel prog.helpers
    (fun q hq => by cases hq) hscalar
    (noSignatures (fun _ _ => .error .fault) fun _ _ => .error .fault)
  obtain ⟨fns, hfns, hlegible, houts, -⟩ := htable 0
  obtain ⟨r, hacts, heq⟩ := bind_ok hemit
  cases heq
  obtain ⟨pre, q, post, hq, hr⟩ := emit_helpers hacts
  rw [houts 0] at hq
  cases hq
  refine ⟨fns, pre, post, hfns, congrArg (fun acts => (Emitter.new.acts prog acts).buf) hr,
    fun fn hfn t ht => (readBack_eq_iff t).mpr (hlegible fn hfn t ht), fun fuel => ?_⟩
  obtain ⟨fns', hfns', -, -, hagree⟩ := htable fuel
  obtain rfl := Option.some.inj (hfns.symm.trans hfns')
  exact hagree

/-- The uses of the identifiers of `foldProgram`. -/
def foldUses (id : Ident) : Option Obj :=
  if id.name = "uint32" then some ⟨⟨"uint32", 0⟩, .typeName, .basic .uint32⟩
  else if id.name = "step" then some ⟨⟨"step", 5⟩, .func, .other "func(s uint32, i uint32) uint32"⟩
  else if id.name = "fold" then some ⟨⟨"fold", 95⟩, .func, .other "func(n uint32) uint32"⟩
  else if id.name = ['s'] then some ⟨⟨['s'], if id.pos < 100 then 10 else 105⟩, .var, .basic .uint32⟩
  else if id.name = ['i'] then some ⟨⟨['i'], if id.pos < 100 then 12 else 120⟩, .var, .basic .uint32⟩
  else if id.name = ['n'] then some ⟨⟨['n'], if id.pos < 230 then 101 else 240⟩, .var, .basic .uint32⟩
  else none

/-- The type `uint32`. -/
def u32 (pos : Pos) : Expr := .ident ⟨"uint32", pos⟩

/-- Go's `func step(s, i uint32) uint32`, which returns `(s * 3) + i`. -/
def stepDecl : FuncDecl where
  pos := 1
  name := ⟨"step", 5⟩
  recv := none
  typeParams := none
  params := some ⟨9, [⟨[⟨['s'], 10⟩, ⟨['i'], 12⟩], u32 14⟩]⟩
  results := some ⟨20, [⟨[], u32 20⟩]⟩
  body := some ⟨22, [.ret 24 [.binary (.paren 31 (.binary (var 's' 32) .mul (lit "3" 34))) .add
    (var 'i' 38)]], 40⟩

/-- A loop that calls `step` in every other round. -/
def foldDecl : FuncDecl where
  pos := 90
  name := ⟨"fold", 95⟩
  recv := none
  typeParams := none
  params := some ⟨100, [⟨[⟨['n'], 101⟩], u32 103⟩]⟩
  results := some ⟨104, [⟨[], u32 104⟩]⟩
  body := some ⟨104,
    [.assign [var 's' 105] .define [.call (u32 110) [lit "7" 117]],
      .fors 118 (some (.assign [var 'i' 120] .define [.call (u32 125) [lit "0" 132]]))
        (some (.binary (var 'i' 135) .lss (var 'n' 139))) (some (.incDec (var 'i' 142) true))
        [.ifs 150 none
          (.binary (.paren 153 (.binary (var 'i' 154) .and (lit "1" 158))) .eql (lit "0" 163))
          [.assign [var 's' 170] .assign [.call (.ident ⟨"step", 174⟩) [var 's' 179, var 'i' 182]]]
          (some (.block 190 [.assign [var 's' 195] .sub [var 'i' 200]]))],
      .ret 210 [var 's' 217]], 220⟩

/-- A function without a result, which calls `fold`. -/
def warmDecl : FuncDecl where
  pos := 230
  name := ⟨"warm", 235⟩
  recv := none
  typeParams := none
  params := some ⟨239, [⟨[⟨['n'], 240⟩], u32 242⟩]⟩
  results := none
  body := some ⟨250, [.expr (.call (.ident ⟨"fold", 252⟩) [var 'n' 257])], 260⟩

/-- The three functions. -/
def foldProgram : Program where
  position _ := ⟨"fold.go", 1, 1⟩
  imports := []
  info := ⟨foldUses, [], fun _ => some (.basic .uint32), fun _ _ => .other⟩
  license := "GPL"
  maps := []
  programs := []
  helpers := [⟨"step", ⟨"fold.go", 1, 1⟩, stepDecl⟩, ⟨"fold", ⟨"fold.go", 1, 1⟩, foldDecl⟩,
    ⟨"warm", ⟨"fold.go", 1, 1⟩, warmDecl⟩]
  types := []
  consts := []

/-- The loop computes 181 from 5 in both languages, also where the value is dropped. -/
theorem foldProgram_preserved :
    ∃ text ms fns, emit foldProgram "fold.go" = .ok (text, ms) ∧
      cFunctions foldProgram foldProgram.helpers = some fns ∧
      cCallees 100 (fun _ _ => .error .fault) fns "fold" [(intTy false 32 width32_pos, 5)] =
        .ok (some (intTy false 32 width32_pos, 181)) ∧
      cCallees 100 (fun _ _ => .error .fault) fns "warm" [(intTy false 32 width32_pos, 5)] =
        .ok none := by
  have hok : (emit foldProgram "fold.go").isOk = true := by decide +kernel
  obtain ⟨⟨text, ms⟩, hemit⟩ := exists_of_isOk hok
  have hcheck : scalarHelpers foldProgram [] foldProgram.helpers =
      some [(⟨"warm", 235⟩, ⟨[(⟨['n'], 240⟩, intTy false 32 width32_pos)], none⟩),
        (⟨"fold", 95⟩, ⟨[(⟨['n'], 101⟩, intTy false 32 width32_pos)],
          some (intTy false 32 width32_pos)⟩),
        (⟨"step", 5⟩, ⟨[(⟨['s'], 10⟩, intTy false 32 width32_pos),
          (⟨['i'], 12⟩, intTy false 32 width32_pos)], some (intTy false 32 width32_pos)⟩)] := by
    decide +kernel
  obtain ⟨fns, pre, post, hfns, -, -, hcalls⟩ :=
    scalar_helpers_preserved foldProgram "fold.go" text ms _ hemit hcheck
  have hgo : goCallees foldProgram 100 (fun _ _ => .error .fault) foldProgram.helpers
      ⟨"fold", 95⟩ [5] = .ok (some (intTy false 32 width32_pos, 181)) := by decide +kernel
  have hwarm : goCallees foldProgram 100 (fun _ _ => .error .fault) foldProgram.helpers
      ⟨"warm", 235⟩ [5] = .ok none := by decide +kernel
  have hargs : ArgsOf [intTy false 32 width32_pos] [5] [(intTy false 32 width32_pos, 5)] :=
    ⟨⟨by decide, rfl⟩, trivial⟩
  exact ⟨text, ms, fns, hemit, hfns,
    (hcalls 100).value (List.mem_cons_of_mem _ List.mem_cons_self) hargs hgo,
    (hcalls 100).value List.mem_cons_self hargs hwarm⟩

end Gobee
