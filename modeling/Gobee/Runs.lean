/-
# Runs of an emitted function

A run of an emitted function takes the places of its body one after the other, along any
branches and any number of rounds of its loops, and may break off anywhere.

* `Formed` : what each kind of point declares;
* `threads_block` : along the walk of a body the scope only grows, up to the end of a block;
* `run_traces` : **every run of the emitted code traces a run along the source**, point by
  point.
-/
import Gobee.Resolution

namespace Gobee

/-! ## What a point declares -/

/-- The shape of the points of a walk. -/
structure Formed (prog : Program) (v : Visit) : Prop where
  declare : ∀ {id init}, v.step = .declare id init → v.declared = [.ordinary id]
  commaOk : ∀ {x ok fn args}, v.step = .commaOk x ok fn args →
    ∃ n : Names, v.declared = commaOkEntries prog n x ok fn
  other : v.step.decl? = none → ∀ e ∈ v.declared, ∃ id, e = .bare id
  /-- what Go sees is in scope before the point, or is a variable without C declaration -/
  go : ∀ e ∈ v.go, e ∈ v.enter ∨ ∃ id, e = .bare id

section

variable {prog : Program} {n : Names} {S : Scope}

theorem formed_plain {step : GoStep} (h : step.decl? = none) :
    Formed prog (plainVisit n S step) := by
  refine ⟨fun heq => ?_, fun heq => ?_, fun _ e he => ?_, fun e he => .inl he⟩
  · rw [show step = _ from heq] at h
    cases h
  · rw [show step = _ from heq] at h
    cases h
  · cases he

theorem formed_declare {go enter : Scope} {aliases : Aliases} {id : Ident} {init : Option Expr}
    (hgo : ∀ e ∈ go, e ∈ enter) :
    Formed prog ⟨go, enter, [.ordinary id], aliases, .declare id init⟩ := by
  refine ⟨fun heq => ?_, fun heq => ?_, fun h => ?_, fun e he => .inl (hgo e he)⟩
  · cases heq
    rfl
  · cases heq
  · cases h

theorem formed_spec {go : Scope} {aliases : Aliases} :
    ∀ (ids : List Ident) (values : List Expr) (cur : Scope), (∀ e ∈ go, e ∈ cur) →
      ∀ v ∈ specVisits go aliases ids values cur, Formed prog v
  | [], values, cur, hgo => by simp [specVisits]
  | id :: ids, values, cur, hgo => by
      refine List.forall_mem_cons.mpr ⟨formed_declare hgo, formed_spec ids values.tail _ ?_⟩
      exact fun e he => List.mem_cons_of_mem _ (hgo e he)

theorem formed_specs {aliases : Aliases} : ∀ (specs : List ValueSpec) (cur : Scope),
    ∀ v ∈ specsVisits aliases specs cur, Formed prog v
  | [], cur => by simp [specsVisits]
  | spec :: rest, cur =>
      List.forall_mem_append.mpr
        ⟨formed_spec spec.names spec.values cur fun _ he => he, formed_specs rest _⟩

theorem bare_initEntries {init : Option Stmt} {e : Entry} (he : e ∈ initEntries prog init) :
    ∃ id, e = .bare id := by
  unfold initEntries at he
  split at he
  · obtain ⟨id, -, hid⟩ := List.mem_filterMap.mp he
    obtain ⟨id', -, rfl⟩ := Option.map_eq_some_iff.mp hid
    exact ⟨id', rfl⟩
  · cases he

/-- The points of a walk are formed. -/
def Walk.Formed (prog : Program) (w : Walk) : Prop := ∀ v ∈ w.course.items, Gobee.Formed prog v

theorem formed_oneWalk {v : Visit} (h : Formed prog v) : (oneWalk n v).Formed prog := by
  unfold Walk.Formed oneWalk
  rw [Course.items_ofList]
  exact List.forall_mem_singleton.mpr h

theorem formed_skip : (Walk.mk .skip n S).Formed prog := by
  intro v hv
  cases hv

theorem formed_single (l : Expr) (tok : AssignTok) (r : Expr) :
    (visitWalk n S (singleVisit n S l tok r)).Formed prog := by
  unfold singleVisit
  split_ifs
  · cases identOf l with
    | none => exact formed_skip
    | some id => exact formed_oneWalk (formed_declare fun _ he => he)
  · exact formed_oneWalk (formed_plain rfl)

theorem formed_clause (s : Stmt) : (clauseWalk n S s).Formed prog := by
  unfold clauseWalk
  split
  · exact formed_single _ _ _
  · exact formed_oneWalk (formed_plain rfl)
  · exact formed_skip

theorem formed_assign (lhs : List Expr) (tok : AssignTok) (rhs : List Expr) :
    (assignWalk prog n S lhs tok rhs).Formed prog := by
  unfold assignWalk
  split
  · unfold commaOkWalk
    split
    · refine formed_oneWalk ⟨fun heq => ?_, fun heq => ?_, fun h => ?_, fun e he => .inl he⟩
      · cases heq
      · cases heq
        exact ⟨n, rfl⟩
      · cases h
    · exact formed_skip
  · exact formed_single _ _ _
  · exact formed_skip

mutual
theorem formed_stmt (prog : Program) : ∀ (s : Stmt) (n : Names) (S : Scope),
    (stmtWalk prog s n S).Formed prog
  | .decl pos tok specs, n, S => by
      unfold Walk.Formed stmtWalk
      rw [Course.items_ofList]
      exact formed_specs specs S
  | .assign lhs tok rhs, n, S => formed_assign lhs tok rhs
  | .ifs pos init cond body els, n, S => by
      refine List.forall_mem_append.mpr ⟨List.forall_mem_singleton.mpr (formed_plain rfl), ?_⟩
      exact List.forall_mem_append.mpr
        ⟨formed_block prog body n S, formed_else prog els _ S⟩
  | .ret pos results, n, S => by
      refine List.forall_mem_append.mpr ⟨?_, by simp [Course.items]⟩
      rw [Course.items_ofList]
      exact List.forall_mem_singleton.mpr (formed_plain rfl)
  | .expr x, n, S => formed_oneWalk (formed_plain rfl)
  | .fors pos init cond post body, n, S => by
      rcases init with _ | i
      · exact formed_skip
      · rcases cond with _ | c
        · exact formed_skip
        · rcases post with _ | p
          · exact formed_skip
          · refine List.forall_mem_append.mpr ⟨formed_clause i, ?_⟩
            refine List.forall_mem_append.mpr
              ⟨List.forall_mem_singleton.mpr (formed_plain rfl), ?_⟩
            exact List.forall_mem_append.mpr ⟨formed_block prog body n _, formed_clause p⟩
  | .block pos list, n, S => formed_block prog list n S
  | .incDec x inc, n, S => formed_oneWalk (formed_plain rfl)
  | .other kind pos children, n, S => formed_skip

/-- The points of a block are formed. -/
theorem formed_block (prog : Program) : ∀ (list : List Stmt) (n : Names) (S : Scope),
    (blockWalk prog list n S).Formed prog
  | [], _, _ => formed_skip
  | s :: rest, n, S =>
      List.forall_mem_append.mpr ⟨formed_stmt prog s n S, formed_block prog rest _ _⟩

theorem formed_else (prog : Program) : ∀ (els : Option Stmt) (n : Names) (S : Scope),
    (elseWalk prog els n S).Formed prog
  | none, n, S => formed_skip
  | some (.ifs pos init cond body els), n, S => by
      refine List.forall_mem_append.mpr ⟨List.forall_mem_singleton.mpr ?_, ?_⟩
      · refine ⟨fun heq => ?_, fun heq => ?_, fun _ e he => bare_initEntries he, fun e he => ?_⟩
        · cases heq
        · cases heq
        · exact (List.mem_append.mp he).symm.imp_right bare_initEntries
      · exact List.forall_mem_append.mpr ⟨formed_block prog body n _, by simp [Course.items]⟩
  | some (.block pos list), n, S => formed_block prog list n S
  | some (.decl _ _ _), _, _ => formed_skip
  | some (.assign _ _ _), _, _ => formed_skip
  | some (.ret _ _), _, _ => formed_skip
  | some (.expr _), _, _ => formed_skip
  | some (.fors _ _ _ _ _), _, _ => formed_skip
  | some (.incDec _ _), _, _ => formed_skip
  | some (.other _ _ _), _, _ => formed_skip
end

/-! ## The scope along a walk -/

/-- Along the walk every point is entered in a scope that the point before has left, and
the scope at the end extends that at the beginning. -/
def Walk.Threads (w : Walk) (S : Scope) : Prop :=
  w.course.Threads (· <:+ ·) Visit.enter Visit.scope S w.scope ∧ S <:+ w.scope

theorem suffix_trans {a b c : Scope} (hab : a <:+ b) (hbc : b <:+ c) : a <:+ c := hab.trans hbc

theorem threads_mono {p : Course Visit} {s t u : Scope}
    (h : p.Threads (· <:+ ·) Visit.enter Visit.scope s t) (hu : u <:+ t) :
    p.Threads (· <:+ ·) Visit.enter Visit.scope s u :=
  Course.Threads.mono_right suffix_trans h hu

theorem threads_oneWalk {v : Visit} (h : v.enter = S) : (oneWalk n v).Threads S := by
  refine ⟨⟨v.scope, ⟨?_, List.suffix_rfl⟩, List.suffix_rfl⟩, ?_⟩
  · rw [h]
  · rw [← h]
    exact List.suffix_append _ _

theorem threads_skip : (Walk.mk .skip n S).Threads S := ⟨List.suffix_rfl, List.suffix_rfl⟩

theorem chain_spec {go : Scope} {aliases : Aliases} :
    ∀ (ids : List Ident) (values : List Expr) (cur : Scope),
      Course.Chain (· <:+ ·) Visit.enter Visit.scope cur (specVisits go aliases ids values cur)
        (specScope ids cur) ∧ cur <:+ specScope ids cur
  | [], values, cur => ⟨List.suffix_rfl, List.suffix_rfl⟩
  | id :: ids, values, cur => by
      obtain ⟨hchain, hsuffix⟩ := @chain_spec go aliases ids values.tail (.ordinary id :: cur)
      exact ⟨⟨List.suffix_rfl, hchain⟩, (List.suffix_cons _ _).trans hsuffix⟩

theorem chain_specs {aliases : Aliases} : ∀ (specs : List ValueSpec) (cur : Scope),
    Course.Chain (· <:+ ·) Visit.enter Visit.scope cur (specsVisits aliases specs cur)
      (specsScope specs cur) ∧ cur <:+ specsScope specs cur
  | [], cur => ⟨List.suffix_rfl, List.suffix_rfl⟩
  | spec :: rest, cur => by
      obtain ⟨hspec, hsuffix⟩ := @chain_spec cur aliases spec.names spec.values cur
      obtain ⟨hrest, hsuffix'⟩ := chain_specs rest (specScope spec.names cur)
      exact ⟨hspec.append suffix_trans hrest, hsuffix.trans hsuffix'⟩

theorem threads_single (l : Expr) (tok : AssignTok) (r : Expr) :
    (visitWalk n S (singleVisit n S l tok r)).Threads S := by
  unfold singleVisit
  split_ifs
  · cases identOf l with
    | none => exact threads_skip
    | some id => exact threads_oneWalk rfl
  · exact threads_oneWalk rfl

theorem threads_clause (s : Stmt) : (clauseWalk n S s).Threads S := by
  unfold clauseWalk
  split
  · exact threads_single _ _ _
  · exact threads_oneWalk rfl
  · exact threads_skip

theorem threads_assign (lhs : List Expr) (tok : AssignTok) (rhs : List Expr) :
    (assignWalk prog n S lhs tok rhs).Threads S := by
  unfold assignWalk
  split
  · unfold commaOkWalk
    split
    · exact threads_oneWalk rfl
    · exact threads_skip
  · exact threads_single _ _ _
  · exact threads_skip

mutual
theorem threads_stmt (prog : Program) : ∀ (s : Stmt) (n : Names) (S : Scope),
    (stmtWalk prog s n S).Threads S
  | .decl pos tok specs, n, S => by
      obtain ⟨hchain, hsuffix⟩ := @chain_specs n.aliases specs S
      exact ⟨Course.threads_ofList (fun _ => List.suffix_rfl) hchain, hsuffix⟩
  | .assign lhs tok rhs, n, S => threads_assign lhs tok rhs
  | .ifs pos init cond body els, n, S => by
      obtain ⟨hbody, hsuffix⟩ := threads_block prog body n S
      have helse := threads_else prog els (blockWalk prog body n S).names S
      exact ⟨⟨S, ⟨List.suffix_rfl, List.suffix_rfl⟩, threads_mono hbody hsuffix, helse⟩,
        List.suffix_rfl⟩
  | .ret pos results, n, S => by
      have hpoint := @threads_oneWalk n S (plainVisit n S (.ret results.head?)) rfl
      exact ⟨⟨S, hpoint.1, trivial⟩, List.suffix_rfl⟩
  | .expr x, n, S => threads_oneWalk rfl
  | .fors pos init cond post body, n, S => by
      rcases init with _ | i
      · exact threads_skip
      · rcases cond with _ | c
        · exact threads_skip
        · rcases post with _ | p
          · exact threads_skip
          · obtain ⟨hinit, hsuffix⟩ := @threads_clause n S i
            obtain ⟨hbody, hsuffix'⟩ := threads_block prog body n (clauseWalk n S i).scope
            obtain ⟨hpost, hsuffix''⟩ := @threads_clause n (clauseWalk n S i).scope p
            refine ⟨⟨_, hinit, ?_⟩, List.suffix_rfl⟩
            -- every round leads back to the scope after the init clause
            refine ⟨_, _, List.suffix_rfl, ⟨List.suffix_rfl, List.suffix_rfl⟩, ?_, hsuffix⟩
            exact ⟨_, threads_mono hbody hsuffix', threads_mono hpost hsuffix''⟩
  | .block pos list, n, S => by
      obtain ⟨hbody, hsuffix⟩ := threads_block prog list n S
      exact ⟨threads_mono hbody hsuffix, List.suffix_rfl⟩
  | .incDec x inc, n, S => threads_oneWalk rfl
  | .other kind pos children, n, S => threads_skip

/-- **Along a block every point is entered in a scope that the point before has left.** -/
theorem threads_block (prog : Program) : ∀ (list : List Stmt) (n : Names) (S : Scope),
    (blockWalk prog list n S).Threads S
  | [], n, S => threads_skip
  | s :: rest, n, S => by
      obtain ⟨hstmt, hsuffix⟩ := threads_stmt prog s n S
      obtain ⟨hrest, hsuffix'⟩ :=
        threads_block prog rest (stmtWalk prog s n S).names (stmtWalk prog s n S).scope
      exact ⟨⟨_, hstmt, hrest⟩, hsuffix.trans hsuffix'⟩

theorem threads_else (prog : Program) : ∀ (els : Option Stmt) (n : Names) (S : Scope),
    (elseWalk prog els n S).course.Threads (· <:+ ·) Visit.enter Visit.scope S S
  | none, n, S => List.suffix_rfl
  | some (.ifs pos init cond body els), n, S => by
      have hinner : S <:+ initEntries prog init ++ S := List.suffix_append _ _
      obtain ⟨hbody, hsuffix⟩ := threads_block prog body n (initEntries prog init ++ S)
      refine ⟨initEntries prog init ++ S, ⟨List.suffix_rfl, List.suffix_rfl⟩, ?_, hinner⟩
      exact threads_mono hbody (hinner.trans hsuffix)
  | some (.block pos list), n, S => by
      obtain ⟨hbody, hsuffix⟩ := threads_block prog list n S
      exact threads_mono hbody hsuffix
  | some (.decl _ _ _), _, _ => List.suffix_rfl
  | some (.assign _ _ _), _, _ => List.suffix_rfl
  | some (.ret _ _), _, _ => List.suffix_rfl
  | some (.expr _), _, _ => List.suffix_rfl
  | some (.fors _ _ _ _ _), _, _ => List.suffix_rfl
  | some (.incDec _ _), _, _ => List.suffix_rfl
  | some (.other _ _ _), _, _ => List.suffix_rfl
end

/-! ## Runs of the emitted functions -/

/-- The points of the source that a run of an emitted function goes through. -/
structure Traces (prog : Program) (fd : FuncDecl) (vs : List Visit) (ps : List Place) : Prop where
  shows : List.Forall₂ (Shows prog) vs ps
  ok : ∀ v ∈ vs, VisitOk (boundIn prog) v
  formed : ∀ v ∈ vs, Formed prog v
  resolved : ∀ v ∈ vs, ∀ m ∈ v.step.mentions prog [], Resolved prog v m
  chain : ∃ T, Course.Chain (· <:+ ·) Visit.enter Visit.scope (entryScope fd) vs T

/-- A walk of the program is that of a function. -/
theorem walk_eq : ∀ {fds : List FuncDecl} {n : Names} {w : FuncDecl × Walk},
    w ∈ funcWalks prog fds n → ∃ n', w.2 = funcWalk prog w.1 n'
  | [], n, w, hw => by cases hw
  | fd :: rest, n, w, hw => by
      rcases List.mem_cons.mp hw with rfl | hw
      · exact ⟨n, rfl⟩
      · exact walk_eq hw

/-- A run along the source of a function and the places where its points are emitted. -/
theorem traces_of_run {w : FuncDecl × Walk} {vs : List Visit} {ps : List Place} {b : Bool}
    (hfacts : ScopeFacts prog) (hw : w ∈ programWalks prog) (hvs : w.2.course.Run vs b)
    (hshows : List.Forall₂ (Shows prog) vs ps) : Traces prog w.1 vs ps := by
  have hitems := hvs.mem_items
  obtain ⟨n', heq⟩ := walk_eq hw
  have hcourse : w.2.course = (blockWalk prog (bodyOf w.1) n' (entryScope w.1)).course := by
    rw [heq]
    rfl
  rw [hcourse] at hvs
  have hformed := formed_block prog (bodyOf w.1) n' (entryScope w.1)
  refine ⟨hshows, fun v hv => visitOk_program hfacts w hw v (hitems v hv),
    fun v hv => hformed v (hvs.mem_items v hv),
    fun v hv => hfacts.uses w hw v (hitems v hv), ?_⟩
  have hthreads := threads_block prog (bodyOf w.1) n' (entryScope w.1)
  have hchain := hthreads.1.run (fun _ => List.suffix_rfl) suffix_trans hvs
  cases b with
  | true => exact ⟨_, hchain⟩
  | false => exact hchain

/-- **Every run of an emitted function traces a run along its source.** -/
theorem run_traces {trees : List (List CStmt)} {n : Names} (hfacts : ScopeFacts prog)
    (htrees : functionTrees prog (emittedFuncs prog) ⟨[], 0⟩ = some (trees, n)) :
    List.Forall₂ (fun w cs => ∀ ps b, (blockCourse prog cs (paramDecls w.1)).1.Run ps b →
        ∃ vs, w.2.course.Run vs b ∧ Traces prog w.1 vs ps) (programWalks prog) trees := by
  have hrel := rel_funcWalks htrees
  rw [List.forall₂_iff_zip] at hrel ⊢
  refine ⟨hrel.1, fun {w cs} hmem ps b hrun => ?_⟩
  obtain ⟨vs, hvs, hshows⟩ := (hrel.2 hmem).run hrun
  exact ⟨vs, hvs, traces_of_run hfacts (List.of_mem_zip hmem).1 hvs hshows⟩

/-- **Every run along the source of a function is traced by a run of the emitted code.** -/
theorem run_shown {trees : List (List CStmt)} {n : Names} (hfacts : ScopeFacts prog)
    (htrees : functionTrees prog (emittedFuncs prog) ⟨[], 0⟩ = some (trees, n)) :
    List.Forall₂ (fun w cs => ∀ vs b, w.2.course.Run vs b →
        ∃ ps, (blockCourse prog cs (paramDecls w.1)).1.Run ps b ∧ Traces prog w.1 vs ps)
      (programWalks prog) trees := by
  have hrel := rel_funcWalks htrees
  rw [List.forall₂_iff_zip] at hrel ⊢
  refine ⟨hrel.1, fun {w cs} hmem vs b hrun => ?_⟩
  obtain ⟨ps, hps, hshown⟩ := (hrel.2 hmem).symm.run hrun
  exact ⟨ps, hps, traces_of_run hfacts (List.of_mem_zip hmem).1 hrun hshown.flip⟩

end

end Gobee
