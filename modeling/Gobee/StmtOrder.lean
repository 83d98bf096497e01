/-
# Statement structure

Which statements of a Go body the emitted C still has, and in which order they run.

* An *occurrence* is a statement or condition together with the branches it stands
  under; `goOccs` and `cOccs` list the occurrences of a Go body and of an emitted body.
* A *run* answers the conditions of a body from a list of truth values and records the
  simple statements and conditions it comes to; `goRun` and `cRun` are the runs of a Go
  body and of an emitted body, built from the same combinators.

`writeBlock_structure_iff` says exactly when both agree: **no `else if` clause may have
an init clause or an else clause of its own**, because `writeIfStmt` emits an inner
`if` by its condition and body alone.
-/
import Gobee.StmtTree

namespace Gobee

/-! ## Runs answered by an oracle -/

/-- Whether a run goes on, has returned, or has no answer left. -/
inductive Status where
  | running | returned | starved
  deriving DecidableEq, Repr

/-- What a run has recorded, the answers that are left, and how it ended. -/
structure Outcome (ε : Type) where
  trace : List ε
  rest : List Bool
  status : Status

/-- A run, given the truth values of the conditions in the order they are asked. -/
abbrev Run (ε : Type) := List Bool → Outcome ε

namespace Run

variable {ε : Type}

/-- Do nothing. -/
def skip : Run ε := fun bs => ⟨[], bs, .running⟩

/-- Record an event, and return if it is a return. -/
def event (e : ε) (returns : Bool) : Run ε := fun bs =>
  ⟨[e], bs, if returns then .returned else .running⟩

/-- One run after another. -/
def seq (r q : Run ε) : Run ε := fun bs =>
  match r bs with
  | ⟨es, rest, .running⟩ => ⟨es ++ (q rest).trace, (q rest).rest, (q rest).status⟩
  | o => o

/-- Record a condition and take the branch its answer asks for. -/
def choose (e : ε) (t f : Run ε) : Run ε
  | [] => ⟨[e], [], .starved⟩
  | b :: bs =>
      let o := if b then t bs else f bs
      ⟨e :: o.trace, o.rest, o.status⟩

/-- A loop, at most `k` times around. -/
def iterate (e : ε) (body : Run ε) : Nat → Run ε
  | 0 => fun bs => ⟨[], bs, .starved⟩
  | k + 1 => choose e (seq body (iterate e body k)) skip

/-- A loop without a condition, at most `k` times around. -/
def forever (body : Run ε) : Nat → Run ε
  | 0 => fun bs => ⟨[], bs, .starved⟩
  | k + 1 => seq body (forever body k)

/-- A loop: every round uses up an answer, so the answers bound the rounds. -/
def loop (e : ε) (body : Run ε) : Run ε := fun bs => iterate e body (bs.length + 1) bs

end Run

/-! ## Events and occurrences -/

/-- What a body consists of. -/
inductive Event where
  | stmt (s : Stmt)
  | cond (e : Expr)
  | block (pos : Pos)
  | loop (pos : Pos)

/-- A branch of the control flow. -/
inductive Branch where
  | thenOf (cond : Expr)
  | elseOf (cond : Expr)
  | loopOf (pos : Pos)

/-- An event with the branches it stands under, outermost first. -/
abbrev Occ := List Branch × Event

/-- The statement is a `return`. -/
def isReturn : Stmt → Bool
  | .ret _ _ => true
  | _ => false

mutual
/-- The occurrences of a Go statement. -/
def goOcc (p : List Branch) : Stmt → List Occ
  | .decl pos tok specs => [(p, .stmt (.decl pos tok specs))]
  | .assign lhs tok rhs => [(p, .stmt (.assign lhs tok rhs))]
  | .ifs _ init cond body els =>
      goOcc? p init ++ (p, .cond cond) ::
        (goOccs (p ++ [.thenOf cond]) body ++ goOcc? (p ++ [.elseOf cond]) els)
  | .ret pos results => [(p, .stmt (.ret pos results))]
  | .expr x => [(p, .stmt (.expr x))]
  | .fors pos init cond post body =>
      (p, .loop pos) :: (goOcc? p init ++ ((cond.toList.map fun c => (p, .cond c)) ++
        (goOccs (p ++ [.loopOf pos]) body ++ goOcc? (p ++ [.loopOf pos]) post)))
  | .block pos list => (p, .block pos) :: goOccs p list
  | .incDec x inc => [(p, .stmt (.incDec x inc))]
  | .other kind pos children => [(p, .stmt (.other kind pos children))]

/-- The occurrences of a list of Go statements. -/
def goOccs (p : List Branch) : List Stmt → List Occ
  | [] => []
  | s :: rest => goOcc p s ++ goOccs p rest

/-- The occurrences of an optional Go statement. -/
def goOcc? (p : List Branch) : Option Stmt → List Occ
  | none => []
  | some s => goOcc p s
end

mutual
/-- The occurrences of an emitted statement. -/
def cOcc (p : List Branch) : CStmt → List Occ
  | .simple src _ => [(p, .stmt src)]
  | .block pos body => (p, .block pos) :: cOccs p body
  | .ite _ goCond _ body els =>
      (p, .cond goCond) ::
        (cOccs (p ++ [.thenOf goCond]) body ++ cElseOcc (p ++ [.elseOf goCond]) els)
  | .loop pos goInit _ goCond _ goPost _ body =>
      (p, .loop pos) :: (p, .stmt goInit) :: (p, .cond goCond) ::
        (cOccs (p ++ [.loopOf pos]) body ++ [(p ++ [.loopOf pos], .stmt goPost)])

/-- The occurrences of an emitted else part. -/
def cElseOcc (p : List Branch) : CElse → List Occ
  | .none => []
  | .elseIf _ goCond _ body => (p, .cond goCond) :: cOccs (p ++ [.thenOf goCond]) body
  | .block pos body => (p, .block pos) :: cOccs p body

/-- The occurrences of a list of emitted statements. -/
def cOccs (p : List Branch) : List CStmt → List Occ
  | [] => []
  | c :: rest => cOcc p c ++ cOccs p rest
end

/-! ## Runs of the two bodies -/

/-- The run of a Go loop; one without a condition never asks, and its run is cut off after
some rounds. -/
def goLoop (cond : Option Expr) (body : Run Event) : Run Event :=
  match cond with
  | some c => Run.loop (.cond c) body
  | none => fun bs => Run.forever body (bs.length + 1) bs

mutual
/-- The run of a Go statement. -/
def goRunStmt : Stmt → Run Event
  | .decl pos tok specs => Run.event (.stmt (.decl pos tok specs)) false
  | .assign lhs tok rhs => Run.event (.stmt (.assign lhs tok rhs)) false
  | .ifs _ init cond body els =>
      (goRun? init).seq (Run.choose (.cond cond) (goRun body) (goRun? els))
  | .ret pos results => Run.event (.stmt (.ret pos results)) true
  | .expr x => Run.event (.stmt (.expr x)) false
  | .fors _ init cond post body =>
      (goRun? init).seq (goLoop cond ((goRun body).seq (goRun? post)))
  | .block _ list => goRun list
  | .incDec x inc => Run.event (.stmt (.incDec x inc)) false
  | .other kind pos children => Run.event (.stmt (.other kind pos children)) false

/-- **The run of a Go body.** -/
def goRun : List Stmt → Run Event
  | [] => Run.skip
  | s :: rest => (goRunStmt s).seq (goRun rest)

/-- The run of an optional Go statement. -/
def goRun? : Option Stmt → Run Event
  | none => Run.skip
  | some s => goRunStmt s
end

mutual
/-- The run of an emitted statement. -/
def cRunStmt : CStmt → Run Event
  | .simple src _ => Run.event (.stmt src) (isReturn src)
  | .block _ body => cRun body
  | .ite _ goCond _ body els => Run.choose (.cond goCond) (cRun body) (cRunElse els)
  | .loop _ goInit _ goCond _ goPost _ body =>
      (Run.event (.stmt goInit) false).seq
        (Run.loop (.cond goCond) ((cRun body).seq (Run.event (.stmt goPost) false)))

/-- The run of an emitted else part. -/
def cRunElse : CElse → Run Event
  | .none => Run.skip
  | .elseIf _ goCond _ body => Run.choose (.cond goCond) (cRun body) Run.skip
  | .block _ body => cRun body

/-- **The run of an emitted body.** -/
def cRun : List CStmt → Run Event
  | [] => Run.skip
  | c :: rest => (cRunStmt c).seq (cRun rest)
end

/-! ## What the emitter keeps -/

mutual
/-- No `else if` clause below the statement has an init or an else clause. -/
def Kept : Stmt → Prop
  | .ifs _ _ _ body els => KeptAll body ∧ KeptElse els
  | .fors _ _ _ _ body => KeptAll body
  | .block _ list => KeptAll list
  | _ => True

/-- `Kept` on a list of statements. -/
def KeptAll : List Stmt → Prop
  | [] => True
  | s :: rest => Kept s ∧ KeptAll rest

/-- `Kept` on an else clause. -/
def KeptElse : Option Stmt → Prop
  | some (.ifs _ init _ body els) => init = none ∧ els = none ∧ KeptAll body
  | some (.block _ list) => KeptAll list
  | _ => True
end

/-! ## Nothing dropped, nothing changed -/

theorem skip_seq {ε : Type} (r : Run ε) : Run.skip.seq r = r := by
  funext bs
  simp [Run.seq, Run.skip]

theorem goOcc_simple {s : Stmt} (h : isSimple s = true) (p : List Branch) :
    goOcc p s = [(p, .stmt s)] := by
  cases s <;> first | rfl | simp [isSimple] at h

theorem goRunStmt_simple {s : Stmt} (h : isSimple s = true) :
    goRunStmt s = Run.event (.stmt s) (isReturn s) := by
  cases s <;> first | rfl | simp [isSimple] at h

theorem isReturn_of_forClause {prog : Program} {n : Names} {s : Stmt} {l : CLine}
    (h : forClause prog n s = some l) : isReturn s = false := by
  obtain ⟨-, hne⟩ := forClause_simple h
  cases s with
  | ret pos results => exact absurd rfl (hne pos results)
  | _ => rfl

mutual
/-- A statement from which nothing is dropped keeps its occurrences and its runs. -/
theorem kept_stmt {prog : Program} : ∀ {s : Stmt} {n n' : Names} {c : CStmt}
    (_ : stmtTree prog s n = some (c, n')) (_ : Kept s),
    (∀ p, goOcc p s = cOcc p c) ∧ goRunStmt s = cRunStmt c
  | .ifs pos init cond body els, n, n', c, h, hk => by
      obtain ⟨rfl, t, b, n₁, e, -, hb, he, hc⟩ := stmtTree_ifs h
      obtain ⟨hkb, hke⟩ := hk
      obtain ⟨hob, hrb⟩ := kept_block hb hkb
      obtain ⟨hoe, hre⟩ := kept_else he hke
      obtain rfl : c = _ := hc
      refine ⟨fun p => ?_, ?_⟩
      · rw [goOcc, cOcc, hob, hoe, goOcc?, List.nil_append]
      · rw [goRunStmt, cRunStmt, hrb, hre, goRun?, skip_seq]
  | .fors pos init cond post body, n, n', c, h, hk => by
      obtain ⟨i, e, q, initL, condT, postL, b, rfl, rfl, rfl, hi, -, hq, hb, hc⟩ :=
        stmtTree_fors h
      obtain ⟨hob, hrb⟩ := kept_block hb hk
      obtain rfl : c = _ := hc
      obtain ⟨hsi, -⟩ := forClause_simple hi
      obtain ⟨hsq, -⟩ := forClause_simple hq
      refine ⟨fun p => ?_, ?_⟩
      · rw [goOcc, cOcc, hob, goOcc?, goOcc?, goOcc_simple hsi, goOcc_simple hsq]
        rfl
      · rw [goRunStmt, cRunStmt, hrb, goRun?, goRun?, goRunStmt_simple hsi, goRunStmt_simple hsq,
          isReturn_of_forClause hi, isReturn_of_forClause hq]
        rfl
  | .block pos list, n, n', c, h, hk => by
      obtain ⟨b, hb, hc⟩ := stmtTree_block h
      obtain ⟨hob, hrb⟩ := kept_block hb hk
      obtain rfl : c = _ := hc
      refine ⟨fun p => ?_, ?_⟩
      · rw [goOcc, cOcc, hob]
      · rw [goRunStmt, cRunStmt, hrb]
  | .decl pos tok specs, n, n', c, h, _ => kept_simple rfl h
  | .assign lhs tok rhs, n, n', c, h, _ => kept_simple rfl h
  | .ret pos results, n, n', c, h, _ => kept_simple rfl h
  | .expr x, n, n', c, h, _ => kept_simple rfl h
  | .incDec x inc, n, n', c, h, _ => kept_simple rfl h
  | .other kind pos children, n, n', c, h, _ => by simp [stmtTree] at h

theorem kept_simple {prog : Program} : ∀ {s : Stmt} {n n' : Names} {c : CStmt}
    (_ : isSimple s = true) (_ : stmtTree prog s n = some (c, n')),
    (∀ p, goOcc p s = cOcc p c) ∧ goRunStmt s = cRunStmt c
  | s, n, n', c, hs, h => by
      obtain ⟨lines, hc⟩ := stmtTree_simple hs h
      obtain rfl : c = _ := hc
      exact ⟨fun p => by rw [goOcc_simple hs, cOcc], by rw [goRunStmt_simple hs, cRunStmt]⟩

theorem kept_block {prog : Program} : ∀ {list : List Stmt} {n n' : Names} {cs : List CStmt}
    (_ : blockTree prog list n = some (cs, n')) (_ : KeptAll list),
    (∀ p, goOccs p list = cOccs p cs) ∧ goRun list = cRun cs
  | [], n, n', cs, h, _ => by
      cases h
      exact ⟨fun _ => rfl, rfl⟩
  | s :: rest, n, n', cs, h, hk => by
      obtain ⟨c, n₁, cs', hs, hrest, hcs⟩ := blockTree_cons h
      obtain rfl : cs = _ := hcs
      obtain ⟨hos, hrs⟩ := kept_stmt hs hk.1
      obtain ⟨hor, hrr⟩ := kept_block hrest hk.2
      exact ⟨fun p => by rw [goOccs, cOccs, hos, hor], by rw [goRun, cRun, hrs, hrr]⟩

theorem kept_else {prog : Program} : ∀ {els : Option Stmt} {n n' : Names} {e : CElse}
    (_ : elseTree prog els n = some (e, n')) (_ : KeptElse els),
    (∀ p, goOcc? p els = cElseOcc p e) ∧ goRun? els = cRunElse e
  | none, n, n', e, h, _ => by
      cases h
      exact ⟨fun _ => rfl, rfl⟩
  | some (.ifs pos init cond body els), n, n', e, h, hk => by
      obtain ⟨t, b, -, hb, he⟩ := elseTree_ifs h
      obtain rfl : e = _ := he
      obtain ⟨rfl, rfl, hkb⟩ := hk
      obtain ⟨hob, hrb⟩ := kept_block hb hkb
      refine ⟨fun p => ?_, ?_⟩
      · simp only [goOcc?, goOcc, cElseOcc, hob, List.nil_append, List.append_nil]
      · rw [goRun?, goRunStmt, cRunElse, hrb, goRun?, skip_seq]
  | some (.block pos list), n, n', e, h, hk => by
      obtain ⟨b, hb, he⟩ := elseTree_block h
      obtain rfl : e = _ := he
      obtain ⟨hob, hrb⟩ := kept_block hb hk
      refine ⟨fun p => ?_, ?_⟩
      · rw [goOcc?, goOcc, cElseOcc, hob]
      · rw [goRun?, goRunStmt, cRunElse, hrb]
  | some (.decl _ _ _), _, _, _, h, _ => by cases h
  | some (.assign _ _ _), _, _, _, h, _ => by cases h
  | some (.ret _ _), _, _, _, h, _ => by cases h
  | some (.expr _), _, _, _, h, _ => by cases h
  | some (.fors _ _ _ _ _), _, _, _, h, _ => by cases h
  | some (.incDec _ _), _, _, _, h, _ => by cases h
  | some (.other _ _ _), _, _, _, h, _ => by cases h
end

/-! ## Whatever is dropped is missed -/

theorem goOcc_pos (p : List Branch) (s : Stmt) : 0 < (goOcc p s).length := by
  cases s <;> rw [goOcc] <;> simp

mutual
/-- The emitted statement has no more occurrences than the Go statement, and as many only
if nothing was dropped. -/
theorem length_stmt {prog : Program} (p : List Branch) : ∀ {s : Stmt} {n n' : Names} {c : CStmt}
    (_ : stmtTree prog s n = some (c, n')), (cOcc p c).length ≤ (goOcc p s).length ∧
      ((cOcc p c).length = (goOcc p s).length → Kept s)
  | .ifs pos init cond body els, n, n', c, h => by
      obtain ⟨rfl, t, b, n₁, e, -, hb, he, hc⟩ := stmtTree_ifs h
      obtain rfl : c = _ := hc
      obtain ⟨hle, heq⟩ := length_block (p ++ [.thenOf cond]) hb
      obtain ⟨hle', heq'⟩ := length_else (p ++ [.elseOf cond]) he
      simp only [goOcc, cOcc, goOcc?, List.nil_append, List.length_cons, List.length_append]
      exact ⟨by omega, fun hlen => ⟨heq (by omega), heq' (by omega)⟩⟩
  | .fors pos init cond post body, n, n', c, h => by
      obtain ⟨i, e, q, initL, condT, postL, b, rfl, rfl, rfl, hi, -, hq, hb, hc⟩ :=
        stmtTree_fors h
      obtain rfl : c = _ := hc
      obtain ⟨hsi, -⟩ := forClause_simple hi
      obtain ⟨hsq, -⟩ := forClause_simple hq
      obtain ⟨hle, heq⟩ := length_block (p ++ [.loopOf pos]) hb
      simp only [goOcc, cOcc, goOcc?, goOcc_simple hsi, goOcc_simple hsq, List.length_cons,
        List.length_append, List.length_nil, Option.toList_some, List.map_cons, List.map_nil]
      exact ⟨by omega, fun hlen => heq (by omega)⟩
  | .block pos list, n, n', c, h => by
      obtain ⟨b, hb, hc⟩ := stmtTree_block h
      obtain rfl : c = _ := hc
      obtain ⟨hle, heq⟩ := length_block p hb
      simp only [goOcc, cOcc, List.length_cons]
      exact ⟨by omega, fun hlen => heq (by omega)⟩
  | .decl pos tok specs, n, n', c, h => by
      exact ⟨le_of_eq (by rw [(kept_simple rfl h).1]), fun _ => trivial⟩
  | .assign lhs tok rhs, n, n', c, h => by
      exact ⟨le_of_eq (by rw [(kept_simple rfl h).1]), fun _ => trivial⟩
  | .ret pos results, n, n', c, h => by
      exact ⟨le_of_eq (by rw [(kept_simple rfl h).1]), fun _ => trivial⟩
  | .expr x, n, n', c, h => by
      exact ⟨le_of_eq (by rw [(kept_simple rfl h).1]), fun _ => trivial⟩
  | .incDec x inc, n, n', c, h => by
      exact ⟨le_of_eq (by rw [(kept_simple rfl h).1]), fun _ => trivial⟩
  | .other kind pos children, n, n', c, h => by simp [stmtTree] at h

theorem length_block {prog : Program} (p : List Branch) : ∀ {list : List Stmt} {n n' : Names}
    {cs : List CStmt} (_ : blockTree prog list n = some (cs, n')),
    (cOccs p cs).length ≤ (goOccs p list).length ∧
      ((cOccs p cs).length = (goOccs p list).length → KeptAll list)
  | [], n, n', cs, h => by
      cases h
      exact ⟨le_rfl, fun _ => trivial⟩
  | s :: rest, n, n', cs, h => by
      obtain ⟨c, n₁, cs', hs, hrest, hcs⟩ := blockTree_cons h
      obtain rfl : cs = _ := hcs
      obtain ⟨hle, heq⟩ := length_stmt p hs
      obtain ⟨hle', heq'⟩ := length_block p hrest
      simp only [goOccs, cOccs, List.length_append]
      exact ⟨by omega, fun hlen => ⟨heq (by omega), heq' (by omega)⟩⟩

theorem length_else {prog : Program} (p : List Branch) : ∀ {els : Option Stmt} {n n' : Names}
    {e : CElse} (_ : elseTree prog els n = some (e, n')),
    (cElseOcc p e).length ≤ (goOcc? p els).length ∧
      ((cElseOcc p e).length = (goOcc? p els).length → KeptElse els)
  | none, n, n', e, h => by
      cases h
      exact ⟨le_rfl, fun _ => trivial⟩
  | some (.ifs pos init cond body els), n, n', e, h => by
      obtain ⟨t, b, -, hb, he⟩ := elseTree_ifs h
      obtain rfl : e = _ := he
      obtain ⟨hle, heq⟩ := length_block (p ++ [.thenOf cond]) hb
      simp only [goOcc?, goOcc, cElseOcc, List.length_cons, List.length_append]
      refine ⟨by omega, fun hlen => ⟨?_, ?_, heq (by omega)⟩⟩
      · cases init with
        | none => rfl
        | some s =>
            have hpos := goOcc_pos p s
            simp only [goOcc?] at hlen
            omega
      · cases els with
        | none => rfl
        | some s =>
            have hpos := goOcc_pos (p ++ [.elseOf cond]) s
            simp only [goOcc?] at hlen
            omega
  | some (.block pos list), n, n', e, h => by
      obtain ⟨b, hb, he⟩ := elseTree_block h
      obtain rfl : e = _ := he
      obtain ⟨hle, heq⟩ := length_block p hb
      simp only [goOcc?, goOcc, cElseOcc, List.length_cons]
      exact ⟨by omega, fun hlen => heq (by omega)⟩
  | some (.decl _ _ _), _, _, _, h => by cases h
  | some (.assign _ _ _), _, _, _, h => by cases h
  | some (.ret _ _), _, _, _, h => by cases h
  | some (.expr _), _, _, _, h => by cases h
  | some (.fors _ _ _ _ _), _, _, _, h => by cases h
  | some (.incDec _ _), _, _, _, h => by cases h
  | some (.other _ _ _), _, _, _, h => by cases h
end

/-- **When statement structure survives.**  A body that `writeBlock` accepts is emitted as
some statements `cs`; these have the same statements and conditions in the same branches
and in the same order, and the same runs for all truth values, exactly when no `else if`
clause of the body has an init clause or an else clause. -/
theorem writeBlock_structure_iff (prog : Program) (body : List Stmt) (n n' : Names)
    (acts : List Act) (h : writeBlock prog body n = .ok ((), n', acts)) :
    ∃ cs, blockTree prog body n = some (cs, n') ∧ acts = blockActs cs ∧
      ((goOccs [] body = cOccs [] cs ∧ ∀ truths, goRun body truths = cRun cs truths) ↔
        KeptAll body) := by
  obtain ⟨cs, hcs, hacts⟩ := writeBlock_ok_iff.mp h
  refine ⟨cs, hcs, hacts, ?_, ?_⟩
  · rintro ⟨hocc, -⟩
    exact (length_block [] hcs).2 (by rw [hocc])
  · intro hk
    obtain ⟨hocc, hrun⟩ := kept_block hcs hk
    exact ⟨hocc [], fun truths => by rw [hrun]⟩

/-- `if a { x = b } else if b { x = a } else { x = c }`, on booleans. -/
def ifChain : List Stmt :=
  [.ifs 10 none (var 'a' 13) [.assign [var 'x' 20] .assign [var 'b' 24]]
    (some (.ifs 33 none (var 'b' 36) [.assign [var 'x' 43] .assign [var 'a' 47]]
      (some (.block 56 [.assign [var 'x' 60] .assign [var 'c' 64]]))))]

/-- The last branch of the chain is lost: with both conditions false Go comes to three
events, the two conditions and `x = c`, and the emitted C to the conditions alone. -/
theorem ifChain_drops_else :
    ∃ n' acts cs, writeBlock (emptyProgram (paramInfo (.basic .bool))) ifChain ⟨[], 0⟩ =
        .ok ((), n', acts) ∧
      blockTree (emptyProgram (paramInfo (.basic .bool))) ifChain ⟨[], 0⟩ = some (cs, n') ∧
      acts = blockActs cs ∧
      (goRun ifChain [false, false]).trace.length = 3 ∧
      (cRun cs [false, false]).trace.length = 2 ∧
      (goOccs [] ifChain).length = 6 ∧ (cOccs [] cs).length = 4 :=
  ⟨_, _, _, rfl, rfl, rfl, rfl, rfl, rfl, rfl⟩

/-- `if a { x = b } else { y = b }`, on booleans. -/
def ifElse : List Stmt :=
  [.ifs 10 none (var 'a' 13) [.assign [var 'x' 20] .assign [var 'b' 24]]
    (some (.block 33 [.assign [var 'y' 37] .assign [var 'b' 41]]))]

/-- One `if` with one `else` is emitted with its structure. -/
theorem ifElse_structure :
    ∃ n' acts, writeBlock (emptyProgram (paramInfo (.basic .bool))) ifElse ⟨[], 0⟩ =
        .ok ((), n', acts) ∧
      ∃ cs, blockTree (emptyProgram (paramInfo (.basic .bool))) ifElse ⟨[], 0⟩ = some (cs, n') ∧
        acts = blockActs cs ∧ goOccs [] ifElse = cOccs [] cs ∧
        ∀ truths, goRun ifElse truths = cRun cs truths := by
  obtain ⟨cs, hcs, hacts, hiff⟩ :=
    writeBlock_structure_iff (emptyProgram (paramInfo (.basic .bool))) ifElse ⟨[], 0⟩ _ _ rfl
  have hkept : KeptAll ifElse := by simp [KeptAll, Kept, KeptElse, ifElse]
  exact ⟨_, _, rfl, cs, hcs, hacts, hiff.mpr hkept⟩

end Gobee
