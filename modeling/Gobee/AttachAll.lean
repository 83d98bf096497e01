/-
# Attaching all programs

`WriteBindings` generates a method `Attach<Name>` for every program whose section it can
attach, and `AttachAll`, which calls them one after the other.  The body of `AttachAll` is
kept as its statements, which have one shape for XDP programs and one for the others, and
is run against any outcome of the single calls.

* `AllOrNothing` : what a run of `AttachAll` may return and do;
* `attachAll_allOrNothing` : **either every program is attached and no link is closed, or
  all links are closed at the first failure**;
* `declarationOrder_iff` : **the links come in the order of the declarations exactly when
  the attachable programs are declared in the order of their Go names**.
-/
import Gobee.Consts
import Mathlib.Data.List.Nodup

namespace Gobee

/-! ## The attach helpers -/

/-- `bindingField`. -/
structure BindingField where
  go : Text
  elf : Text
  section_ : Text
  deriving DecidableEq, Repr

/-- What `attachFor` returns: the comment, the parameters and the body of the method. -/
structure AttachTemplate where
  doc : Text
  params : Text
  body : Text
  deriving DecidableEq, Repr

/-- `attachHelper`. -/
structure AttachHelper where
  field : BindingField
  template : AttachTemplate

/-- `strings.SplitN(s, sep, 2)`, if it gives two parts. -/
def cutAt (sep : Char) : Text → Option (Text × Text)
  | [] => none
  | c :: cs => if c = sep then some ([], cs) else (cutAt sep cs).map fun p => (c :: p.1, p.2)

/-- `attachFor`. -/
def attachFor (section_ : Text) : Option AttachTemplate :=
  if section_ = "xdp" then
    some ⟨"attaches the XDP program to the network interface with the given index.", "ifindex int",
      "link.AttachXDP(link.XDPOptions\x7bProgram: $PROG, Interface: ifindex\x7d)"⟩
  else if ("tracepoint/" : Text).isPrefixOf section_ then
    match cutAt '/' (section_.drop ("tracepoint/" : Text).length) with
    | none => none
    | some (category, name) =>
        some ⟨"attaches the tracepoint " ++ category ++ "/" ++ name ++ ".", [],
          "link.Tracepoint(" ++ quote category ++ ", " ++ quote name ++ ", $PROG, nil)"⟩
  else if ("kprobe/" : Text).isPrefixOf section_ then
    let symbol := section_.drop ("kprobe/" : Text).length
    some ⟨"attaches the kprobe to " ++ symbol ++ ".", [],
      "link.Kprobe(" ++ quote symbol ++ ", $PROG, nil)"⟩
  else if ("kretprobe/" : Text).isPrefixOf section_ then
    let symbol := section_.drop ("kretprobe/" : Text).length
    some ⟨"attaches the kretprobe to " ++ symbol ++ ".", [],
      "link.Kretprobe(" ++ quote symbol ++ ", $PROG, nil)"⟩
  else none

/-- The field of a program. -/
def ProgramFunc.field (p : ProgramFunc) : BindingField := ⟨pascalCase p.name, p.name, p.section_⟩

/-- `progFields` before it is sorted. -/
def progFields (programs : List ProgramFunc) : List BindingField := programs.map ProgramFunc.field

/-- What `sort.Slice` by the Go name may return; it is not stable. -/
structure SortedFields (fields sorted : List BindingField) : Prop where
  perm : sorted.Perm fields
  sorted : sorted.Pairwise fun a b => ¬ b.go < a.go

/-- `attachers`. -/
def attachers (fields : List BindingField) : List AttachHelper :=
  fields.filterMap fun f => (attachFor f.section_).map fun t => ⟨f, t⟩

/-! ## The generated method -/

/-- A call `o.Attach<name>(xdpIfindex)` or `o.Attach<name>()`. -/
structure AttachCall where
  name : Text
  ifindex : Bool

/-- The statements of `AttachAll`. -/
inductive GoStmt where
  /-- `l, err := call` -/
  | attach (call : AttachCall)
  /-- `if err != nil { body } else { els }`, perhaps with `l, err := call;` in front -/
  | ifErr (init : Option AttachCall) (body els : List GoStmt)
  /-- `if xdpIfindex != 0 { body }` -/
  | ifIfindex (body : List GoStmt)
  /-- `cleanup()` -/
  | cleanup
  /-- `return nil, fmt.Errorf("attach <name>: %w", err)` -/
  | fail (name : Text)
  /-- `ls = append(ls, l)` -/
  | append
  /-- `return ls, nil` -/
  | done

/-- The loop of `WriteBindings` over the attachers: the statements for one of them. -/
def attachStmts (a : AttachHelper) : List GoStmt :=
  if a.field.section_ = "xdp" then
    [.ifIfindex [.attach ⟨a.field.go, true⟩, .ifErr none [.cleanup, .fail a.field.go] [], .append]]
  else [.ifErr (some ⟨a.field.go, false⟩) [.cleanup, .fail a.field.go] [.append]]

/-- The body of `AttachAll` behind the declarations of `ls` and `cleanup`; there is no
`AttachAll` without attachers. -/
def attachAllBody (attachers : List AttachHelper) : Option (List GoStmt) :=
  if attachers = [] then none else some (attachers.flatMap attachStmts ++ [.done])

/-! ## Running it -/

/-- A link: the call that opened it and the program it attaches. -/
structure Link where
  call : Nat
  program : BindingField
  deriving DecidableEq, Repr

/-- What happens to links. -/
inductive LinkEvent where
  | opened (l : Link)
  | failed (program : BindingField) (err : Text)
  | closed (l : Link)
  deriving DecidableEq, Repr

/-- The results of `AttachAll`. -/
structure Attached where
  links : List Link
  err : Option Text
  deriving DecidableEq, Repr

/-- What a run depends on: the methods of the type, the parameter, and the error of the
`n`-th attach call, if it fails. -/
structure AttachEnv where
  methods : List AttachHelper
  xdpIfindex : Int
  outcome : Nat → Option Text

/-- The variables of `AttachAll`, the number of attach calls and what happened so far. -/
structure AttachState where
  ls : List Link
  l : Option Link
  err : Option Text
  calls : Nat
  trace : List LinkEvent

variable (env : AttachEnv)

/-- `l, err := o.Attach<name>(..)`. -/
def callAttach (c : AttachCall) (st : AttachState) : AttachState :=
  match env.methods.find? fun m => m.field.go = c.name with
  | none => st
  | some m =>
      match env.outcome st.calls with
      | none =>
          let link : Link := ⟨st.calls, m.field⟩
          { st with
            l := some link
            err := none
            calls := st.calls + 1
            trace := st.trace ++ [.opened link] }
      | some e =>
          { st with
            l := none
            err := some e
            calls := st.calls + 1
            trace := st.trace ++ [.failed m.field e] }

mutual
/-- A statement, and the results if it returns. -/
def exec : GoStmt → AttachState → AttachState × Option Attached
  | .attach c, st => (callAttach env c st, none)
  | .ifErr init body els, st =>
      let st' := (init.map fun c => callAttach env c st).getD st
      if st'.err.isSome then execs body st' else execs els st'
  | .ifIfindex body, st => if env.xdpIfindex ≠ 0 then execs body st else (st, none)
  | .cleanup, st => ({ st with trace := st.trace ++ st.ls.map .closed }, none)
  | .fail name, st => (st, some ⟨[], st.err.map fun e => "attach " ++ name ++ ": " ++ e⟩)
  | .append, st => ({ st with ls := st.ls ++ st.l.toList }, none)
  | .done, st => (st, some ⟨st.ls, none⟩)

/-- Statements one after the other, up to the first that returns. -/
def execs : List GoStmt → AttachState → AttachState × Option Attached
  | [], st => (st, none)
  | s :: rest, st =>
      match exec s st with
      | (st', some r) => (st', some r)
      | (st', none) => execs rest st'
end

/-- A call of `AttachAll`. -/
def runAttachAll (body : List GoStmt) : AttachState × Option Attached :=
  execs env body ⟨[], none, none, 0, []⟩

/-! ## All or nothing -/

/-- An XDP program is attached if there is an interface. -/
def notSkipped (xdpIfindex : Int) (f : BindingField) : Bool :=
  f.section_ ≠ "xdp" || xdpIfindex ≠ 0

/-- The programs to attach: those with a known section, XDP programs if there is an
interface. -/
def wanted (xdpIfindex : Int) (fields : List BindingField) : List BindingField :=
  fields.filter fun f => (attachFor f.section_).isSome && notSkipped xdpIfindex f

/-- What a run returns and does: one open link for each program, none of them closed; or, at
the first failing call, which is the last, every link opened before it is closed once and the
error names the program. -/
def AllOrNothing (want : List BindingField) (r : AttachState × Option Attached) : Prop :=
  (∃ links : List Link, r.2 = some ⟨links, none⟩ ∧ links.Nodup ∧ (links.map Link.program).Perm want ∧
    r.1.trace = links.map .opened) ∨
  ∃ (links : List Link) (f : BindingField) (e : Text) (rest : List BindingField), r.2 = some ⟨[], some ("attach " ++ f.go ++ ": " ++ e)⟩ ∧ links.Nodup ∧
    (links.map Link.program ++ f :: rest).Perm want ∧
    r.1.trace = links.map .opened ++ .failed f e :: links.map .closed

section

variable {env}

/-- The links opened so far are kept, in the order of the calls. -/
structure Holds (st : AttachState) (links : List Link) : Prop where
  ls : st.ls = links
  trace : st.trace = links.map .opened
  nodup : links.Nodup
  calls : ∀ l ∈ links, l.call < st.calls

theorem Holds.init : Holds ⟨[], none, none, 0, []⟩ [] :=
  ⟨rfl, rfl, List.nodup_nil, by simp⟩

/-- The state after a successful call, with the link in the list. -/
def AttachState.succeeded (st : AttachState) (f : BindingField) : AttachState :=
  ⟨st.ls ++ [⟨st.calls, f⟩], some ⟨st.calls, f⟩, none, st.calls + 1,
    st.trace ++ [.opened ⟨st.calls, f⟩]⟩

/-- The state after a failed call, with all links closed. -/
def AttachState.failed (st : AttachState) (f : BindingField) (e : Text) : AttachState :=
  ⟨st.ls, none, some e, st.calls + 1, st.trace ++ [.failed f e] ++ st.ls.map .closed⟩

/-- A successful call adds a link. -/
theorem Holds.succeeded {st : AttachState} {links : List Link} (h : Holds st links)
    (f : BindingField) : Holds (st.succeeded f) (links ++ [⟨st.calls, f⟩]) := by
  refine ⟨?_, ?_, ?_, ?_⟩
  · rw [AttachState.succeeded, h.ls]
  · rw [AttachState.succeeded, h.trace, List.map_append]
    rfl
  · refine List.nodup_append.mpr ⟨h.nodup, List.nodup_singleton _, ?_⟩
    intro a ha b hb hab
    rw [List.mem_singleton] at hb
    rw [hab, hb] at ha
    exact absurd (h.calls _ ha) (Nat.lt_irrefl _)
  · intro l hl
    rcases List.mem_append.mp hl with hl | hl
    · exact Nat.lt_succ_of_lt (h.calls l hl)
    · rw [List.mem_singleton.mp hl]
      exact Nat.lt_succ_self _

/-- A failed call closes every link once. -/
theorem Holds.failed {st : AttachState} {links : List Link} (h : Holds st links)
    (f : BindingField) (e : Text) :
    (st.failed f e).trace = links.map .opened ++ .failed f e :: links.map .closed := by
  rw [AttachState.failed, h.trace, h.ls, List.append_assoc]
  rfl

/-- **The statements of one attacher**: an XDP program without an interface is skipped; a
success is one more link; a failure closes all links and returns. -/
theorem execs_attachStmts {a : AttachHelper}
    (hmethod : env.methods.find? (fun m => m.field.go = a.field.go) = some a)
    (rest : List GoStmt) (st : AttachState) :
    (a.field.section_ = "xdp" ∧ env.xdpIfindex = 0 →
      execs env (attachStmts a ++ rest) st = execs env rest st) ∧
    (¬ (a.field.section_ = "xdp" ∧ env.xdpIfindex = 0) →
      (env.outcome st.calls = none →
        execs env (attachStmts a ++ rest) st = execs env rest (st.succeeded a.field)) ∧
      ∀ e, env.outcome st.calls = some e → execs env (attachStmts a ++ rest) st =
        (st.failed a.field e, some ⟨[], some ("attach " ++ a.field.go ++ ": " ++ e)⟩)) := by
  by_cases hxdp : a.field.section_ = "xdp"
  · rw [attachStmts, if_pos hxdp, List.singleton_append, execs, exec]
    by_cases hzero : env.xdpIfindex = 0
    · refine ⟨fun _ => ?_, fun hno => absurd ⟨hxdp, hzero⟩ hno⟩
      rw [if_neg (by simpa using hzero)]
    · refine ⟨fun hboth => absurd hboth.2 hzero, fun _ => ⟨fun ho => ?_, fun e ho => ?_⟩⟩
      · rw [if_pos hzero]
        simp [execs, exec, callAttach, hmethod, ho, AttachState.succeeded]
      · rw [if_pos hzero]
        simp [execs, exec, callAttach, hmethod, ho, AttachState.failed]
  · rw [attachStmts, if_neg hxdp]
    refine ⟨fun hboth => absurd hboth.1 hxdp, fun _ => ⟨fun ho => ?_, fun e ho => ?_⟩⟩
    · simp [execs, exec, callAttach, hmethod, ho, AttachState.succeeded]
    · simp [execs, exec, callAttach, hmethod, ho, AttachState.failed]

/-- The programs of some attachers that are attached. -/
def attachedBy (xdpIfindex : Int) (as : List AttachHelper) : List BindingField :=
  (as.map AttachHelper.field).filter (notSkipped xdpIfindex)

theorem attachedBy_attachers (xdpIfindex : Int) (fields : List BindingField) :
    attachedBy xdpIfindex (attachers fields) = wanted xdpIfindex fields := by
  induction fields with
  | nil => rfl
  | cons f fields ih =>
      rw [attachedBy, wanted] at ih ⊢
      rw [attachers] at ih ⊢
      cases ht : attachFor f.section_ with
      | none => simp only [List.filterMap_cons, List.filter_cons, ht, Option.map_none,
          Option.isSome_none, Bool.false_and, Bool.false_eq_true, if_false, ih]
      | some t => simp only [List.filterMap_cons, List.map_cons, List.filter_cons, ht,
          Option.map_some, Option.isSome_some, Bool.true_and, ih]

/-- **A run over some attachers**: all of them are attached, or the first failure is the end. -/
theorem execs_attachers {as : List AttachHelper}
    (hmethods : ∀ a ∈ as, env.methods.find? (fun m => m.field.go = a.field.go) = some a) :
    ∀ {st : AttachState} {links : List Link}, Holds st links →
      (∃ (st' : AttachState) (links' : List Link), execs env (as.flatMap attachStmts ++ [.done]) st =
          (st', some ⟨links', none⟩) ∧ Holds st' links' ∧
        links'.map Link.program = links.map Link.program ++ attachedBy env.xdpIfindex as) ∨
      ∃ (st' : AttachState) (links' : List Link) (f : BindingField) (e : Text)
          (rest : List BindingField) (n : Nat), execs env (as.flatMap attachStmts ++ [.done]) st =
          (st', some ⟨[], some ("attach " ++ f.go ++ ": " ++ e)⟩) ∧ links'.Nodup ∧
        links'.map Link.program ++ f :: rest =
          links.map Link.program ++ attachedBy env.xdpIfindex as ∧
        st'.trace = links'.map .opened ++ .failed f e :: links'.map .closed ∧
        env.outcome n = some e := by
  induction as with
  | nil =>
      intro st links h
      refine .inl ⟨st, links, ?_, h, by simp [attachedBy]⟩
      simp [execs, exec, h.ls]
  | cons a as ih =>
      intro st links h
      rw [List.forall_mem_cons] at hmethods
      have hrest := @ih hmethods.2
      rw [List.flatMap_cons, List.append_assoc]
      obtain ⟨hskip, hcall⟩ :=
        execs_attachStmts hmethods.1 (as.flatMap attachStmts ++ [.done]) st
      -- an xdp program without an interface is skipped and leaves no link
      by_cases hxdp : a.field.section_ = "xdp" ∧ env.xdpIfindex = 0
      · have hnone : attachedBy env.xdpIfindex (a :: as) = attachedBy env.xdpIfindex as := by
          rw [attachedBy, List.map_cons, List.filter_cons_of_neg (by simp [notSkipped, hxdp.1, hxdp.2])]
          rfl
        rw [hskip hxdp, hnone]
        exact hrest h
      · have hcons : attachedBy env.xdpIfindex (a :: as) =
            a.field :: attachedBy env.xdpIfindex as := by
          rw [attachedBy, List.map_cons, List.filter_cons_of_pos]
          · rfl
          · rw [not_and_or] at hxdp
            simpa [notSkipped] using hxdp
        rw [hcons]
        -- a call that fails closes what was opened and returns
        cases ho : env.outcome st.calls with
        | none =>
            have hone := hrest (h.succeeded a.field)
            rw [List.map_append, List.map_singleton, List.append_assoc,
              List.singleton_append] at hone
            rw [(hcall hxdp).1 ho]
            exact hone
        | some e =>
            exact .inr ⟨_, links, a.field, e, _, _, (hcall hxdp).2 e ho, h.nodup, rfl,
              h.failed a.field e, ho⟩

/-- With distinct Go names a call reaches the method of its program. -/
theorem find?_attachers {fields : List BindingField} (h : (fields.map BindingField.go).Nodup) :
    ∀ a ∈ attachers fields,
      (attachers fields).find? (fun m => m.field.go = a.field.go) = some a := by
  intro a ha
  have hfields : ∀ m ∈ attachers fields, m.field ∈ fields ∧
      attachFor m.field.section_ = some m.template := by
    intro m hm
    obtain ⟨f, hf, hm⟩ := List.mem_filterMap.mp hm
    obtain ⟨t, ht, rfl⟩ := Option.map_eq_some_iff.mp hm
    exact ⟨hf, ht⟩
  cases hfind : (attachers fields).find? fun m => m.field.go = a.field.go with
  | none =>
      have hno := List.find?_eq_none.mp hfind a ha
      simp at hno
  | some m =>
      have hgo : m.field.go = a.field.go := by simpa using List.find?_some hfind
      obtain ⟨hmem, hm⟩ := hfields m (List.mem_of_find?_eq_some hfind)
      obtain ⟨hmem', ha'⟩ := hfields a ha
      have hfield := List.inj_on_of_nodup_map h hmem hmem' hgo
      obtain ⟨mf, mt⟩ := m
      obtain ⟨af, at'⟩ := a
      simp only at hfield hm ha'
      rw [hfield] at hm
      rw [hfield, Option.some.inj (hm.symm.trans ha')]

end

/-- The Go names of the programs. -/
def goNames (programs : List ProgramFunc) : List Text :=
  programs.map fun p => pascalCase p.name

/-- The environment of a generated method. -/
def attachEnv (fields : List BindingField) (xdpIfindex : Int) (outcome : Nat → Option Text) :
    AttachEnv :=
  ⟨attachers fields, xdpIfindex, outcome⟩

section

variable {programs : List ProgramFunc} {fields : List BindingField}

theorem nodup_of_sortedFields (hnames : (goNames programs).Nodup)
    (hfields : SortedFields (progFields programs) fields) :
    (fields.map BindingField.go).Nodup := by
  refine ((hfields.perm.map BindingField.go).nodup_iff).mpr ?_
  rw [progFields, List.map_map]
  exact hnames

/-- **`AttachAll` is all or nothing.** -/
theorem attachAll_allOrNothing (hnames : (goNames programs).Nodup)
    (hfields : SortedFields (progFields programs) fields) {body : List GoStmt}
    (hbody : attachAllBody (attachers fields) = some body) (xdpIfindex : Int)
    (outcome : Nat → Option Text) :
    AllOrNothing (wanted xdpIfindex (progFields programs))
      (runAttachAll (attachEnv fields xdpIfindex outcome) body) := by
  have hwanted : (wanted xdpIfindex fields).Perm (wanted xdpIfindex (progFields programs)) :=
    hfields.perm.filter _
  rw [attachAllBody] at hbody
  split_ifs at hbody
  cases hbody
  have hrun := @execs_attachers (attachEnv fields xdpIfindex outcome) (attachers fields)
    (find?_attachers (nodup_of_sortedFields hnames hfields)) _ _ Holds.init
  rw [show (attachEnv fields xdpIfindex outcome).xdpIfindex = xdpIfindex from rfl,
    attachedBy_attachers] at hrun
  rcases hrun with ⟨st, links, hrun, hst, hlinks⟩ |
    ⟨st, links, f, e, rest, -, hrun, hnodup, hlinks, htrace, -⟩
  · refine .inl ⟨links, ?_, hst.nodup, ?_, ?_⟩
    · rw [runAttachAll, hrun]
    · rw [hlinks]
      exact hwanted
    · rw [runAttachAll, hrun]
      exact hst.trace
  · refine .inr ⟨links, f, e, rest, ?_, hnodup, ?_, ?_⟩
    · rw [runAttachAll, hrun]
    · rw [hlinks]
      exact hwanted
    · rw [runAttachAll, hrun]
      exact htrace

/-! ## The order of the links -/

/-- The programs that can be attached, in the order of their declarations. -/
def attachable (fields : List BindingField) : List BindingField :=
  fields.filter fun f => (attachFor f.section_).isSome

theorem wanted_eq (xdpIfindex : Int) (fields : List BindingField) :
    wanted xdpIfindex fields = (attachable fields).filter (notSkipped xdpIfindex) := by
  rw [wanted, attachable, List.filter_filter]
  exact List.filter_congr fun f _ => Bool.and_comm ..

/-- When all calls succeed, the links come in the order of the attachers. -/
theorem runAttachAll_succeeds (hnames : (fields.map BindingField.go).Nodup) {body : List GoStmt}
    (hbody : attachAllBody (attachers fields) = some body) (xdpIfindex : Int) :
    ∃ links, (runAttachAll (attachEnv fields xdpIfindex fun _ => none) body).2 =
        some ⟨links, none⟩ ∧ links.map Link.program = wanted xdpIfindex fields := by
  rw [attachAllBody] at hbody
  split_ifs at hbody
  cases hbody
  have hrun := @execs_attachers (attachEnv fields xdpIfindex fun _ => none) (attachers fields)
    (find?_attachers hnames) _ _ Holds.init
  rw [show (attachEnv fields xdpIfindex fun _ => none).xdpIfindex = xdpIfindex from rfl,
    attachedBy_attachers] at hrun
  rcases hrun with ⟨st, links, hrun, -, hlinks⟩ | ⟨_, _, _, _, _, n, _, _, _, _, hfailed⟩
  · refine ⟨links, ?_, hlinks⟩
    rw [runAttachAll, hrun]
  · cases hfailed

/-- The links that `AttachAll` returns come in the order of the declarations, whatever
`sort.Slice` does; a file in which two programs have one Go name has no `AttachAll`. -/
def DeclarationOrder (programs : List ProgramFunc) : Prop :=
  (goNames programs).Nodup → ∀ fields, SortedFields (progFields programs) fields →
    ∀ body, attachAllBody (attachers fields) = some body → ∀ xdpIfindex,
      ∃ links, (runAttachAll (attachEnv fields xdpIfindex fun _ => none) body).2 =
          some ⟨links, none⟩ ∧
        links.map Link.program = wanted xdpIfindex (progFields programs)

theorem exists_sortedFields (fields : List BindingField) : ∃ sorted, SortedFields fields sorted := by
  let le : BindingField → BindingField → Bool := fun a b => decide (¬ b.go < a.go)
  have htrans : ∀ a b c, le a b = true → le b c = true → le a c = true := by
    intro a b c hab hbc
    simp only [le, decide_eq_true_eq, List.not_lt] at hab hbc ⊢
    exact List.le_trans hab hbc
  have htotal : ∀ a b, (le a b || le b a) = true := by
    intro a b
    simp only [le, Bool.or_eq_true, decide_eq_true_eq, List.not_lt]
    exact List.le_total a.go b.go
  refine ⟨fields.mergeSort le, List.mergeSort_perm _ _, ?_⟩
  exact (List.pairwise_mergeSort htrans htotal fields).imp fun h => by simpa [le] using h

/-- **When the links come in the order of the declarations**: the programs that can be
attached are declared in the order of their Go names. -/
theorem declarationOrder_iff (programs : List ProgramFunc) :
    DeclarationOrder programs ↔
      ((goNames programs).Nodup →
        (attachable (progFields programs)).Pairwise fun a b => a.go < b.go) := by
  constructor
  · intro horder hnames
    obtain ⟨fields, hfields⟩ := exists_sortedFields (progFields programs)
    have hsorted : (attachable fields).Pairwise fun a b => ¬ b.go < a.go :=
      hfields.sorted.sublist List.filter_sublist
    have heq : attachable fields = attachable (progFields programs) := by
      -- with an interface index nothing is skipped, so the links are all the attachable programs
      have hall : ∀ l : List BindingField, wanted 1 l = attachable l := by
        intro l
        rw [wanted_eq, List.filter_eq_self]
        simp [notSkipped]
      by_cases hnone : attachers fields = []
      · have hnil : attachable fields = [] := by
          rw [← hall, ← attachedBy_attachers, hnone]
          rfl
        have hperm : (attachable fields).Perm (attachable (progFields programs)) :=
          hfields.perm.filter _
        rw [hnil] at hperm ⊢
        exact hperm.nil_eq
      · obtain ⟨links, hrun, hlinks⟩ := horder hnames fields hfields _ (if_neg hnone) 1
        obtain ⟨links', hrun', hlinks'⟩ :=
          runAttachAll_succeeds (nodup_of_sortedFields hnames hfields) (if_neg hnone) 1
        rw [hrun] at hrun'
        cases hrun'
        rw [← hall, ← hall, ← hlinks, ← hlinks']
    rw [← heq]
    have hdistinct : (attachable fields).Pairwise fun a b => a.go ≠ b.go :=
      (List.pairwise_map.mp (nodup_of_sortedFields hnames hfields)).sublist List.filter_sublist
    refine (hsorted.and hdistinct).imp fun h => ?_
    rcases List.le_iff_lt_or_eq.mp (List.not_lt.mp h.1) with hlt | heq
    · exact hlt
    · exact absurd heq h.2
  · intro hsorted hnames fields hfields body hbody xdpIfindex
    have hfields' := nodup_of_sortedFields hnames hfields
    obtain ⟨links, hrun, hlinks⟩ := runAttachAll_succeeds hfields' hbody xdpIfindex
    refine ⟨links, hrun, hlinks.trans ?_⟩
    have heq : attachable fields = attachable (progFields programs) := by
      have hleft : (attachable fields).Pairwise fun a b => ¬ b.go < a.go :=
        hfields.sorted.sublist List.filter_sublist
      have hright : (attachable (progFields programs)).Pairwise fun a b => ¬ b.go < a.go :=
        (hsorted hnames).imp fun h => List.lt_asymm h
      -- two sorted arrangements of the same distinct names are one
      refine List.Perm.eq_of_pairwise ?_ hleft hright (hfields.perm.filter _)
      intro a b ha hb hab hba
      have hgo := List.le_antisymm (List.not_lt.mp hab) (List.not_lt.mp hba)
      have hb' : b ∈ fields := hfields.perm.mem_iff.mpr (List.mem_filter.mp hb).1
      exact List.inj_on_of_nodup_map hfields' (List.mem_filter.mp ha).1 hb' hgo
    rw [wanted_eq, wanted_eq, heq]

end

/-! ## A file with two programs -/

/-- `//bpf:section kprobe/b func second` declared before `//bpf:section xdp func first`. -/
def unsortedPrograms : List ProgramFunc :=
  let decl (name : Text) : FuncDecl := ⟨1, ⟨name, 6⟩, none, none, none, none, none⟩
  [⟨"second", "kprobe/b", ⟨"x.go", 3, 1⟩, decl "second"⟩,
    ⟨"first", "xdp", ⟨"x.go", 7, 1⟩, decl "first"⟩]

/-- The fields of the programs in the order of their Go names. -/
def sortedFields : List BindingField :=
  [⟨"First", "first", "xdp"⟩, ⟨"Second", "second", "kprobe/b"⟩]

theorem sortedFields_sorted : SortedFields (progFields unsortedPrograms) sortedFields :=
  ⟨by decide, by decide⟩

/-- The second call fails: the link of the first program is closed. -/
theorem sortedFields_allOrNothing :
    attachAllBody (attachers sortedFields) =
        some ((attachers sortedFields).flatMap attachStmts ++ [.done]) ∧
      AllOrNothing (wanted 4 (progFields unsortedPrograms))
        (runAttachAll (attachEnv sortedFields 4 fun n => if n = 1 then some "no kprobe" else none)
          ((attachers sortedFields).flatMap attachStmts ++ [.done])) :=
  have hbody : attachAllBody (attachers sortedFields) =
      some ((attachers sortedFields).flatMap attachStmts ++ [.done]) :=
    if_neg (by intro h; cases h)
  ⟨hbody, attachAll_allOrNothing (by decide) sortedFields_sorted hbody 4 _⟩

/-- `AttachAll` returns the link of the program declared last first. -/
theorem unsortedPrograms_reordered : ¬ DeclarationOrder unsortedPrograms := by
  intro horder
  have hbody : attachAllBody (attachers sortedFields) =
      some ((attachers sortedFields).flatMap attachStmts ++ [.done]) :=
    if_neg (by intro h; cases h)
  obtain ⟨links, hrun, hlinks⟩ := horder (by decide) sortedFields sortedFields_sorted _ hbody 4
  obtain ⟨links', hrun', hlinks'⟩ := runAttachAll_succeeds (by decide) hbody 4
  rw [hrun] at hrun'
  cases hrun'
  rw [hlinks] at hlinks'
  revert hlinks'
  decide

end Gobee
