/-
# What a call is printed as

`formatCall` is a cascade of recognisers with a catch-all at its end.  Which of them a
call falls to, and how its arguments are arranged, depends on the callee and on the
number of arguments only: `callForm` says so in one place.

* `callTree_prints` : **a call is printed in its form.**  Later modules reason about calls
  with this theorem and do not look into the recognisers again.
-/
import Gobee.ExprTree

namespace Gobee

open CSyntax CExpr

/-! ## Forms -/

/-- A part of the argument list of a helper call. -/
inductive ArgPart where
  /-- a word of the emitter -/
  | word (w : Text)
  /-- the address of the receiver -/
  | addr (id : Ident)
  /-- the `i`-th argument -/
  | arg (i : Nat)
  /-- `sizeof(*a)` of the `i`-th argument `a` -/
  | sizeofArg (i : Nat)
  /-- the `i`-th argument after a cast -/
  | castArg (ty : List Text) (i : Nat)

/-- How a call is printed. -/
inductive CallForm where
  /-- a cast of the only argument -/
  | cast (cType : Text)
  /-- the only argument alone -/
  | bare
  /-- an expression without the arguments -/
  | sugar (t : CTree)
  /-- a call of a helper -/
  | helper (fn : Text) (parts : List ArgPart)
  /-- the callee as it is printed itself, with all arguments -/
  | user

/-- The `i`-th argument. -/
def argTree (args : List (Result CTree)) (i : Nat) : Result CTree :=
  (args[i]?).getD (.error .panic)

/-- The tree of a part. -/
def ArgPart.tree (args : List (Result CTree)) : ArgPart → Result CTree
  | .word w => .ok (name w)
  | .addr id => .ok (addrOf id)
  | .arg i => argTree args i
  | .sizeofArg i => (argTree args i).map sizeofDeref
  | .castArg ty i => (argTree args i).map (CExpr.cast ty)

/-- A form prints the tree. -/
def CallForm.Prints (fnTree : Result CTree) (args : List (Result CTree)) (t : CTree) :
    CallForm → Prop
  | .cast cType => ∃ a, args = [.ok a] ∧ t = .cast [cType] (.paren a)
  | .bare => args = [.ok t]
  | .sugar t' => t = t'
  | .helper fn parts =>
      ∃ as, sequence (parts.map (ArgPart.tree args)) = .ok as ∧ t = .call (name fn) as
  | .user => ∃ f as, fnTree = .ok f ∧ sequence args = .ok as ∧ t = .call f as

/-- The tree of a call in its form. -/
def CallForm.tree (fnTree : Result CTree) (args : List (Result CTree)) :
    CallForm → Result CTree
  | .cast cType => (argTree args 0).map fun a => .cast [cType] (.paren a)
  | .bare => argTree args 0
  | .sugar t => .ok t
  | .helper fn parts => (sequence (parts.map (ArgPart.tree args))).map (.call (name fn))
  | .user => do
      let f ← fnTree
      let as ← sequence args
      return .call f as

theorem CallForm.Prints.tree {fnTree : Result CTree} {args : List (Result CTree)} {t : CTree}
    {form : CallForm} (h : form.Prints fnTree args t) : form.tree fnTree args = .ok t := by
  cases form with
  | cast cType =>
      obtain ⟨a, rfl, rfl⟩ := h
      rfl
  | bare =>
      rw [show args = [.ok t] from h]
      rfl
  | sugar t' =>
      cases h
      rfl
  | helper fn parts =>
      obtain ⟨as, has, rfl⟩ := h
      rw [CallForm.tree, has]
      rfl
  | user =>
      obtain ⟨f, as, rfl, has, rfl⟩ := h
      rw [CallForm.tree, has]
      rfl

theorem CallForm.helper_of_tree {fnTree : Result CTree} {args : List (Result CTree)} {t : CTree}
    {fn : Text} {parts : List ArgPart}
    (h : (CallForm.helper fn parts).tree fnTree args = .ok t) :
    ∃ as, sequence (parts.map (ArgPart.tree args)) = .ok as ∧ t = .call (name fn) as := by
  rw [CallForm.tree] at h
  cases has : sequence (parts.map (ArgPart.tree args)) with
  | error e => rw [has] at h; cases h
  | ok as =>
      rw [has] at h
      cases h
      exact ⟨as, rfl, rfl⟩

theorem CallForm.user_of_tree {fnTree : Result CTree} {args : List (Result CTree)} {t : CTree}
    (h : CallForm.user.tree fnTree args = .ok t) :
    ∃ f as, fnTree = .ok f ∧ sequence args = .ok as ∧ t = .call f as := by
  obtain ⟨f, hf, h⟩ := bind_ok h
  obtain ⟨as, has, h⟩ := bind_ok h
  cases h
  exact ⟨f, as, hf, has, rfl⟩

/-! ## The form of a method call -/

/-- The forms of the ring buffer methods. -/
def ringbufForm (m : Method) : Option CallForm :=
  if m.type = "RingBuf" then
    if m.sel = "Submit" then some (.helper "bpf_ringbuf_submit" [.arg 0, .word ['0']])
    else if m.sel = "Discard" then some (.helper "bpf_ringbuf_discard" [.arg 0, .word ['0']])
    else if m.sel = "Output" then
      some (.helper "bpf_ringbuf_output" [.addr m.recv, .arg 0, .sizeofArg 0, .word ['0']])
    else none
  else none

/-- The forms of the queue and stack methods. -/
def queueForm (m : Method) : Option CallForm :=
  if m.type = "Queue" ∨ m.type = "Stack" then
    if m.sel = "Push" then some (.helper "bpf_map_push_elem" [.addr m.recv, .arg 0, .word ['0']])
    else if m.sel = "Pop" then some (.helper "bpf_map_pop_elem" [.addr m.recv, .arg 0])
    else if m.sel = "Peek" then some (.helper "bpf_map_peek_elem" [.addr m.recv, .arg 0])
    else none
  else none

/-- The form of a tail call. -/
def progArrayForm (m : Method) : Option CallForm :=
  if m.sel = "TailCall" ∧ m.type = "ProgArray" then
    some (.helper "bpf_tail_call" [.arg 0, .addr m.recv, .arg 1])
  else none

/-- The form of a perf event output. -/
def perfEventArrayForm (m : Method) : Option CallForm :=
  if m.sel = "Output" ∧ m.type = "PerfEventArray" then
    some (.helper "bpf_perf_event_output"
      [.arg 0, .addr m.recv, .word "BPF_F_CURRENT_CPU", .arg 1, .sizeofArg 1])
  else none

/-- The forms of the storage map methods. -/
def storageForm (s : Method × GoType × Text × Text) : Option CallForm :=
  if s.1.sel = "GetOrCreate" then
    some (.helper s.2.2.1
      [.addr s.1.recv, .arg 0, .arg 1, .word "BPF_LOCAL_STORAGE_GET_F_CREATE"])
  else if s.1.sel = "Delete" then some (.helper s.2.2.2 [.addr s.1.recv, .arg 0])
  else if s.1.sel = "Get" then
    some (.helper s.2.2.1 [.addr s.1.recv, .arg 0, .word "NULL", .word ['0']])
  else none

/-- The form of a redirect: the context is not printed. -/
def redirectForm (m : Method) : Option CallForm :=
  if m.sel = "Redirect" ∧ m.type ∈ redirectMapTypes then
    some (.helper "bpf_redirect_map" [.addr m.recv, .arg 1, .arg 2])
  else none

/-- All arguments in order. -/
def allArgs (nargs : Nat) : List ArgPart := (List.range nargs).map .arg

/-- The form of a map method. -/
def mapForm (nargs : Nat) (m : Method × GoType × Text) : CallForm :=
  .helper m.2.2 (.addr m.1.recv :: allArgs nargs ++
    if m.2.2 = "bpf_map_update_elem" then [.word "BPF_ANY"] else [])

/-- The form of a call of a `bpf` function. -/
def bpfForm (nargs : Nat) (fn : Text) : CallForm :=
  if fn = "GetCurrentPid" then
    .sugar (.cast ["__u32"] (.paren (.binary true ">>"
      (nullaryCall "bpf_get_current_pid_tgid") (name "32"))))
  else if fn = "GetCurrentTid" then
    .sugar (.cast ["__u32"] (.paren (nullaryCall "bpf_get_current_pid_tgid")))
  else if fn = "GetCurrentUid" then
    .sugar (.cast ["__u32"] (.paren (nullaryCall "bpf_get_current_uid_gid")))
  else if fn = "GetCurrentGid" then
    .sugar (.cast ["__u32"] (.paren (.binary true ">>"
      (nullaryCall "bpf_get_current_uid_gid") (name "32"))))
  else if fn = "GetTaskComm" then .helper "bpf_get_current_comm" [.arg 0, .word "16"]
  else if fn = "GetUserString" then
    .helper "bpf_probe_read_user_str" [.arg 0, .sizeofArg 0, .castArg ["const", "char", "*"] 1]
  else if fn = "GetUserArgv" then
    .helper "gobee_read_user_argv" [.castArg ["char", "*"] 0, .sizeofArg 0,
      .castArg ["const", "char", "*", "const", "*"] 1]
  else .helper (helperName fn) (allArgs nargs)

/-- The form of the call of a map method. -/
def methodForm (prog : Program) (fn : Expr) (nargs : Nat) : Option CallForm :=
  ((methodOf prog id fn).bind ringbufForm).or <|
  ((methodOf prog id fn).bind queueForm).or <|
  ((methodOf prog id fn).bind progArrayForm).or <|
  ((methodOf prog id fn).bind perfEventArrayForm).or <|
  ((storageMapInfo prog fn).bind storageForm).or <|
  ((methodOf prog stripPointer fn).bind redirectForm).or <|
  (mapMethodCall prog fn).map (mapForm nargs)

/-- **The form of a call.** -/
def callForm (prog : Program) (fn : Expr) (nargs : Nat) : CallForm :=
  match conversionType fn with
  | some cType => .cast cType
  | none =>
      if isUnsafePointer fn then .bare
      else
        match methodForm prog fn nargs with
        | some form => form
        | none =>
            match bpfFunction prog fn with
            | some f => bpfForm nargs f
            | none => .user

/-! ## A call is printed in its form -/

section

variable {prog : Program} {fn : Expr} {fnTree : Result CTree} {args : List (Result CTree)}

/-- A recogniser found what the form says: nothing if there is no form. -/
def Recognised (fnTree : Result CTree) (args : List (Result CTree)) :
    Option CallForm → Option CTree → Prop
  | none, none => True
  | some form, some t => form.Prints fnTree args t
  | _, _ => False

theorem orTry_ok {r : Result (Option CTree)} {next : Result CTree} {t : CTree}
    (h : orTry r next = .ok t) : r = .ok (some t) ∨ (r = .ok none ∧ next = .ok t) := by
  unfold orTry at h
  split at h
  · cases h
  · cases h
    exact .inl rfl
  · exact .inr ⟨rfl, h⟩

theorem sequence_ok_cons {r : Result CTree} {rest : List (Result CTree)} {as : List CTree} :
    sequence (r :: rest) = .ok as ↔ ∃ a as', r = .ok a ∧ sequence rest = .ok as' ∧ as = a :: as' := by
  rw [sequence]
  constructor
  · intro h
    obtain ⟨a, ha, h⟩ := bind_ok h
    obtain ⟨as', has', h⟩ := bind_ok h
    cases h
    exact ⟨a, as', ha, has', rfl⟩
  · rintro ⟨a, as', rfl, hrest, rfl⟩
    rw [hrest]
    rfl

section

variable {r : Option CTree} {t : CTree} {f : CallForm} {x y : Result CTree}

theorem recognised_none (h : (.ok none : Result (Option CTree)) = .ok r) :
    Recognised fnTree args none r := by
  cases h
  trivial

theorem recognised_some (hform : f.Prints fnTree args t)
    (h : (.ok (some t) : Result (Option CTree)) = .ok r) : Recognised fnTree args (some f) r := by
  cases h
  exact hform

/-- The recogniser and the form make the same test. -/
theorem recognised_if {p : Prop} [Decidable p] {form other : Option CallForm}
    {tree els : Result (Option CTree)} (hthen : tree = .ok r → Recognised fnTree args form r)
    (helse : els = .ok r → Recognised fnTree args other r)
    (h : (if p then tree else els) = .ok r) :
    Recognised fnTree args (if p then form else other) r := by
  by_cases hp : p
  · rw [if_pos hp] at h ⊢
    exact hthen h
  · rw [if_neg hp] at h ⊢
    exact helse h

theorem recognised_unary {call : CTree → CTree} (hform : ∀ a, f.Prints fnTree [.ok a] (call a))
    (h : (do
      let a ← x
      return some (call a)) = (.ok r : Result (Option CTree))) :
    Recognised fnTree [x] (some f) r := by
  obtain ⟨a, rfl, h⟩ := bind_ok h
  exact recognised_some (hform a) h

theorem recognised_binary {call : CTree → CTree → CTree}
    (hform : ∀ a b, f.Prints fnTree [.ok a, .ok b] (call a b))
    (h : (do
      let a ← x
      let b ← y
      return some (call a b)) = (.ok r : Result (Option CTree))) :
    Recognised fnTree [x, y] (some f) r := by
  obtain ⟨a, ha, h⟩ := bind_ok h
  obtain ⟨b, hb, h⟩ := bind_ok h
  subst ha hb
  exact recognised_some (hform a b) h

/-- A recogniser that tells three methods of a type apart by their names. -/
theorem recognised_three {p s₁ s₂ s₃ : Prop} [Decidable p] [Decidable s₁] [Decidable s₂]
    [Decidable s₃] {f₁ f₂ f₃ : CallForm} {call₁ call₂ call₃ : CTree → CTree} {msg : Text}
    (h₁ : ∀ a, f₁.Prints fnTree [.ok a] (call₁ a)) (h₂ : ∀ a, f₂.Prints fnTree [.ok a] (call₂ a))
    (h₃ : ∀ a, f₃.Prints fnTree [.ok a] (call₃ a))
    (h : (if p then
        match args with
        | [arg] => do
            let a ← arg
            if s₁ then return some (call₁ a)
            else if s₂ then return some (call₂ a)
            else if s₃ then return some (call₃ a)
            else return none
        | _ => errorf msg
      else .ok none) = (.ok r : Result (Option CTree))) :
    Recognised fnTree args (if p then
      if s₁ then some f₁ else if s₂ then some f₂ else if s₃ then some f₃ else none
      else none) r := by
  refine recognised_if (fun h => ?_) recognised_none h
  split at h
  · obtain ⟨a, rfl, h⟩ := bind_ok h
    exact recognised_if (recognised_some (h₁ a)) (recognised_if (recognised_some (h₂ a))
      (recognised_if (recognised_some (h₃ a)) recognised_none)) h
  · cases h

end

theorem ringbufMethodTree_form {r : Option CTree} (h : ringbufMethodTree prog fn args = .ok r) :
    Recognised fnTree args ((methodOf prog id fn).bind ringbufForm) r := by
  unfold ringbufMethodTree at h
  cases hm : methodOf prog id fn with
  | none =>
      simp only [hm] at h
      exact recognised_none h
  | some m =>
      simp only [hm] at h
      exact recognised_three (fun _ => ⟨_, rfl, rfl⟩) (fun _ => ⟨_, rfl, rfl⟩)
        (fun _ => ⟨_, rfl, rfl⟩) h

theorem queueLikeMethodTree_form {r : Option CTree}
    (h : queueLikeMethodTree prog fn args = .ok r) :
    Recognised fnTree args ((methodOf prog id fn).bind queueForm) r := by
  unfold queueLikeMethodTree at h
  cases hm : methodOf prog id fn with
  | none =>
      simp only [hm] at h
      exact recognised_none h
  | some m =>
      simp only [hm] at h
      exact recognised_three (fun _ => ⟨_, rfl, rfl⟩) (fun _ => ⟨_, rfl, rfl⟩)
        (fun _ => ⟨_, rfl, rfl⟩) h

theorem progArrayMethodTree_form {r : Option CTree}
    (h : progArrayMethodTree prog fn args = .ok r) :
    Recognised fnTree args ((methodOf prog id fn).bind progArrayForm) r := by
  unfold progArrayMethodTree at h
  cases hm : methodOf prog id fn with
  | none =>
      simp only [hm] at h
      exact recognised_none h
  | some m =>
      simp only [hm] at h
      refine recognised_if (fun h => ?_) recognised_none h
      split at h
      · exact recognised_binary (fun _ _ => ⟨_, rfl, rfl⟩) h
      · cases h

theorem perfEventArrayMethodTree_form {r : Option CTree}
    (h : perfEventArrayMethodTree prog fn args = .ok r) :
    Recognised fnTree args ((methodOf prog id fn).bind perfEventArrayForm) r := by
  unfold perfEventArrayMethodTree at h
  cases hm : methodOf prog id fn with
  | none =>
      simp only [hm] at h
      exact recognised_none h
  | some m =>
      simp only [hm] at h
      refine recognised_if (fun h => ?_) recognised_none h
      split at h
      · exact recognised_binary (fun _ _ => ⟨_, rfl, rfl⟩) h
      · cases h

theorem storageMethodTree_form {r : Option CTree} (h : storageMethodTree prog fn args = .ok r) :
    Recognised fnTree args ((storageMapInfo prog fn).bind storageForm) r := by
  unfold storageMethodTree at h
  cases hm : storageMapInfo prog fn with
  | none =>
      simp only [hm] at h
      exact recognised_none h
  | some s =>
      obtain ⟨m, valType, getFn, deleteFn⟩ := s
      simp only [hm] at h
      refine recognised_if (fun h => ?_) (recognised_if (fun h => ?_)
        (recognised_if (fun h => ?_) recognised_none)) h
      · split at h
        · exact recognised_binary (fun _ _ => ⟨_, rfl, rfl⟩) h
        · cases h
      · split at h
        · exact recognised_unary (fun _ => ⟨_, rfl, rfl⟩) h
        · cases h
      · split at h
        · exact recognised_unary (fun _ => ⟨_, rfl, rfl⟩) h
        · cases h

theorem redirectMapTree_form {r : Option CTree} (h : redirectMapTree prog fn args = .ok r) :
    Recognised fnTree args ((methodOf prog stripPointer fn).bind redirectForm) r := by
  unfold redirectMapTree at h
  cases hm : methodOf prog stripPointer fn with
  | none =>
      simp only [hm] at h
      exact recognised_none h
  | some m =>
      simp only [hm] at h
      refine recognised_if (fun h => ?_) recognised_none h
      split at h
      -- the context is not printed
      · obtain ⟨k, hk, h⟩ := bind_ok h
        obtain ⟨f, hf, h⟩ := bind_ok h
        subst hk hf
        exact recognised_some ⟨_, rfl, rfl⟩ h
      · cases h

theorem map_argTree (args : List (Result CTree)) :
    (allArgs args.length).map (ArgPart.tree args) = args := by
  refine List.ext_getElem (by simp [allArgs]) fun i h₁ h₂ => ?_
  simp [allArgs, ArgPart.tree, argTree, h₂]

theorem sequence_append {xs ys : List (Result CTree)} {as bs : List CTree}
    (hxs : sequence xs = .ok as) (hys : sequence ys = .ok bs) :
    sequence (xs ++ ys) = .ok (as ++ bs) := by
  induction xs generalizing as with
  | nil =>
      cases hxs
      exact hys
  | cons x rest ih =>
      obtain ⟨a, as', rfl, hrest, rfl⟩ := sequence_ok_cons.mp hxs
      exact sequence_ok_cons.mpr ⟨a, as' ++ bs, rfl, ih hrest, rfl⟩

theorem mapTree_form {r : Option CTree} (h : mapTree prog fn args = .ok r) :
    Recognised fnTree args ((mapMethodCall prog fn).map (mapForm args.length)) r := by
  unfold mapTree at h
  cases hm : mapMethodCall prog fn with
  | none =>
      simp only [hm] at h
      exact recognised_none h
  | some m =>
      obtain ⟨m, valType, helper⟩ := m
      simp only [hm] at h
      obtain ⟨as, has, h⟩ := bind_ok h
      cases h
      rw [← map_argTree args] at has
      refine ⟨_, ?_, rfl⟩
      rw [List.cons_append, List.map_cons, List.map_append]
      refine sequence_ok_cons.mpr ⟨_, _, rfl, sequence_append has ?_, rfl⟩
      by_cases hupdate : helper = "bpf_map_update_elem"
      · rw [if_pos hupdate, if_pos hupdate]
        rfl
      · rw [if_neg hupdate, if_neg hupdate]
        rfl

theorem sequence_ok_iff {rs : List (Result CTree)} {as : List CTree} :
    sequence rs = .ok as ↔ rs = as.map .ok := by
  induction rs generalizing as with
  | nil =>
      constructor
      · intro h
        cases h
        rfl
      · intro h
        rw [List.map_eq_nil_iff.mp h.symm]
        rfl
  | cons r rest ih =>
      rw [sequence_ok_cons]
      constructor
      · rintro ⟨a, as', rfl, hrest, rfl⟩
        rw [ih.mp hrest]
        rfl
      · intro h
        cases as with
        | nil => cases h
        | cons a as' =>
            rw [List.map_cons, List.cons.injEq] at h
            exact ⟨a, as', h.1, ih.mpr h.2, rfl⟩

theorem expansionTree_form {f : Text} {as : List CTree} {e : Result CTree} {t : CTree}
    (he : expansionTree f as = some e) (ht : e = .ok t) :
    (bpfForm as.length f).Prints fnTree (as.map .ok) t := by
  subst ht
  unfold expansionTree at he
  unfold bpfForm
  split_ifs at he ⊢ <;> rw [Option.some.injEq] at he
  · cases he
    rfl
  · cases he
    rfl
  · cases he
    rfl
  · cases he
    rfl
  · split at he
    · cases he
      exact ⟨_, rfl, rfl⟩
    · cases he
  · split at he
    · cases he
      exact ⟨_, rfl, rfl⟩
    · cases he
  · split at he
    · cases he
      exact ⟨_, rfl, rfl⟩
    · cases he

theorem bpfForm_of_none {f : Text} {as : List CTree} (he : expansionTree f as = none) :
    bpfForm as.length f = .helper (helperName f) (allArgs as.length) := by
  unfold expansionTree at he
  unfold bpfForm
  split_ifs at he ⊢
  rfl

theorem bpfTree_form {r : Option CTree} (h : bpfTree prog fn args = .ok r) :
    Recognised fnTree args ((bpfFunction prog fn).map (bpfForm args.length)) r := by
  unfold bpfTree at h
  cases hf : bpfFunction prog fn with
  | none =>
      simp only [hf] at h
      exact recognised_none h
  | some f =>
      simp only [hf] at h
      obtain ⟨as, has, hr⟩ := bind_ok h
      clear h
      cases sequence_ok_iff.mp has
      rw [List.length_map]
      cases he : expansionTree f as with
      | some e =>
          rw [he] at hr
          obtain ⟨t, ht, hr⟩ := bind_ok hr
          cases hr
          exact expansionTree_form he ht
      | none =>
          rw [he] at hr
          cases hr
          rw [Option.map_some, bpfForm_of_none he]
          refine ⟨as, ?_, rfl⟩
          have hmap := map_argTree (as.map .ok)
          rw [List.length_map] at hmap
          rw [hmap]
          exact has

/-- One step of the cascade: the recogniser takes the call if it has a form for it. -/
theorem orTry_form {form : Option CallForm} {r : Result (Option CTree)} {next : Result CTree}
    {t : CTree} (hr : ∀ {c}, r = .ok c → Recognised fnTree args form c)
    (h : orTry r next = .ok t) :
    (∃ f, form = some f ∧ f.Prints fnTree args t) ∨ (form = none ∧ next = .ok t) := by
  rcases orTry_ok h with h | ⟨h, hnext⟩
  · have hrec := hr h
    cases form with
    | none => exact hrec.elim
    | some f => exact .inl ⟨f, rfl, hrec⟩
  · have hrec := hr h
    cases form with
    | none => exact .inr ⟨rfl, hnext⟩
    | some f => exact hrec.elim

theorem conversionTree_form {r : Option CTree} (h : conversionTree prog fn args = .ok r) :
    Recognised fnTree args ((conversionType fn).map .cast) r := by
  unfold conversionTree at h
  cases hc : conversionType fn with
  | none =>
      simp only [hc] at h
      exact recognised_none h
  | some cType =>
      simp only [hc] at h
      split at h
      · obtain ⟨a, rfl, h⟩ := bind_ok h
        cases h
        exact ⟨a, rfl, rfl⟩
      · cases h

theorem unsafePointerTree_form {r : Option CTree} (h : unsafePointerTree prog fn args = .ok r) :
    Recognised fnTree args (if isUnsafePointer fn then some .bare else none) r := by
  unfold unsafePointerTree at h
  by_cases hp : isUnsafePointer fn = true
  · rw [if_pos hp] at h ⊢
    split at h
    · obtain ⟨a, rfl, h⟩ := bind_ok h
      cases h
      rfl
    · cases h
  · rw [if_neg hp] at h ⊢
    cases h
    trivial

/-- **A call is printed in its form.** -/
theorem callTree_prints {t : CTree} (h : callTree prog fn fnTree args = .ok t) :
    (callForm prog fn args.length).Prints fnTree args t := by
  unfold callTree at h
  unfold callForm
  rcases orTry_form conversionTree_form h with ⟨f, hf, hprints⟩ | ⟨hconv, h⟩
  · obtain ⟨c, hc, rfl⟩ := Option.map_eq_some_iff.mp hf
    rw [hc]
    exact hprints
  rw [Option.map_eq_none_iff.mp hconv]
  rcases orTry_form unsafePointerTree_form h with ⟨f, hf, hprints⟩ | ⟨hcast, h⟩
  · have hp : isUnsafePointer fn = true := by
      by_contra hp
      rw [if_neg hp] at hf
      cases hf
    rw [if_pos hp] at hf
    cases hf
    simp only [hp, if_true]
    exact hprints
  have hp : isUnsafePointer fn = false := by
    by_contra hp
    rw [if_pos (by simpa using hp)] at hcast
    cases hcast
  simp only [hp, Bool.false_eq_true, if_false]
  -- the form of the first recogniser that has one
  rcases orTry_form ringbufMethodTree_form h with ⟨f, hf, hprints⟩ | ⟨h₁, h⟩
  · simpa only [methodForm, hf, Option.some_or] using hprints
  rcases orTry_form queueLikeMethodTree_form h with ⟨f, hf, hprints⟩ | ⟨h₂, h⟩
  · simpa only [methodForm, h₁, hf, Option.none_or, Option.some_or] using hprints
  rcases orTry_form progArrayMethodTree_form h with ⟨f, hf, hprints⟩ | ⟨h₃, h⟩
  · simpa only [methodForm, h₁, h₂, hf, Option.none_or, Option.some_or] using hprints
  rcases orTry_form perfEventArrayMethodTree_form h with ⟨f, hf, hprints⟩ | ⟨h₄, h⟩
  · simpa only [methodForm, h₁, h₂, h₃, hf, Option.none_or, Option.some_or] using hprints
  rcases orTry_form storageMethodTree_form h with ⟨f, hf, hprints⟩ | ⟨h₅, h⟩
  · simpa only [methodForm, h₁, h₂, h₃, h₄, hf, Option.none_or, Option.some_or]
      using hprints
  rcases orTry_form redirectMapTree_form h with ⟨f, hf, hprints⟩ | ⟨h₆, h⟩
  · simpa only [methodForm, h₁, h₂, h₃, h₄, h₅, hf, Option.none_or, Option.some_or]
      using hprints
  rcases orTry_form mapTree_form h with ⟨f, hf, hprints⟩ | ⟨h₇, h⟩
  · simpa only [methodForm, h₁, h₂, h₃, h₄, h₅, h₆, hf, Option.none_or] using hprints
  have hmethod : methodForm prog fn args.length = none := by
    simp only [methodForm, h₁, h₂, h₃, h₄, h₅, h₆, h₇, Option.none_or]
  rw [hmethod]
  rcases orTry_form bpfTree_form h with ⟨f, hf, hprints⟩ | ⟨hbpf, h⟩
  · obtain ⟨c, hc, rfl⟩ := Option.map_eq_some_iff.mp hf
    simpa only [hc] using hprints
  simp only [Option.map_eq_none_iff.mp hbpf]
  obtain ⟨f, hf, h⟩ := bind_ok h
  obtain ⟨as, has, h⟩ := bind_ok h
  cases h
  exact ⟨f, as, hf, has, rfl⟩

end

/-! ## The forms of the comma-ok calls -/

section

variable {prog : Program} {fn : Expr}

/-- The method a callee names is that of a selector on an identifier. -/
theorem methodOf_selector {view : GoType → GoType} {m : Method} (h : methodOf prog view fn = some m) :
    ∃ id sel n targs, fn = .selector (.ident id) sel ∧ m = ⟨id, sel.name, n.name, targs⟩ ∧
      (prog.info.typeOf (.ident id)).map view = some (.named n targs) ∧ n.pkg = some bpfPkgPath := by
  unfold methodOf at h
  split at h
  · rename_i id sel
    split at h
    · rename_i n targs htype
      split at h
      · rename_i hpkg
        cases h
        exact ⟨id, sel, n, targs, rfl, rfl, htype, hpkg⟩
      · cases h
    · cases h
  · cases h

/-- A method on a value is also found behind a pointer. -/
theorem methodOf_stripPointer {m : Method} (h : methodOf prog id fn = some m) :
    methodOf prog stripPointer fn = some m := by
  obtain ⟨x, sel, n, targs, rfl, rfl, htype, hpkg⟩ := methodOf_selector h
  rw [Option.map_id_fun, id] at htype
  unfold methodOf
  simp only [htype, Option.map_some, stripPointer, hpkg, if_true]

/-- What the callee of a method other than `Pointer` is printed in. -/
theorem callForm_method {view : GoType → GoType} {m : Method} {form : CallForm} {nargs : Nat}
    (h : methodOf prog view fn = some m) (hsel : m.sel ≠ "Pointer")
    (hform : methodForm prog fn nargs = some form) : callForm prog fn nargs = form := by
  obtain ⟨x, sel, n, targs, rfl, rfl, -, -⟩ := methodOf_selector h
  have hcast : isUnsafePointer (.selector (.ident x) sel) = false := by
    simp only [isUnsafePointer, Bool.and_eq_false_iff, beq_eq_false_iff_ne]
    exact .inl hsel
  unfold callForm
  simp only [conversionType, hcast, hform, Bool.false_eq_true, if_false]

theorem mapMethodCall_some {m : Method} {valType : GoType} {helper : Text}
    (h : mapMethodCall prog fn = some (m, valType, helper)) :
    methodOf prog id fn = some m ∧ mapMethodToHelper.lookup m.sel = some helper ∧
      m.type ∈ kernelMapGoTypes := by
  unfold mapMethodCall at h
  split at h
  · cases h
  · split at h
    · split_ifs at h with htype
      cases h
      exact ⟨‹_›, ‹_›, htype⟩
    · cases h

theorem storageMapInfo_some {m : Method} {valType : GoType} {getFn deleteFn : Text}
    (h : storageMapInfo prog fn = some (m, valType, getFn, deleteFn)) :
    methodOf prog stripPointer fn = some m ∧
      storageMapHelpers.lookup m.type = some (getFn, deleteFn) := by
  unfold storageMapInfo at h
  split at h
  · cases h
  · split at h
    · cases h
      exact ⟨‹_›, ‹_›⟩
    · cases h

/-- The kinds of maps whose methods have names of their own are no others. -/
theorem not_kernelMapGoType {t : Text} (h : t ∈ kernelMapGoTypes) :
    t ≠ "RingBuf" ∧ t ≠ "Queue" ∧ t ≠ "Stack" ∧ storageMapHelpers.lookup t = none := by
  simp only [kernelMapGoTypes, List.mem_cons, List.not_mem_nil, or_false] at h
  rcases h with rfl | rfl | rfl | rfl | rfl | rfl | rfl <;> decide

theorem mapMethod_sel {sel helper : Text} (h : mapMethodToHelper.lookup sel = some helper) :
    (sel = "Lookup" ∧ helper = "bpf_map_lookup_elem") ∨
      (sel = "Update" ∧ helper = "bpf_map_update_elem") ∨
      (sel = "Delete" ∧ helper = "bpf_map_delete_elem") := by
  obtain ⟨l₁, l₂, hrows, -⟩ := List.lookup_eq_some_iff.mp h
  have hmem : (sel, helper) ∈ mapMethodToHelper := by
    rw [hrows]
    simp
  simpa only [mapMethodToHelper, List.mem_cons, List.not_mem_nil, or_false, Prod.mk.injEq]
    using hmem

theorem storageMap_type {t : Text} {fns : Text × Text} (h : storageMapHelpers.lookup t = some fns) :
    t = "TaskStorage" ∨ t = "SkStorage" ∨ t = "InodeStorage" := by
  obtain ⟨l₁, l₂, hrows, -⟩ := List.lookup_eq_some_iff.mp h
  have hmem : (t, fns) ∈ storageMapHelpers := by
    rw [hrows]
    simp
  simp only [storageMapHelpers, List.mem_cons, List.not_mem_nil, or_false, Prod.mk.injEq] at hmem
  rcases hmem with h | h | h
  · exact .inl h.1
  · exact .inr (.inl h.1)
  · exact .inr (.inr h.1)

/-- A method of a lookup map is printed in its form. -/
theorem mapMethodCall_form {m : Method} {valType : GoType} {helper : Text} (nargs : Nat)
    (h : mapMethodCall prog fn = some (m, valType, helper)) :
    callForm prog fn nargs = mapForm nargs (m, valType, helper) := by
  obtain ⟨hm, hsel, htype⟩ := mapMethodCall_some h
  obtain ⟨hring, hqueue, hstack, hstorage⟩ := not_kernelMapGoType htype
  have hsels : m.sel ≠ "TailCall" ∧ m.sel ≠ "Output" ∧ m.sel ≠ "Redirect" ∧ m.sel ≠ "Pointer" := by
    rcases mapMethod_sel hsel with ⟨hs, -⟩ | ⟨hs, -⟩ | ⟨hs, -⟩ <;> rw [hs] <;> decide
  have hinfo : storageMapInfo prog fn = none := by
    unfold storageMapInfo
    simp only [methodOf_stripPointer hm, hstorage]
  refine callForm_method hm hsels.2.2.2 ?_
  unfold methodForm
  rw [hm, methodOf_stripPointer hm, hinfo, h, Option.bind_some, Option.bind_some, Option.bind_some,
    Option.bind_some, Option.bind_some, Option.bind_none, Option.map_some, ringbufForm,
    if_neg hring, queueForm, if_neg (not_or.mpr ⟨hqueue, hstack⟩), progArrayForm,
    if_neg (fun h => hsels.1 h.1), perfEventArrayForm, if_neg (fun h => hsels.2.1 h.1),
    redirectForm, if_neg (fun h => hsels.2.2.1 h.1)]
  rfl

/-- A method of a storage map is printed in its form. -/
theorem storageMapInfo_form {s : Method × GoType × Text × Text} {form : CallForm} (nargs : Nat)
    (h : storageMapInfo prog fn = some s) (hform : storageForm s = some form) :
    callForm prog fn nargs = form := by
  obtain ⟨m, valType, getFn, deleteFn⟩ := s
  obtain ⟨hm, hlookup⟩ := storageMapInfo_some h
  have htypes : m.type ≠ "RingBuf" ∧ m.type ≠ "Queue" ∧ m.type ≠ "Stack" ∧ m.type ≠ "ProgArray" ∧
      m.type ≠ "PerfEventArray" := by
    rcases storageMap_type hlookup with ht | ht | ht <;> rw [ht] <;> decide
  have hsel : m.sel ≠ "Pointer" := by
    intro hsel
    unfold storageForm at hform
    rw [if_neg (by rw [hsel]; decide), if_neg (by rw [hsel]; decide),
      if_neg (by rw [hsel]; decide)] at hform
    cases hform
  refine callForm_method hm hsel ?_
  -- on a value the earlier recognisers see the same method, behind a pointer none
  have hearly : ∀ {f : Method → Option CallForm}, f m = none →
      (methodOf prog id fn).bind f = none := by
    intro f hf
    cases hid : methodOf prog id fn with
    | none => rfl
    | some m' =>
        rw [methodOf_stripPointer hid] at hm
        cases hm
        exact hf
  unfold methodForm
  rw [hearly (if_neg htypes.1), hearly (if_neg (not_or.mpr ⟨htypes.2.1, htypes.2.2.1⟩)),
    hearly (if_neg fun h => htypes.2.2.2.1 h.2), hearly (if_neg fun h => htypes.2.2.2.2 h.2), h,
    Option.bind_some, hform]
  rfl

end

end Gobee
