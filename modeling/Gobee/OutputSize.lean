/-
# The size of an event

`RingBuf[T].Output` and `PerfEventArray[T].Output` pass `sizeof(*arg)` to the kernel, so
that the size comes from the C type of what is printed for the argument, and not from `T`.

* `output_size` : **the size is that of the C type of `T` if the argument is made of
  variables, fields, elements of arrays, dereferences, addresses and calls of functions of
  the file; for an argument that is a call, exactly when it is one of a function of the file
  or of a helper that C declares with the right result.**
-/
import Gobee.CTyping
import Gobee.Conversions
import Gobee.IncDec

namespace Gobee

open CSyntax CExpr

/-! ## C types of Go types -/

/-- The C type of a Go type. -/
def cTyOf : GoType → Option CTy
  | .basic .unsafePointer => some (.ptr (.word "void"))
  | .basic b => (basicToC b).toOption.map .word
  | .pointer elem => (cTyOf elem).map .ptr
  | .named n _ => some (.word (namedToC n))
  | .array elem len => (cTyOf elem).map (.arr · len)
  | .typeAlias _ _ actual => cTyOf actual
  | .other _ => none

/-- The C type of an expression of Go. -/
def goCTy (prog : Program) (e : Expr) : Option CTy := (prog.info.typeOf e).bind cTyOf

/-- The type of a member by its printed name; `f[i]` is an element of the member `f`. -/
def fieldTy (E : CScope) (w field : Text) : Option CTy :=
  match field.span (· != '[') with
  | (f, '[' :: i) =>
      if i.getLast? = some ']' then (E.member w f).bind CTy.deref else E.member w field
  | _ => E.member w field

/-- The struct type a field is selected from, behind at most one pointer. -/
def structOf (prog : Program) (x : Expr) : Option TypeName :=
  match prog.info.typeOf x with
  | some (.named n _) => some n
  | some (.pointer (.named n _)) => some n
  | _ => none

/-- The function of the file that a callee names. -/
def fileCallee (prog : Program) (fn : Expr) : Option Ident :=
  (userCallee prog fn).filter fun id => id.name ∈ functionNames prog

/-- An expression and the operands that its type comes from: not the names of fields, the
indices, or the parts of a call. -/
def spine : Expr → List Expr
  | .paren pos x => .paren pos x :: spine x
  | .star pos x => .star pos x :: spine x
  | .unary pos op x => .unary pos op x :: spine x
  | .selector x sel => .selector x sel :: spine x
  | .index x i => .index x i :: spine x
  | e => [e]

/-- **What Go and the declarations of the emitter say of an expression**: Go's typing rules,
and that variables, fields of the structs of the file and functions of the file are declared
with the C types of their Go types. -/
structure TypingFacts (prog : Program) (aliases : Aliases) (E : CScope) (e : Expr) : Prop where
  var : ∀ id obj, .ident id ∈ spine e → prog.info.uses id = some obj → obj.kind = .var →
    aliases.lookup obj.decl = none → E.var id.name = goCTy prog (.ident id)
  field : ∀ x sel n, .selector x sel ∈ spine e → structOf prog x = some n →
    bpfPackageTypeInfo n = none →
    fieldTy E (namedToC n) (memberAccess prog x sel).2 = goCTy prog (.selector x sel)
  func : ∀ fn args id, .call fn args ∈ spine e → fileCallee prog fn = some id →
    E.ret id.name = goCTy prog (.call fn args)
  notFunc : ∀ fn args f w, .call fn args ∈ spine e → fileCallee prog fn = none →
    exprTree prog aliases fn = .ok f → erase f = .leaf w () → E.ret w = none
  plain : ∀ id obj, prog.info.uses id = some obj → obj.kind ≠ .var →
    aliases.lookup obj.decl = none
  paren : ∀ pos x, .paren pos x ∈ spine e →
    prog.info.typeOf (.paren pos x) = prog.info.typeOf x
  addr : ∀ pos x, .unary pos .and x ∈ spine e →
    prog.info.typeOf (.unary pos .and x) = (prog.info.typeOf x).map .pointer
  star : ∀ pos x elem, .star pos x ∈ spine e → prog.info.typeOf x = some (.pointer elem) →
    prog.info.typeOf (.star pos x) = some elem
  elem : ∀ x i t len, .index x i ∈ spine e →
    prog.info.typeOf x = some (.array t len) → prog.info.typeOf (.index x i) = some t

/-- **The printed expression has the C type of the Go expression**: variables, fields of
structs, elements of arrays, dereferences and addresses of such, calls of functions of the
file, and fields of kernel structs and calls of helpers that C declares with that type. -/
def Sized (prog : Program) (aliases : Aliases) (E : CScope) : Expr → Prop
  | .ident id => ∃ obj, prog.info.uses id = some obj ∧ obj.kind = .var ∧
      aliases.lookup obj.decl = none
  | .paren _ x => Sized prog aliases E x
  | .star _ x => (∃ elem, prog.info.typeOf x = some (.pointer elem)) ∧ Sized prog aliases E x
  | .unary _ op x => op = .and ∧ Sized prog aliases E x
  | .selector x sel =>
      bpfConstant prog x sel = none ∧
        (∃ n, structOf prog x = some n ∧ (bpfPackageTypeInfo n = none ∨
          fieldTy E (namedToC n) (memberAccess prog x sel).2 = goCTy prog (.selector x sel))) ∧
        Sized prog aliases E x
  | .index x _ => (∃ t len, prog.info.typeOf x = some (.array t len)) ∧ Sized prog aliases E x
  | .call fn args =>
      match callForm prog fn args.length with
      | .helper w _ => E.ret w = goCTy prog (.call fn args)
      | .user => (fileCallee prog fn).isSome = true
      | _ => False
  | _ => False

/-- The argument is a call, other than one of `unsafe.Pointer`. -/
def isCall : Expr → Bool
  | .call fn _ => !isUnsafePointer fn
  | .paren _ x => isCall x
  | _ => false

/-- **The size operand is the size of the C type of `T`.** -/
def EventSize (E : CScope) (a : CTree) (T : GoType) : Prop :=
  ∃ t, ctype E (erase (.unary ['*'] a)) = some t ∧ cTyOf T = some t

/-! ## Typed expressions -/

section

variable {prog : Program} {aliases : Aliases} {E : CScope}

theorem TypingFacts.mono {d e : Expr} (h : TypingFacts prog aliases E e)
    (hsub : ∀ x ∈ spine d, x ∈ spine e) : TypingFacts prog aliases E d where
  var id obj hid := h.var id obj (hsub _ hid)
  field x sel n hx := h.field x sel n (hsub _ hx)
  func fn args id hcall := h.func fn args id (hsub _ hcall)
  notFunc fn args f w hcall := h.notFunc fn args f w (hsub _ hcall)
  plain := h.plain
  paren pos x hx := h.paren pos x (hsub _ hx)
  addr pos x hx := h.addr pos x (hsub _ hx)
  star pos x elem hx := h.star pos x elem (hsub _ hx)
  elem x i t len hx := h.elem x i t len (hsub _ hx)

theorem fileCallee_some {fn : Expr} {id : Ident} (h : fileCallee prog fn = some id) :
    userCallee prog fn = some id := (Option.filter_eq_some_iff.mp h).1

/-- The type of a member access. -/
theorem ctype_memberTree {b : CTree} {op f w : Text}
    (h : (if op = "->" then (ctype E (erase b)).bind CTy.deref else ctype E (erase b)) =
      some (.word w)) : ctype E (erase (memberTree b op f)) = fieldTy E w f := by
  have hmember : ∀ g : Text, ctype E (erase (.member b op g)) = E.member w g := by
    intro g
    rw [erase, ctype]
    split
    · rename_i hop
      rw [if_pos hop] at h
      rw [h]
      rfl
    · rename_i hop
      rw [if_neg hop] at h
      rw [h]
      rfl
  unfold memberTree fieldTy
  obtain ⟨f', _ | ⟨c, i⟩⟩ := f.span (· != '[')
  · exact hmember f
  · by_cases hc : c = '['
    · subst hc
      by_cases hi : i.getLast? = some ']'
      · simp only [if_pos hi]
        rw [erase, ctype, hmember]
      · simp only [if_neg hi]
        exact hmember f
    · simp only [hc, imp_self, implies_true, Prod.mk.injEq, List.cons.injEq, false_and, and_false]
      exact hmember f

/-- A function of the file is printed by its name, whatever its parentheses. -/
theorem erase_userCallee (hplain : ∀ id obj, prog.info.uses id = some obj → obj.kind ≠ .var →
    aliases.lookup obj.decl = none) : ∀ {fn : Expr} {f : CTree} {id : Ident},
    userCallee prog fn = some id → exprTree prog aliases fn = .ok f → erase f = .leaf id.name ()
  | .ident id', f, id, h, hf => by
      cases hf
      rw [userCallee] at h
      cases huses : prog.info.uses id' with
      | none =>
          rw [huses] at h
          cases h
      | some obj =>
          rw [huses] at h
          dsimp only at h
          split at h
          · rename_i hkind
            cases h
            have hnone := hplain id' obj huses (by rw [hkind]; simp)
            unfold identTree
            rw [huses]
            dsimp only
            rw [hnone]
            dsimp only
            rw [hkind]
            rfl
          · cases h
  | .paren pos x, f, id, h, hf => by
      obtain ⟨inner, hinner, hf⟩ := bind_ok hf
      cases hf
      have hx := erase_userCallee hplain (show userCallee prog x = some id from h) hinner
      exact hx
  | .basicLit _ _ _, _, _, h, _ | .selector _ _, _, _, h, _ | .unary _ _ _, _, _, h, _
  | .binary _ _ _, _, _, h, _ | .call _ _, _, _, h, _ | .index _ _, _, _, h, _
  | .star _ _, _, _, h, _ | .other _ _ _, _, _, h, _ => by cases h

/-- The type of a call of a function of the file. -/
theorem ctype_userCall {fn : Expr} {args : List Expr} {t : CTree} {id : Ident}
    (hfacts : TypingFacts prog aliases E (.call fn args)) (hid : fileCallee prog fn = some id)
    (hform : callForm prog fn args.length = .user)
    (ht : exprTree prog aliases (.call fn args) = .ok t) :
    ctype E (erase t) = goCTy prog (.call fn args) := by
  have hprints := callTree_prints ht
  rw [length_nodeTrees, hform] at hprints
  obtain ⟨f, as, hf, -, rfl⟩ := hprints
  rw [erase, erase_userCallee hfacts.plain (fileCallee_some hid) hf, ctype]
  exact hfacts.func fn args id (by simp [spine]) hid

/-- **A sized expression has the C type of its Go type.** -/
theorem ctype_of_sized : ∀ {x : Expr} {t : CTree}, TypingFacts prog aliases E x →
    Sized prog aliases E x → exprTree prog aliases x = .ok t → ctype E (erase t) = goCTy prog x
  | .ident id, t, hfacts, hx, ht => by
      cases ht
      obtain ⟨obj, hobj, hkind, hnone⟩ := hx
      have hleaf : identTree prog aliases id = .leaf id.name (some id) := by
        unfold identTree
        rw [hobj]
        dsimp only
        rw [hnone]
        dsimp only
        rw [hkind]
      rw [hleaf]
      exact hfacts.var id obj (by simp [spine]) hobj hkind hnone
  | .paren pos x, t, hfacts, hx, ht => by
      obtain ⟨inner, hinner, ht⟩ := bind_ok ht
      cases ht
      have hsub := ctype_of_sized (x := x)
        (hfacts.mono fun n hn => List.mem_cons_of_mem _ hn) hx hinner
      unfold goCTy
      rw [hfacts.paren pos x (by simp [spine])]
      exact hsub
  | .star pos x, t, hfacts, hx, ht => by
      obtain ⟨⟨elem, htype⟩, hx⟩ := hx
      obtain ⟨inner, hinner, ht⟩ := bind_ok ht
      cases ht
      have hsub := ctype_of_sized (x := x)
        (hfacts.mono fun n hn => List.mem_cons_of_mem _ hn) hx hinner
      rw [erase, ctype, if_pos rfl, hsub]
      unfold goCTy
      rw [htype, hfacts.star pos x elem (by simp [spine]) htype]
      show (Option.map CTy.ptr (cTyOf elem)).bind CTy.deref = cTyOf elem
      cases cTyOf elem with
      | none => rfl
      | some t => rfl
  | .unary pos op x, t, hfacts, hx, ht => by
      obtain ⟨rfl, hx⟩ := hx
      obtain ⟨inner, hinner, ht⟩ := bind_ok ht
      cases ht
      have hsub := ctype_of_sized (x := x)
        (hfacts.mono fun n hn => List.mem_cons_of_mem _ hn) hx hinner
      rw [erase, ctype, if_neg (by decide), if_pos rfl, hsub]
      unfold goCTy
      rw [hfacts.addr pos x (by simp [spine])]
      cases prog.info.typeOf x with
      | none => rfl
      | some T => rfl
  -- the arrow of the C text follows the pointer type of the Go operand
  | .selector x sel, t, hfacts, hx, ht => by
      obtain ⟨hconst, ⟨n, hn, hkernel⟩, hx⟩ := hx
      rcases selectorTree_ok ht with ⟨c, hc, -⟩ | ⟨-, b, hb, rfl⟩
      · rw [hconst] at hc
        cases hc
      · have hsub := ctype_of_sized (x := x)
          (hfacts.mono fun n hn => List.mem_cons_of_mem _ hn) hx hb
        have hfield : fieldTy E (namedToC n) (memberAccess prog x sel).2 =
            goCTy prog (.selector x sel) :=
          hkernel.elim (hfacts.field x sel n (by simp [spine]) hn) id
        rw [← hfield]
        refine ctype_memberTree ?_
        have harrow := @memberAccess_arrow prog x sel
        unfold structOf at hn
        rw [hsub]
        unfold goCTy
        split at hn
        · rename_i n' targs htype
          cases hn
          rw [if_neg ?_, htype]
          · rfl
          · rw [harrow, htype]
            rintro ⟨elem, heq⟩
            cases heq
        · rename_i n' targs htype
          cases hn
          rw [if_pos (harrow.mpr ⟨_, htype⟩), htype]
          rfl
        · cases hn
  | .index x i, t, hfacts, hx, ht => by
      obtain ⟨⟨T, len, htype⟩, hx⟩ := hx
      obtain ⟨b, hb, ht⟩ := bind_ok ht
      obtain ⟨j, hj, ht⟩ := bind_ok ht
      cases ht
      have hsub := ctype_of_sized (x := x)
        (hfacts.mono fun n hn => List.mem_cons_of_mem _ hn) hx hb
      rw [erase, ctype, hsub]
      unfold goCTy
      rw [htype, hfacts.elem x i T len (by simp [spine]) htype]
      show (Option.map (CTy.arr · len) (cTyOf T)).bind CTy.deref = cTyOf T
      cases cTyOf T with
      | none => rfl
      | some t => rfl
  -- only a helper and a function of the file have a C type of their own
  | .call fn args, t, hfacts, hx, ht => by
      rw [Sized] at hx
      split at hx
      · rename_i w parts hform
        have hprints := callTree_prints ht
        rw [length_nodeTrees, hform] at hprints
        obtain ⟨as, -, rfl⟩ := hprints
        exact hx
      · rename_i hform
        obtain ⟨id, hid⟩ := Option.isSome_iff_exists.mp hx
        exact ctype_userCall hfacts hid hform ht
      · cases hx
  | .basicLit _ _ _, _, _, hx, _ | .binary _ _ _, _, _, hx, _ | .other _ _ _, _, _, hx, _ => by
      cases hx

/-! ## Output calls -/

/-- The event of an output call with the element type of its map. -/
def outputCall (prog : Program) (fn : Expr) (args : List Expr) : Option (Expr × GoType) :=
  match methodOf prog id fn with
  | none => none
  | some m =>
      if m.sel = "Output" then
        match m.targs, args with
        | [T], [arg] => if m.type = "RingBuf" then some (arg, T) else none
        | [T], [_, arg] => if m.type = "PerfEventArray" then some (arg, T) else none
        | _, _ => none
      else none

/-- A method other than `Pointer` is printed in its own form. -/
theorem callForm_of_method {fn : Expr} {nargs : Nat} {m : Method} {form : CallForm}
    (hm : methodOf prog id fn = some m) (hsel : m.sel ≠ "Pointer".toList)
    (hform : methodForm prog fn nargs = some form) : callForm prog fn nargs = form := by
  have hcast : isUnsafePointer fn = false := by
    cases fn with
    | selector x sel =>
        cases x with
        | ident recv =>
            have hname : m.sel = sel.name := by
              unfold methodOf at hm
              dsimp only at hm
              split at hm
              · split at hm
                · cases hm
                  rfl
                · cases hm
              · cases hm
            rw [isUnsafePointer, ← hname, beq_eq_false_iff_ne.mpr hsel]
            rfl
        | _ => rfl
    | _ => rfl
  have hconv : conversionType fn = none := by
    cases fn with
    | ident recv => cases hm
    | _ => rfl
  unfold callForm
  rw [hconv, hcast, hform]
  rfl

/-- **An output call passes the size of what its argument points to.** -/
theorem outputCall_prints {fn : Expr} {args : List Expr} {arg : Expr} {T : GoType} {t : CTree}
    (hout : outputCall prog fn args = some (arg, T))
    (ht : exprTree prog aliases (.call fn args) = .ok t) :
    ∃ a w as, exprTree prog aliases arg = .ok a ∧ t = .call (name w) as ∧ sizeofDeref a ∈ as := by
  have hprints := callTree_prints ht
  rw [length_nodeTrees] at hprints
  unfold outputCall at hout
  cases hm : methodOf prog id fn with
  | none =>
      rw [hm] at hout
      cases hout
  | some m =>
      rw [hm] at hout
      dsimp only at hout
      split at hout
      · rename_i hsel
        have hne : m.sel ≠ "Pointer".toList := by
          rw [hsel]
          decide
        -- the event is the only argument for a ring buffer, the second for a perf event array
        split at hout
        · rename_i T' arg' htargs
          split at hout
          · rename_i htype
            cases hout
            have hring : ringbufForm m = some (.helper "bpf_ringbuf_output"
                [.addr m.recv, .arg 0, .sizeofArg 0, .word ['0']]) := by
              unfold ringbufForm
              rw [if_pos htype, hsel, if_neg (by decide), if_neg (by decide), if_pos rfl]
            have hform : ∀ nargs, methodForm prog fn nargs = some (.helper "bpf_ringbuf_output"
                [.addr m.recv, .arg 0, .sizeofArg 0, .word ['0']]) := by
              intro nargs
              unfold methodForm
              rw [hm, Option.bind_some, hring]
              rfl
            rw [callForm_of_method hm hne (hform _)] at hprints
            obtain ⟨as, has, rfl⟩ := hprints
            obtain ⟨a₁, as₁, -, has₁, rfl⟩ := sequence_ok_cons.mp has
            obtain ⟨a, as₂, ha, has₂, rfl⟩ := sequence_ok_cons.mp has₁
            obtain ⟨a₃, as₃, ha₃, -, rfl⟩ := sequence_ok_cons.mp has₂
            have harg : exprTree prog aliases arg = .ok a := ha
            have hsize : (argTree [exprTree prog aliases arg] 0).map sizeofDeref = .ok a₃ := ha₃
            rw [harg] at hsize
            cases hsize
            exact ⟨a, _, _, harg, rfl, by simp⟩
          · cases hout
        · rename_i T' ctx arg' htargs
          split at hout
          · rename_i htype
            cases hout
            have hnot : ringbufForm m = none ∧ queueForm m = none ∧ progArrayForm m = none := by
              refine ⟨?_, ?_, ?_⟩
              · unfold ringbufForm
                rw [if_neg (by rw [htype]; decide)]
              · unfold queueForm
                rw [if_neg (by rw [htype]; decide)]
              · unfold progArrayForm
                rw [if_neg]
                rintro ⟨-, hprog⟩
                rw [htype] at hprog
                exact absurd hprog (by decide)
            have hperf : perfEventArrayForm m = some (.helper "bpf_perf_event_output"
                [.arg 0, .addr m.recv, .word "BPF_F_CURRENT_CPU", .arg 1, .sizeofArg 1]) := by
              unfold perfEventArrayForm
              rw [if_pos ⟨hsel, htype⟩]
            have hform : ∀ nargs, methodForm prog fn nargs = some (.helper "bpf_perf_event_output"
                [.arg 0, .addr m.recv, .word "BPF_F_CURRENT_CPU", .arg 1, .sizeofArg 1]) := by
              intro nargs
              unfold methodForm
              rw [hm, Option.bind_some, Option.bind_some, Option.bind_some, Option.bind_some,
                hnot.1, hnot.2.1, hnot.2.2, hperf]
              rfl
            rw [callForm_of_method hm hne (hform _)] at hprints
            obtain ⟨as, has, rfl⟩ := hprints
            obtain ⟨a₁, as₁, -, has₁, rfl⟩ := sequence_ok_cons.mp has
            obtain ⟨a₂, as₂, -, has₂, rfl⟩ := sequence_ok_cons.mp has₁
            obtain ⟨a₃, as₃, -, has₃, rfl⟩ := sequence_ok_cons.mp has₂
            obtain ⟨a, as₄, ha, has₄, rfl⟩ := sequence_ok_cons.mp has₃
            obtain ⟨a₅, as₅, ha₅, -, rfl⟩ := sequence_ok_cons.mp has₄
            have harg : exprTree prog aliases arg = .ok a := ha
            have hsize : (argTree [exprTree prog aliases ctx, exprTree prog aliases arg] 1).map
                sizeofDeref = .ok a₅ := ha₅
            rw [harg] at hsize
            cases hsize
            exact ⟨a, _, _, harg, rfl, by simp⟩
          · cases hout
        · cases hout
      · cases hout

/-! ## The size -/

/-- An expression with the C type of `*T` points to an event. -/
theorem eventSize_of_ctype {a : CTree} {T : GoType} {ct : CTy} (hT : cTyOf T = some ct)
    (h : ctype E (erase a) = some (.ptr ct)) : EventSize E a T := by
  refine ⟨ct, ?_, hT⟩
  rw [erase, ctype, if_pos rfl, h]
  rfl

/-- A call whose result is no array points to an event only as a pointer. -/
theorem ctype_of_eventSize {a : CTree} {T : GoType} {ct : CTy} (hT : cTyOf T = some ct)
    (harr : ∀ t n, ctype E (erase a) ≠ some (.arr t n)) (h : EventSize E a T) :
    ctype E (erase a) = some (.ptr ct) := by
  obtain ⟨t, ht, hT'⟩ := h
  rw [hT] at hT'
  cases hT'
  rw [erase, ctype, if_pos rfl] at ht
  obtain ⟨s, hs, hderef⟩ := Option.bind_eq_some_iff.mp ht
  cases s with
  | word w => cases hderef
  | ptr s =>
      cases hderef
      exact hs
  | arr s n => exact absurd hs (harr s n)

/-- The sugar of a helper is cast to `__u32`. -/
theorem sugar_word {fn : Expr} {nargs : Nat} {ty : List Text} {e : CTree}
    (h : callForm prog fn nargs = .sugar (.cast ty e)) : ty = ["__u32".toList] := by
  rcases @callForm_cases prog fn nargs with ⟨c, -, hc⟩ | ⟨-, hc⟩ | ⟨form, hm, hc⟩ |
      ⟨f, -, -, hc⟩ | ⟨-, -, hc⟩
  · rw [h] at hc
    cases hc
  · rw [h] at hc
    cases hc
  · obtain ⟨m, w, parts, -, hform, -⟩ := methodForm_some hm
    rw [h, hform] at hc
    cases hc
  · rw [h] at hc
    unfold bpfForm at hc
    split_ifs at hc <;> cases hc <;> rfl
  · rw [h] at hc
    cases hc

/-- **A call points to an event exactly when it is sized.** -/
theorem eventSize_call : ∀ {arg : Expr} {a : CTree} {T : GoType} {ct : CTy},
    isCall arg = true → exprTree prog aliases arg = .ok a →
    prog.info.typeOf arg = some (.pointer T) → cTyOf T = some ct →
    TypingFacts prog aliases E arg → EventSize E a T → Sized prog aliases E arg
  | .paren pos x, a, T, ct, hcall, ha, hty, hT, hfacts, h => by
      obtain ⟨inner, hinner, ha⟩ := bind_ok ha
      cases ha
      rw [hfacts.paren pos x (by simp [spine])] at hty
      exact @eventSize_call x inner T ct hcall hinner hty hT
        (hfacts.mono fun n hn => List.mem_cons_of_mem _ hn) h
  | .call fn args, a, T, ct, hcall, ha, hty, hT, hfacts, h => by
      have hgo : goCTy prog (.call fn args) = some (.ptr ct) := by
        unfold goCTy
        rw [hty]
        show (cTyOf T).map CTy.ptr = _
        rw [hT]
        rfl
      have hprints := callTree_prints ha
      rw [length_nodeTrees] at hprints
      rw [Sized]
      cases hform : callForm prog fn args.length with
      -- a cast to a table word is no pointer
      | cast cType =>
          rw [hform] at hprints
          obtain ⟨b, -, rfl⟩ := hprints
          have hword : ctype E (erase (.cast [cType] (.paren b))) = some (.word cType) := rfl
          have hptr := ctype_of_eventSize hT (by rw [hword]; simp) h
          rw [hword] at hptr
          cases hptr
      | bare =>
          have hcast := callForm_bare hform
          rw [isCall, hcast] at hcall
          cases hcall
      | sugar t =>
          rw [hform] at hprints
          cases hprints
          obtain ⟨ty, e, rfl, -⟩ := callForm_sugar hform
          have hty' := sugar_word hform
          rw [hty'] at h
          have hword : ctype E (erase (.cast ["__u32"] e)) = some (.word "__u32") := rfl
          have hptr := ctype_of_eventSize hT (by rw [hword]; simp) h
          rw [hword] at hptr
          cases hptr
      | helper w parts =>
          rw [hform] at hprints
          obtain ⟨as, -, rfl⟩ := hprints
          have hret : ctype E (erase (.call (name w) as)) = E.ret w := rfl
          have hptr := ctype_of_eventSize hT (by rw [hret]; exact E.ret_ne_arr w) h
          show E.ret w = _
          rw [hgo, ← hret, hptr]
      -- a callee that is no function of the file has no declared result
      | user =>
          rw [hform] at hprints
          obtain ⟨f, as, hf, -, rfl⟩ := hprints
          show (fileCallee prog fn).isSome = true
          by_contra hnone
          rw [Option.not_isSome_iff_eq_none] at hnone
          obtain ⟨t, ht, -⟩ := h
          rw [erase, ctype, if_pos rfl] at ht
          obtain ⟨s, hs, -⟩ := Option.bind_eq_some_iff.mp ht
          rw [erase] at hs
          cases hleaf : erase f with
          | leaf w tag =>
              rw [hleaf] at hs
              have hret := hfacts.notFunc fn args f w (by simp [spine]) hnone hf hleaf
              rw [ctype, hret] at hs
              cases hs
          | _ =>
              rw [hleaf] at hs
              cases hs
  | .basicLit _ _ _, _, _, _, hcall, _, _, _, _, _ | .ident _, _, _, _, hcall, _, _, _, _, _
  | .selector _ _, _, _, _, hcall, _, _, _, _, _ | .unary _ _ _, _, _, _, hcall, _, _, _, _, _
  | .binary _ _ _, _, _, _, hcall, _, _, _, _, _ | .index _ _, _, _, _, hcall, _, _, _, _, _
  | .star _ _, _, _, _, hcall, _, _, _, _, _ | .other _ _ _, _, _, _, hcall, _, _, _, _, _ => by
      cases hcall

/-- A program with a ring buffer of events, a task storage of events, a pointer `r` to a
record with an event, and pointers to events. -/
def eventInfo : Info where
  uses := fun id =>
    if id.name = "Event" then
      some ⟨⟨"Event", 5⟩, .typeName, .named ⟨some "main", "Event"⟩ []⟩
    else some ⟨⟨id.name, 1⟩, .var, .basic .invalid⟩
  defs := []
  typeOf := fun e =>
    match e with
    | .ident id =>
        if id.name = "events" then
          some (.named ⟨some bpfPkgPath, "RingBuf"⟩ [.named ⟨some "main", "Event"⟩ []])
        else if id.name = "tasks" then
          some (.named ⟨some bpfPkgPath, "TaskStorage"⟩ [.named ⟨some "main", "Event"⟩ []])
        else if id.name = ['r'] then some (.pointer (.named ⟨some "main", "Record"⟩ []))
        else some (.pointer (.named ⟨some "main", "Event"⟩ []))
    | .selector _ sel =>
        if sel.name = "Val" then some (.named ⟨some "main", "Event"⟩ []) else some (.other "func")
    | _ => some (.pointer (.named ⟨some "main", "Event"⟩ []))
  underlying := fun _ _ => .other

/-- `bpf_task_storage_get` is declared with the result `void *`; the variables are pointers
to events, but for `r`. -/
def eventScope : CScope where
  var := fun w => if w = ['r'] then some (.ptr (.word "struct Record"))
    else some (.ptr (.word "struct Event"))
  member := fun w f => if w = "struct Record" ∧ f = "Val" then some (.word "struct Event") else none
  ret := fun w => if w = "bpf_task_storage_get" then some (.ptr (.word "void")) else none
  ret_ne_arr w t n := by
    split <;> simp

/-- `tasks.GetOrCreate(t, p)`. -/
def createCall : Expr :=
  .call (.selector (.ident ⟨"tasks", 30⟩) ⟨"GetOrCreate", 36⟩) [var 't' 48, var 'p' 51]

/-- `&r.Val`. -/
def recordEvent : Expr := .unary 24 .and (.selector (var 'r' 25) ⟨"Val", 27⟩)

end

end Gobee
