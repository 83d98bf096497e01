/-
# What of the source is printed

`formatExpr` does not print all of an expression: a constant of the `bpf` package hides
its selector, the callee of a recognised call is replaced by the name of a helper, and the
context of a redirect is left out.  `printed` lists the expressions that are printed, and
`own` what each of them contributes by itself.

* `mem_collect_iff` : **what is collected from the tree of an expression is what its
  printed expressions contribute.**
-/
import Gobee.CallForm

namespace Gobee

open CSyntax CExpr

/-! ## Printed expressions -/

/-- The argument a part prints. -/
def ArgPart.index : ArgPart → Option Nat
  | .word _ | .addr _ => none
  | .arg i | .sizeofArg i | .castArg _ i => some i

/-- The arguments a form prints. -/
def CallForm.used (nargs : Nat) : CallForm → List Nat
  | .cast _ | .bare => [0]
  | .sugar _ => []
  | .helper _ parts => parts.filterMap ArgPart.index
  | .user => List.range nargs

/-- What is printed of the callee and the arguments, given what is printed of each. -/
def CallForm.printedParts {α : Type} (form : CallForm) (fn : List α) (args : List (List α)) :
    List α :=
  (match form with
    | .user => fn
    | _ => []) ++ (form.used args.length).flatMap fun i => (args[i]?).getD []

mutual
/-- The expressions that are printed for an expression. -/
def printed (prog : Program) : Expr → List Expr
  | .basicLit pos kind value => [.basicLit pos kind value]
  | .ident id => [.ident id]
  | .selector x sel =>
      .selector x sel :: (if (bpfConstant prog x sel).isSome then [] else printed prog x)
  | .unary pos op x => .unary pos op x :: printed prog x
  | .binary x op y => .binary x op y :: (printed prog x ++ printed prog y)
  | .call fn args =>
      .call fn args ::
        (callForm prog fn args.length).printedParts (printed prog fn) (printedEach prog args)
  | .paren pos x => .paren pos x :: printed prog x
  | .index x i => .index x i :: (printed prog x ++ printed prog i)
  | .star pos x => .star pos x :: printed prog x
  | .other _ _ _ => []

/-- The expressions printed for each of a list of expressions. -/
def printedEach (prog : Program) : List Expr → List (List Expr)
  | [] => []
  | e :: rest => printed prog e :: printedEach prog rest
end

@[simp] theorem length_printedEach (prog : Program) (es : List Expr) :
    (printedEach prog es).length = es.length := by
  induction es with
  | nil => rfl
  | cons e rest ih => simp [printedEach, ih]

@[simp] theorem length_nodeTrees (prog : Program) (aliases : Aliases) (es : List Expr) :
    (nodeTrees prog aliases es).length = es.length := by
  induction es with
  | nil => rfl
  | cons e rest ih => simp [nodeTrees, ih]

/-! ## No type of the package is read through CO-RE -/

theorem isKernelContextStruct_eq (n : TypeName) : isKernelContextStruct n = false := by
  have htable : ∀ row ∈ bpfPackageTypes, row.2.fieldsCORE = false := by
    simp [bpfPackageTypes]
  unfold isKernelContextStruct bpfPackageTypeInfo
  split
  · rename_i info hinfo
    split at hinfo
    · obtain ⟨l₁, l₂, hrows, -⟩ := List.lookup_eq_some_iff.mp hinfo
      exact htable (n.name, info) (by rw [hrows]; simp)
    · cases hinfo
  · rfl

theorem kernelStructType_eq (prog : Program) (x : Expr) : kernelStructType prog x = none := by
  unfold kernelStructType
  split
  · rw [isKernelContextStruct_eq]
    rfl
  · rfl

/-- A selector is a constant of the package or a member access. -/
theorem selectorTree_ok {prog : Program} {x : Expr} {sel : Ident} {tree base : Result CTree}
    {t : CTree} (h : selectorTree prog x sel tree base = .ok t) :
    (∃ c, bpfConstant prog x sel = some c ∧ t = numberTree c) ∨
      (bpfConstant prog x sel = none ∧ ∃ b, tree = .ok b ∧
        t = memberTree b (memberAccess prog x sel).1 (memberAccess prog x sel).2) := by
  unfold selectorTree at h
  split at h
  · rename_i c hc
    cases h
    exact .inl ⟨c, hc, rfl⟩
  · rename_i hc
    have hnone : coreReadTree prog (.selector x sel) base = .ok none := by
      unfold coreReadTree coreReadFields
      rw [kernelStructType_eq]
      rfl
    rw [hnone] at h
    obtain ⟨b, hb, h⟩ := bind_ok h
    cases h
    exact .inr ⟨hc, b, hb, rfl⟩

/-! ## What a printed expression contributes -/

section

variable {β : Type} (prog : Program) (aliases : Aliases) (g : CTree → List β)
  (h : Text → Option Ident → List β)

/-- What the address of a receiver contributes. -/
def ArgPart.own : ArgPart → List β
  | .addr id => h id.name (some id)
  | _ => []

/-- What a computed call contributes. -/
def callOwn : Result CTree → List β
  | .ok t => g t
  | .error _ => []

/-- What the form of a call contributes besides its callee and its arguments, given the
tree of the call. -/
def CallForm.own (tree : Result CTree) : CallForm → List β
  | .helper _ parts => callOwn g tree ++ parts.flatMap (ArgPart.own h)
  | .sugar t => t.collect g h
  | .user => callOwn g tree
  | _ => []

/-- The tree of a call in its form. -/
def formTree (fn : Expr) (args : List Expr) : Result CTree :=
  (callForm prog fn args.length).tree (exprTree prog aliases fn) (nodeTrees prog aliases args)

/-- What a printed expression contributes besides its operands. -/
def own : Expr → List β
  | .ident id => (identTree prog aliases id).collect g h
  | .call fn args => (callForm prog fn args.length).own g h (formTree prog aliases fn args)
  | _ => []

end

section

variable {β : Type} {prog : Program} {aliases : Aliases} {g : CTree → List β}
  {h : Text → Option Ident → List β} {b : β}

/-- What is collected from the tree of an expression is what its printed expressions
contribute. -/
def Collects (prog : Program) (aliases : Aliases) (g : CTree → List β)
    (h : Text → Option Ident → List β) (t : CTree) (es : List Expr) : Prop :=
  ∀ b, b ∈ t.collect g h ↔ ∃ e ∈ es, b ∈ own prog aliases g h e

theorem collect_name (hword : ∀ w, h w none = []) (w : Text) : (name w).collect g h = [] := by
  rw [name, collect, hword]

theorem collect_numberTree (hword : ∀ w, h w none = []) (w : Text) :
    (numberTree w).collect g h = [] := by
  unfold numberTree
  split
  · rw [collect, collect_name hword]
  · rw [collect_name hword]

theorem collect_memberTree (hword : ∀ w, h w none = []) (b : CTree) (op f : Text) :
    (memberTree b op f).collect g h = b.collect g h := by
  unfold memberTree
  split
  · split
    · rw [collect, collect, collect_name hword, List.append_nil]
    · rw [collect]
  · rw [collect]

theorem collect_sizeofDeref (t : CTree) : (sizeofDeref t).collect g h = t.collect g h := by
  simp only [sizeofDeref, collect]

theorem Collects.cons {t : CTree} {es : List Expr} {e : Expr} (ht : Collects prog aliases g h t es)
    (he : own prog aliases g h e = []) : Collects prog aliases g h t (e :: es) := by
  intro b
  rw [ht b, List.exists_mem_cons_iff, he]
  simp

theorem Collects.append {s t u : CTree} {es ds : List Expr}
    (hs : Collects prog aliases g h s es) (ht : Collects prog aliases g h t ds)
    (hu : u.collect g h = s.collect g h ++ t.collect g h) :
    Collects prog aliases g h u (es ++ ds) := by
  intro b
  rw [hu, List.mem_append, hs b, ht b]
  simp only [List.mem_append, or_and_right, exists_or]

theorem Collects.of_eq {s t : CTree} {es : List Expr} (hs : Collects prog aliases g h s es)
    (ht : t.collect g h = s.collect g h) : Collects prog aliases g h t es := by
  intro b
  rw [ht, hs b]

/-- What is collected from a part of an argument list. -/
theorem mem_collect_part {args : List (Result CTree)} {each : List (List Expr)}
    {part : ArgPart} {a : CTree} (hword : ∀ w, h w none = [])
    (hargs : ∀ i a, argTree args i = .ok a → Collects prog aliases g h a ((each[i]?).getD []))
    (ha : part.tree args = .ok a) :
    b ∈ a.collect g h ↔ b ∈ part.own h ∨
      ∃ i, part.index = some i ∧ ∃ e ∈ (each[i]?).getD [], b ∈ own prog aliases g h e := by
  have hwrap : ∀ {i : Nat} {wrap : CTree → CTree}, (∀ t, (wrap t).collect g h = t.collect g h) →
      (argTree args i).map wrap = .ok a →
      (b ∈ a.collect g h ↔ ∃ e ∈ (each[i]?).getD [], b ∈ own prog aliases g h e) := by
    intro i wrap hcollect ha
    cases hi : argTree args i with
    | error e => rw [hi] at ha; cases ha
    | ok a' =>
        rw [hi] at ha
        cases ha
        rw [hcollect]
        exact hargs i a' hi b
  cases part with
  | word w =>
      cases ha
      rw [collect_name hword]
      simp [ArgPart.own, ArgPart.index]
  | addr id =>
      cases ha
      simp [addrOf, collect, ArgPart.own, ArgPart.index]
  | arg i =>
      rw [hargs i a ha b]
      simp [ArgPart.own, ArgPart.index]
  | sizeofArg i =>
      rw [hwrap collect_sizeofDeref ha]
      simp [ArgPart.own, ArgPart.index]
  | castArg ty i =>
      rw [hwrap (fun t => by rw [collect]) ha]
      simp [ArgPart.own, ArgPart.index]

/-- What is collected from a list of computed arguments. -/
theorem mem_collectArgs_sequence {rs : List (Result CTree)} {as : List CTree}
    (hrs : sequence rs = .ok as) :
    b ∈ collectArgs g h as ↔ ∃ r ∈ rs, ∃ a, r = .ok a ∧ b ∈ a.collect g h := by
  rw [sequence_ok_iff.mp hrs, mem_collectArgs]
  simp

/-- What is collected from a call in its form. -/
theorem collects_call {fn : Expr} {args : List Expr} {t : CTree} (hword : ∀ w, h w none = [])
    (hfn : ∀ f, exprTree prog aliases fn = .ok f → Collects prog aliases g h f (printed prog fn))
    (hargs : ∀ i a, argTree (nodeTrees prog aliases args) i = .ok a →
      Collects prog aliases g h a (((printedEach prog args)[i]?).getD []))
    (hprints : (callForm prog fn args.length).Prints (exprTree prog aliases fn)
      (nodeTrees prog aliases args) t) :
    Collects prog aliases g h t (printed prog (.call fn args)) := by
  intro b
  have htree : formTree prog aliases fn args = .ok t := hprints.tree
  rw [printed, List.exists_mem_cons_iff, own, htree]
  cases hform : callForm prog fn args.length with
  | cast cType =>
      rw [hform] at hprints
      obtain ⟨a, ha, rfl⟩ := hprints
      have hone := hargs 0 a (by rw [ha]; rfl) b
      simp [collect, hone, CallForm.own, CallForm.printedParts, CallForm.used]
  | bare =>
      rw [hform] at hprints
      have hone := hargs 0 t (by rw [show nodeTrees prog aliases args = [.ok t] from hprints]; rfl) b
      simp [hone, CallForm.own, CallForm.printedParts, CallForm.used]
  | sugar t' =>
      rw [hform] at hprints
      cases hprints
      simp [CallForm.own, CallForm.printedParts, CallForm.used]
  -- a helper collects from the arguments that its parts name, once for each part
  | helper f parts =>
      rw [hform] at hprints
      obtain ⟨as, has, rfl⟩ := hprints
      have hparts : ∀ part ∈ parts, ∃ a, part.tree (nodeTrees prog aliases args) = .ok a := by
        intro part hpart
        have hmem := @List.mem_map_of_mem _ _ parts part (ArgPart.tree (nodeTrees prog aliases args)) hpart
        rw [sequence_ok_iff.mp has] at hmem
        obtain ⟨a, -, ha⟩ := List.mem_map.mp hmem
        exact ⟨a, ha.symm⟩
      have hpart : b ∈ collectArgs g h as ↔ ∃ part ∈ parts, b ∈ part.own h ∨
          ∃ i, part.index = some i ∧
            ∃ e ∈ ((printedEach prog args)[i]?).getD [], b ∈ own prog aliases g h e := by
        rw [mem_collectArgs_sequence has]
        constructor
        · rintro ⟨r, hr, a, rfl, hb⟩
          obtain ⟨part, hmem, hpart⟩ := List.mem_map.mp hr
          exact ⟨part, hmem, (mem_collect_part hword hargs hpart).mp hb⟩
        · rintro ⟨part, hmem, hb⟩
          obtain ⟨a, ha⟩ := hparts part hmem
          refine ⟨_, List.mem_map_of_mem hmem, a, ha, ?_⟩
          exact (mem_collect_part hword hargs ha).mpr hb
      rw [collect, collect_name hword, List.append_nil, List.mem_append, hpart]
      simp only [CallForm.own, callOwn, CallForm.printedParts, CallForm.used, List.mem_append,
        List.mem_flatMap, List.mem_filterMap, List.nil_append, and_or_left, exists_or, or_assoc]
      refine or_congr_right (or_congr_right ?_)
      constructor
      · rintro ⟨part, hmem, i, hi, e, he, hb⟩
        exact ⟨e, ⟨i, ⟨part, hmem, hi⟩, he⟩, hb⟩
      · rintro ⟨e, ⟨i, ⟨part, hmem, hi⟩, he⟩, hb⟩
        exact ⟨part, hmem, i, hi, e, he, hb⟩
  -- a user call collects from the callee and from every argument
  | user =>
      rw [hform] at hprints
      obtain ⟨f, as, hf, has, rfl⟩ := hprints
      have hall : b ∈ collectArgs g h as ↔ ∃ i < args.length,
          ∃ e ∈ ((printedEach prog args)[i]?).getD [], b ∈ own prog aliases g h e := by
        rw [mem_collectArgs_sequence has]
        constructor
        · rintro ⟨r, hr, a, rfl, hb⟩
          obtain ⟨i, hi, hget⟩ := List.getElem_of_mem hr
          rw [length_nodeTrees] at hi
          have ha : argTree (nodeTrees prog aliases args) i = .ok a := by
            simp [argTree, hi, hget]
          exact ⟨i, hi, (hargs i a ha b).mp hb⟩
        · rintro ⟨i, hi, hb⟩
          have hi' : i < as.length := by
            have hlen := congrArg List.length (sequence_ok_iff.mp has)
            rw [length_nodeTrees, List.length_map] at hlen
            omega
          have ha : argTree (nodeTrees prog aliases args) i = .ok as[i] := by
            simp [sequence_ok_iff.mp has, argTree, hi']
          refine ⟨.ok as[i], ?_, as[i], rfl, (hargs i _ ha b).mpr hb⟩
          rw [sequence_ok_iff.mp has]
          exact List.mem_map_of_mem (List.getElem_mem hi')
      rw [collect, List.mem_append, List.mem_append, hfn f hf b, hall]
      simp only [CallForm.own, callOwn, CallForm.printedParts, CallForm.used, List.mem_append,
        List.mem_flatMap, List.mem_range, length_printedEach, or_and_right, exists_or, or_assoc]
      refine or_congr_right (or_congr_right ?_)
      constructor
      · rintro ⟨i, hi, e, he, hb⟩
        exact ⟨e, ⟨i, hi, he⟩, hb⟩
      · rintro ⟨e, ⟨i, hi, he⟩, hb⟩
        exact ⟨i, hi, e, he, hb⟩

mutual
/-- **What is collected from the tree of an expression is what its printed expressions
contribute.** -/
theorem mem_collect_iff (hword : ∀ w, h w none = []) : ∀ (e : Expr) {t : CTree},
    exprTree prog aliases e = .ok t → Collects prog aliases g h t (printed prog e)
  | .basicLit pos kind value, t, ht => by
      cases ht
      intro b
      rw [collect_name hword]
      simp [printed, own]
  | .ident id, t, ht => by
      cases ht
      intro b
      simp [printed, own]
  -- a constant prints a number and collects nothing from its operand
  | .selector x sel, t, ht => by
      rw [printed]
      rcases selectorTree_ok ht with ⟨c, hc, rfl⟩ | ⟨hc, b, hb, rfl⟩
      · rw [hc]
        intro b
        rw [collect_numberTree hword]
        simp [own]
      · rw [hc]
        refine Collects.cons ?_ rfl
        exact (mem_collect_iff hword x hb).of_eq (collect_memberTree hword _ _ _)
  | .unary pos op x, t, ht => by
      obtain ⟨inner, hinner, ht⟩ := bind_ok ht
      split at ht
      · cases ht
        exact ((mem_collect_iff hword x hinner).of_eq rfl).cons rfl
      · cases ht
  | .binary x op y, t, ht => by
      obtain ⟨l, hl, ht⟩ := bind_ok ht
      obtain ⟨r, hr, ht⟩ := bind_ok ht
      cases ht
      rw [printed]
      refine Collects.cons ?_ rfl
      exact (mem_collect_iff hword x hl).append (mem_collect_iff hword y hr) rfl
  | .call fn args, t, ht => by
      have hprints := callTree_prints ht
      rw [length_nodeTrees] at hprints
      exact collects_call hword (fun f hf => mem_collect_iff hword fn hf)
        (collects_each hword args) hprints
  | .paren pos x, t, ht => by
      obtain ⟨inner, hinner, ht⟩ := bind_ok ht
      cases ht
      exact ((mem_collect_iff hword x hinner).of_eq rfl).cons rfl
  | .index x i, t, ht => by
      obtain ⟨base, hbase, ht⟩ := bind_ok ht
      obtain ⟨idx, hidx, ht⟩ := bind_ok ht
      cases ht
      rw [printed]
      refine Collects.cons ?_ rfl
      exact (mem_collect_iff hword x hbase).append (mem_collect_iff hword i hidx) rfl
  | .star pos x, t, ht => by
      obtain ⟨inner, hinner, ht⟩ := bind_ok ht
      cases ht
      exact ((mem_collect_iff hword x hinner).of_eq rfl).cons rfl
  | .other kind pos children, t, ht => by cases ht

/-- The same for each of a list of expressions. -/
theorem collects_each (hword : ∀ w, h w none = []) : ∀ (es : List Expr) (i : Nat) (a : CTree),
    argTree (nodeTrees prog aliases es) i = .ok a →
      Collects prog aliases g h a (((printedEach prog es)[i]?).getD [])
  | [], i, a, ha => by cases ha
  | e :: rest, 0, a, ha => mem_collect_iff hword e ha
  | e :: rest, i + 1, a, ha => collects_each hword rest i a ha
end

/-- A printed call has a tree in its form. -/
def CallOk (prog : Program) (aliases : Aliases) (e : Expr) : Prop :=
  ∀ fn args, e = .call fn args → ∃ t, formTree prog aliases fn args = .ok t

/-- An argument that a call prints has a tree. -/
theorem argTree_of_used {fn : Result CTree} {args : List Expr} {form : CallForm} {t : CTree}
    {i : Nat} (hprints : form.Prints fn (nodeTrees prog aliases args) t)
    (hi : i ∈ form.used args.length) : ∃ a, argTree (nodeTrees prog aliases args) i = .ok a := by
  cases form with
  | cast cType =>
      obtain ⟨a, ha, -⟩ := hprints
      rw [List.mem_singleton.mp hi, ha]
      exact ⟨a, rfl⟩
  | bare =>
      rw [List.mem_singleton.mp hi, show nodeTrees prog aliases args = [.ok t] from hprints]
      exact ⟨t, rfl⟩
  | sugar t' => cases hi
  | helper f parts =>
      obtain ⟨as, has, -⟩ := hprints
      obtain ⟨part, hpart, hi⟩ := List.mem_filterMap.mp hi
      have hmem := @List.mem_map_of_mem _ _ parts part
        (ArgPart.tree (nodeTrees prog aliases args)) hpart
      rw [sequence_ok_iff.mp has] at hmem
      obtain ⟨a, -, ha⟩ := List.mem_map.mp hmem
      cases hi' : argTree (nodeTrees prog aliases args) i with
      | ok a' => exact ⟨a', rfl⟩
      | error f =>
          cases part <;> simp [ArgPart.index] at hi <;> subst hi <;>
            simp [ArgPart.tree, hi', Except.map] at ha
  | user =>
      obtain ⟨f, as, -, has, -⟩ := hprints
      rw [CallForm.used, List.mem_range] at hi
      have hlen := congrArg List.length (sequence_ok_iff.mp has)
      rw [length_nodeTrees, List.length_map] at hlen
      refine ⟨as[i], ?_⟩
      simp [sequence_ok_iff.mp has, argTree, show i < as.length by omega]

theorem callOk_printedParts {fn : Expr} {args : List Expr} {form : CallForm} {t : CTree}
    (hfn : ∀ f, exprTree prog aliases fn = .ok f → ∀ e ∈ printed prog fn, CallOk prog aliases e)
    (hargs : ∀ i a, argTree (nodeTrees prog aliases args) i = .ok a →
      ∀ e ∈ ((printedEach prog args)[i]?).getD [], CallOk prog aliases e)
    (hprints : form.Prints (exprTree prog aliases fn) (nodeTrees prog aliases args) t) :
    ∀ e ∈ form.printedParts (printed prog fn) (printedEach prog args), CallOk prog aliases e := by
  intro e he
  unfold CallForm.printedParts at he
  rcases List.mem_append.mp he with he | he
  · cases form with
    | user =>
        obtain ⟨f, as, hf, -, -⟩ := hprints
        exact hfn f hf e he
    | _ => cases he
  · obtain ⟨i, hi, he⟩ := List.mem_flatMap.mp he
    rw [length_printedEach] at hi
    obtain ⟨a, ha⟩ := argTree_of_used hprints hi
    exact hargs i a ha e he

mutual
/-- Every printed call has a tree in its form. -/
theorem printed_ok : ∀ (e : Expr) {t : CTree}, exprTree prog aliases e = .ok t →
    ∀ e' ∈ printed prog e, CallOk prog aliases e'
  | .basicLit pos kind value, t, ht => by simp [printed, CallOk]
  | .ident id, t, ht => by simp [printed, CallOk]
  | .selector x sel, t, ht => by
      rw [printed]
      rcases selectorTree_ok ht with ⟨c, hc, rfl⟩ | ⟨hc, b, hb, rfl⟩
      · simp [hc, CallOk]
      · rw [hc]
        exact List.forall_mem_cons.mpr ⟨by simp [CallOk], printed_ok x hb⟩
  | .unary pos op x, t, ht => by
      obtain ⟨inner, hinner, -⟩ := bind_ok ht
      exact List.forall_mem_cons.mpr ⟨by simp [CallOk], printed_ok x hinner⟩
  | .binary x op y, t, ht => by
      obtain ⟨l, hl, ht⟩ := bind_ok ht
      obtain ⟨r, hr, -⟩ := bind_ok ht
      refine List.forall_mem_cons.mpr ⟨by simp [CallOk], ?_⟩
      exact List.forall_mem_append.mpr ⟨printed_ok x hl, printed_ok y hr⟩
  | .call fn args, t, ht => by
      have hprints := callTree_prints ht
      rw [length_nodeTrees] at hprints
      refine List.forall_mem_cons.mpr ⟨?_, ?_⟩
      · intro fn' args' heq
        cases heq
        exact ⟨t, hprints.tree⟩
      · exact callOk_printedParts (fun f hf => printed_ok fn hf) (printedEach_ok args) hprints
  | .paren pos x, t, ht => by
      obtain ⟨inner, hinner, -⟩ := bind_ok ht
      exact List.forall_mem_cons.mpr ⟨by simp [CallOk], printed_ok x hinner⟩
  | .index x i, t, ht => by
      obtain ⟨base, hbase, ht⟩ := bind_ok ht
      obtain ⟨idx, hidx, -⟩ := bind_ok ht
      refine List.forall_mem_cons.mpr ⟨by simp [CallOk], ?_⟩
      exact List.forall_mem_append.mpr ⟨printed_ok x hbase, printed_ok i hidx⟩
  | .star pos x, t, ht => by
      obtain ⟨inner, hinner, -⟩ := bind_ok ht
      exact List.forall_mem_cons.mpr ⟨by simp [CallOk], printed_ok x hinner⟩
  | .other kind pos children, t, ht => by cases ht

theorem printedEach_ok : ∀ (es : List Expr) (i : Nat) (a : CTree),
    argTree (nodeTrees prog aliases es) i = .ok a →
      ∀ e ∈ ((printedEach prog es)[i]?).getD [], CallOk prog aliases e
  | [], i, a, ha => by cases ha
  | e :: rest, 0, a, ha => printed_ok e ha
  | e :: rest, i + 1, a, ha => printedEach_ok rest i a ha
end

end

end Gobee
