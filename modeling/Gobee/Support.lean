/-
# Support code

Before the definitions `Emit` writes the includes, the license and the static helpers that
`GetUserArgv` needs.  Three scans over the syntax trees decide what of it is written, and
they do not walk what the emitter prints: the scan for `GetUserArgv` and the one for types
of `vmlinux.h` leave out the helpers, the one for the endian helpers also sees calls that
are not printed.

* `emit_parts` : the bodies of the functions stand in the definitions, behind the header, the
  license and the prelude;
* `support_complete_iff` : **the support code fits the emitted functions exactly when the
  scans see what is printed.**
-/
import Gobee.ClosedCalls
import Gobee.EmittedFile

namespace Gobee

open EmitM CSyntax

variable {α β : Type} {prog : Program}

/-! ## The parts of the output -/

/-- An action of a definition: it writes no prelude helper and no include. -/
def Act.Ordinary : Act → Prop
  | .writeRaw _ => False
  | .writeln s => s.head? ≠ some '#'
  | _ => True

/-- All actions are those of definitions. -/
def Ordinary (as : List Act) : Prop := ∀ a ∈ as, a.Ordinary

theorem Ordinary.append {as bs : List Act} (ha : Ordinary as) (hb : Ordinary bs) :
    Ordinary (as ++ bs) := List.forall_mem_append.mpr ⟨ha, hb⟩

theorem Ordinary.cons {a : Act} {as : List Act} (ha : a.Ordinary) (hs : Ordinary as) :
    Ordinary (a :: as) := List.forall_mem_cons.mpr ⟨ha, hs⟩

theorem ordinary_close : Ordinary [.dedent, .writeIndent, .writeln "\x7d"] := by
  simp [Ordinary, Act.Ordinary]

theorem ordinary_line (l : CLine) : Ordinary l.acts := by
  have hline : ∀ s : Text, Ordinary [.writeIndent, .writef s] := by
    simp [Ordinary, Act.Ordinary]
  unfold CLine.acts
  split
  · simp [Ordinary, Act.Ordinary]
  · exact hline _

mutual
theorem ordinary_stmt : ∀ c : CStmt, Ordinary c.acts
  | .simple _ lines => by
      refine Ordinary.cons trivial fun a ha => ?_
      obtain ⟨l, -, hl⟩ := List.mem_flatMap.mp ha
      exact ordinary_line l a hl
  | .block _ body => by
      refine Ordinary.cons trivial (Ordinary.cons trivial ?_)
      refine Ordinary.cons (by simp [Act.Ordinary]) ?_
      exact Ordinary.cons trivial ((ordinary_block body).append ordinary_close)
  | .ite _ _ _ body els => by
      refine Ordinary.cons trivial (Ordinary.cons trivial (Ordinary.cons trivial ?_))
      refine Ordinary.cons trivial ((ordinary_block body).append ?_)
      exact Ordinary.cons trivial (Ordinary.cons trivial (ordinary_else els))
  | .loop _ _ _ _ _ _ _ body => by
      refine Ordinary.cons trivial (Ordinary.cons trivial (Ordinary.cons trivial ?_))
      exact Ordinary.cons trivial ((ordinary_block body).append ordinary_close)

theorem ordinary_else : ∀ e : CElse, Ordinary e.acts
  | .none => Ordinary.cons (by simp [Act.Ordinary]) (by simp [Ordinary])
  | .elseIf _ _ _ body => by
      refine Ordinary.cons trivial (Ordinary.cons trivial (Ordinary.cons trivial ?_))
      exact (ordinary_block body).append ordinary_close
  | .block _ body => by
      refine Ordinary.cons trivial (Ordinary.cons trivial ?_)
      exact (ordinary_block body).append ordinary_close

theorem ordinary_block : ∀ cs : List CStmt, Ordinary (blockActs cs)
  | [] => by simp [blockActs, Ordinary]
  | c :: rest => (ordinary_stmt c).append (ordinary_block rest)
end

/-! ## The definitions are ordinary -/

theorem ordinary_perform {a : Act} (ha : a.Ordinary) : Emits Ordinary (perform a) :=
  Emits.perform (Ordinary.cons ha (by simp [Ordinary]))

theorem ordinary_then {a : Act} {f : Unit → EmitM β} (ha : a.Ordinary)
    (hf : ∀ u, Emits Ordinary (f u)) : Emits Ordinary (perform a >>= f) :=
  Emits.bind (ordinary_perform ha) hf fun _ _ => Ordinary.append

theorem ordinary_bind {m : EmitM α} {f : α → EmitM β} (hm : Emits Ordinary m)
    (hf : ∀ a, Emits Ordinary (f a)) : Emits Ordinary (m >>= f) :=
  Emits.bind hm hf fun _ _ => Ordinary.append

theorem ordinary_lift_then {x : Result α} {f : α → EmitM β} (hf : ∀ a, Emits Ordinary (f a)) :
    Emits Ordinary (lift x >>= f) := Silent.bind (silent_lift x) hf

theorem ordinary_pure (a : α) : Emits Ordinary (pure a : EmitM α) :=
  Emits.pure a (by simp [Ordinary])

theorem ordinary_indented {m : EmitM Unit} (hm : Emits Ordinary m) :
    Emits Ordinary (indented m) :=
  ordinary_then trivial fun _ => ordinary_bind hm fun _ => ordinary_perform trivial

theorem ordinary_forEach {γ : Type} {f : γ → EmitM Unit} (hf : ∀ x, Emits Ordinary (f x))
    (xs : List γ) : Emits Ordinary (forEach f xs) := by
  induction xs with
  | nil => exact ordinary_pure _
  | cons x xs ih => exact ordinary_bind (hf x) fun _ => ih

/-- A closing line and an empty line. -/
theorem ordinary_end {s : Text} (hs : s.head? ≠ some '#') :
    Emits Ordinary (do writeln s; writeln []) :=
  ordinary_then hs fun _ => ordinary_perform (by simp [Act.Ordinary])

theorem ordinary_writeUserType (t : UserTypeDecl) : Emits Ordinary (writeUserType prog t) := by
  refine ordinary_then trivial fun _ => ?_
  have hfields : ∀ fields, Emits Ordinary (writeFields t fields) := by
    intro fields
    induction fields with
    | nil => exact ordinary_pure _
    | cons f fields ih =>
        exact ordinary_then trivial fun _ => ordinary_lift_then fun _ =>
          ordinary_then trivial fun _ => ih
  unfold writeStruct
  split
  · refine ordinary_then trivial fun _ => ordinary_bind (ordinary_indented (hfields _)) fun _ => ?_
    exact ordinary_end (by decide)
  · exact Emits.fail _

theorem ordinary_writeMapEnd (m : MapDecl) : Emits Ordinary (writeMapEnd m) := by
  unfold writeMapEnd
  by_cases hmax : 0 < m.maxEntries
  · simp only [hmax, if_true]
    exact ordinary_then trivial fun _ => ordinary_perform trivial
  · simp only [hmax, if_false]
    exact ordinary_perform trivial

theorem ordinary_writeMapTypes (m : MapDecl) : Emits Ordinary (writeMapTypes m) := by
  unfold writeMapTypes
  split_ifs
  · exact ordinary_writeMapEnd m
  · exact ordinary_lift_then fun _ => ordinary_then trivial fun _ => ordinary_writeMapEnd m
  · refine ordinary_then (by simp [Act.Ordinary]) fun _ => ?_
    exact ordinary_then (by simp [Act.Ordinary]) fun _ => ordinary_writeMapEnd m
  · refine ordinary_then (by simp [Act.Ordinary]) fun _ => ?_
    exact ordinary_then (by simp [Act.Ordinary]) fun _ => ordinary_writeMapEnd m
  · refine ordinary_lift_then fun _ => ordinary_then (by simp [Act.Ordinary]) fun _ => ?_
    refine ordinary_then (by simp [Act.Ordinary]) fun _ => ?_
    exact ordinary_then trivial fun _ => ordinary_perform trivial
  · split
    · exact Emits.fail _
    · exact ordinary_lift_then fun _ => ordinary_lift_then fun _ => ordinary_then trivial fun _ =>
        ordinary_then trivial fun _ => ordinary_writeMapEnd m

theorem ordinary_writeMap (m : MapDecl) : Emits Ordinary (writeMap m) := by
  have hdef : Emits Ordinary (writeMapDef m) :=
    ordinary_lift_then fun _ => ordinary_then (by simp [Act.Ordinary]) fun _ =>
      ordinary_then trivial fun _ => ordinary_writeMapTypes m
  unfold writeMap
  split
  · exact ordinary_then trivial fun _ => hdef
  · exact hdef

theorem ordinary_writeBody (body : Option Body) : Emits Ordinary (writeBody prog body) := by
  intro n r hr
  cases body with
  | none => cases hr
  | some body =>
      obtain ⟨cs, -, hacts⟩ := writeBlock_ok_iff.mp (out_eq_some.mp hr)
      rw [hacts]
      exact ordinary_block cs

theorem ordinary_writeHelper (f : HelperFunc) : Emits Ordinary (writeHelper prog f) :=
  ordinary_then trivial fun _ => ordinary_lift_then fun _ => ordinary_lift_then fun _ =>
    ordinary_then trivial fun _ =>
      ordinary_bind (ordinary_indented (ordinary_writeBody f.decl.body)) fun _ =>
        ordinary_end (by decide)

theorem ordinary_writeProgram (f : ProgramFunc) : Emits Ordinary (writeProgram prog f) :=
  ordinary_then trivial fun _ => ordinary_then trivial fun _ => ordinary_lift_then fun _ =>
    ordinary_then trivial fun _ =>
      ordinary_bind (ordinary_indented (ordinary_writeBody f.decl.body)) fun _ =>
        ordinary_perform (by simp [Act.Ordinary])

theorem ordinary_emitDefs : Emits Ordinary (emitDefs prog) :=
  ordinary_bind (ordinary_forEach ordinary_writeUserType _) fun _ =>
    ordinary_bind (ordinary_forEach ordinary_writeMap _) fun _ =>
      ordinary_bind (ordinary_forEach ordinary_writeHelper _) fun _ =>
        ordinary_forEach ordinary_writeProgram _

/-- The bodies of the functions stand in the definitions. -/
theorem emit_parts {label text : Text} {ms : List SourceMapping}
    (h : emit prog label = .ok (text, ms)) :
    ∃ n defs trees, emitActs prog label ⟨[], 0⟩ = .ok ((), n, supportActs prog label ++ defs) ∧
      text = (Emitter.after prog (supportActs prog label ++ defs)).buf ∧
      functionTrees prog (emittedFuncs prog) ⟨[], 0⟩ = some (trees, n) ∧
      Stand (trees.map blockActs) defs ∧ Ordinary defs := by
  obtain ⟨n, defs, hacts, htext, hout⟩ := emit_defs h
  obtain ⟨trees, htrees, hstand⟩ := bodies_emitDefs _ _ hout
  exact ⟨n, defs, trees, hacts, htext, htrees, hstand, ordinary_emitDefs _ _ hout⟩

/-! ## What the scans see -/

/-- The body of the function contains a call of this function of the `bpf` package. -/
def Contains (prog : Program) (fd : FuncDecl) (f : Text) : Prop :=
  ∃ nd ∈ fd.nodes, calledBpfFunction prog nd = some f

/-- A call of this function of the `bpf` package is printed for the function. -/
def Prints (prog : Program) (fd : FuncDecl) (f : Text) : Prop :=
  ∃ fn args, .expr (.call fn args) ∈ funcNodes prog fd ∧ bpfFunction prog fn = some f

theorem Prints.contains {fd : FuncDecl} {f : Text} (h : Prints prog fd f) :
    Contains prog fd f := by
  obtain ⟨fn, args, hmem, hf⟩ := h
  exact ⟨_, funcNodes_inspect hmem, hf⟩

theorem mem_emittedFuncs {fd : FuncDecl} :
    fd ∈ emittedFuncs prog ↔
      (∃ h ∈ prog.helpers, h.decl = fd) ∨ ∃ p ∈ prog.programs, p.decl = fd := by
  rw [emittedFuncs, List.mem_append, List.mem_map, List.mem_map]

/-- `usesKernelFieldAccess` looks at the parameters of the programs. -/
theorem usesKernelFieldAccess_iff :
    usesKernelFieldAccess prog = true ↔
      ∃ p ∈ prog.programs, ∃ field ∈ fieldsOf p.decl.params,
        requiresVmlinuxParam prog field.type = true := by
  have hselects : ∀ nd, selectsKernelField prog nd = false := by
    intro nd
    unfold selectsKernelField
    split
    · rw [kernelStructType_eq]
      rfl
    · rfl
  simp [usesKernelFieldAccess, hselects]

/-- `usesEndianHelpers` looks at all calls of all functions. -/
theorem usesEndianHelpers_iff :
    usesEndianHelpers prog = true ↔
      ∃ fd ∈ emittedFuncs prog, ∃ f ∈ endianHelperNames, Contains prog fd f := by
  have hmem : ∀ fd, fd ∈ prog.programs.map ProgramFunc.decl ++ prog.helpers.map HelperFunc.decl ↔
      fd ∈ emittedFuncs prog := by
    intro fd
    rw [emittedFuncs, List.mem_append, List.mem_append, or_comm]
  unfold usesEndianHelpers
  rw [List.any_eq_true]
  constructor
  · rintro ⟨fd, hfd, h⟩
    obtain ⟨nd, hnd, h⟩ := List.any_eq_true.mp h
    cases hcall : calledBpfFunction prog nd with
    | none =>
        rw [hcall] at h
        cases h
    | some f =>
        rw [hcall] at h
        exact ⟨fd, (hmem fd).mp hfd, f, of_decide_eq_true h, nd, hnd, hcall⟩
  · rintro ⟨fd, hfd, f, hf, nd, hnd, hcall⟩
    refine ⟨fd, (hmem fd).mpr hfd, List.any_eq_true.mpr ⟨nd, hnd, ?_⟩⟩
    rw [hcall]
    exact decide_eq_true hf

theorem prelude_isSome {f : Text} :
    (bpfPreludeHelpers.lookup f).isSome = true ↔ f = "GetUserArgv" := by
  constructor
  · intro h
    obtain ⟨v, hv⟩ := Option.isSome_iff_exists.mp h
    obtain ⟨l₁, l₂, hrows, -⟩ := List.lookup_eq_some_iff.mp hv
    have hmem : (f, v) ∈ bpfPreludeHelpers := by
      rw [hrows]
      exact List.mem_append_right _ List.mem_cons_self
    exact congrArg Prod.fst (List.mem_singleton.mp hmem)
  · rintro rfl
    rfl

/-- `usedPreludeHelpers` looks at the calls of the programs. -/
theorem mem_usedPreludeHelpers {f : Text} :
    f ∈ usedPreludeHelpers prog ↔
      f = "GetUserArgv" ∧ ∃ p ∈ prog.programs, Contains prog p.decl "GetUserArgv" := by
  unfold usedPreludeHelpers
  rw [List.mem_reverse, List.mem_dedup, List.mem_reverse, List.mem_filter, List.mem_filterMap,
    prelude_isSome]
  constructor
  · rintro ⟨⟨nd, hnd, hcall⟩, rfl⟩
    obtain ⟨p, hp, hnd⟩ := List.mem_flatMap.mp hnd
    exact ⟨rfl, p, hp, nd, hnd, hcall⟩
  · rintro ⟨rfl, p, hp, nd, hnd, hcall⟩
    exact ⟨⟨nd, List.mem_flatMap.mpr ⟨p, hp, hnd⟩, hcall⟩, rfl⟩

theorem nodup_usedPreludeHelpers (prog : Program) : (usedPreludeHelpers prog).Nodup :=
  List.nodup_reverse.mpr (List.nodup_dedup _)

/-- A list without duplicates in which nothing else than `a` stands. -/
theorem eq_nil_or_singleton {γ : Type} {xs : List γ} {a : γ} (hnodup : xs.Nodup)
    (h : ∀ x ∈ xs, x = a) : xs = [] ∨ xs = [a] := by
  match xs, hnodup with
  | [], _ => exact .inl rfl
  | [x], _ => exact .inr (by rw [h x List.mem_cons_self])
  | x :: y :: rest, hnodup =>
      have hx := h x List.mem_cons_self
      have hy := h y (List.mem_cons_of_mem _ List.mem_cons_self)
      rw [hx, hy] at hnodup
      exact absurd List.mem_cons_self (List.nodup_cons.mp hnodup).1

theorem usedPreludeHelpers_cases :
    (usedPreludeHelpers prog = ["GetUserArgv"] ∧
      ∃ p ∈ prog.programs, Contains prog p.decl "GetUserArgv") ∨
    (usedPreludeHelpers prog = [] ∧
      ¬ ∃ p ∈ prog.programs, Contains prog p.decl "GetUserArgv") := by
  have hall : ∀ x ∈ usedPreludeHelpers prog, x = "GetUserArgv" :=
    fun x hx => (mem_usedPreludeHelpers.mp hx).1
  rcases eq_nil_or_singleton (nodup_usedPreludeHelpers prog) hall with h | h
  · refine .inr ⟨h, fun hc => ?_⟩
    have hmem := mem_usedPreludeHelpers.mpr ⟨rfl, hc⟩
    rw [h] at hmem
    cases hmem
  · refine .inl ⟨h, ?_⟩
    have hmem : ("GetUserArgv" : Text) ∈ usedPreludeHelpers prog := by
      rw [h]
      exact List.mem_cons_self
    exact (mem_usedPreludeHelpers.mp hmem).2

/-! ## Helper calls in the output -/

/-- The emitted bodies call a helper of this name. -/
def Calls (trees : List (List CStmt)) (w : Text) : Prop :=
  ∃ cs ∈ trees, ∃ t ∈ blockTrees cs, ∃ as, .call (name w) as ∈ callNodes t

/-- The call is a helper call of this name. -/
def HelperForm (prog : Program) (w : Text) (fn : Expr) (args : List Expr) : Prop :=
  ∃ parts, callForm prog fn args.length = .helper w parts

section

variable {aliases : Aliases} {fn : Expr} {args : List Expr} {w : Text}

/-- A helper call contributes the call of its helper. -/
theorem own_of_helperForm {t : CTree} (hform : HelperForm prog w fn args)
    (ht : formTree prog aliases fn args = .ok t) :
    ∃ as, t = .call (name w) as ∧
      t ∈ own prog aliases (fun c => [c]) (fun _ _ => []) (.call fn args) := by
  obtain ⟨parts, hform⟩ := hform
  have hown : t ∈ own prog aliases (fun c => [c]) (fun _ _ => []) (.call fn args) := by
    rw [own, hform, ht]
    exact List.mem_append_left _ (List.mem_singleton_self t)
  rw [formTree, hform] at ht
  obtain ⟨as, -, rfl⟩ := CallForm.helper_of_tree ht
  exact ⟨as, rfl, hown⟩

/-- Only a helper call contributes a call of a helper, apart from the expansions for the
current task. -/
theorem helperForm_of_own {as : List CTree} (hkeys : OkKeys prog aliases)
    (hcallable : Callable prog fn) (hw : w ∉ currentCallees)
    (h : .call (name w) as ∈ own prog aliases (fun c => [c]) (fun _ _ => []) (.call fn args)) :
    HelperForm prog w fn args := by
  rcases own_call h with ⟨w', hw', heq⟩ | ⟨w', parts, as', hform, heq⟩ | ⟨f, as', -, hf, heq⟩
  · cases heq
    exact absurd hw' hw
  · cases heq
    exact ⟨parts, hform⟩
  · cases heq
    -- the callee of a function of the file keeps the identifier
    rcases callee_leaf hkeys hcallable.literal hcallable.constant hcallable.pointer
        hcallable.object hf with ⟨id, -, hleaf⟩ | ⟨-, hleaf⟩
    · cases hleaf
    · exact absurd rfl (hleaf _ _)

end

/-- The bodies call a helper exactly when a helper call of its name is printed. -/
theorem calls_iff {trees : List (List CStmt)} {w : Text} (hfacts : CallFacts prog)
    (hw : w ∉ currentCallees) (hreserve : w ≠ "bpf_ringbuf_reserve")
    (haccounts : List.Forall₂ (fun fd cs => Accounts prog (fun c => [c]) (fun _ _ => [])
      (OkKeys prog) (blockTrees cs) (funcNodes prog fd)) (emittedFuncs prog) trees) :
    Calls trees w ↔ ∃ fd ∈ emittedFuncs prog, ∃ fn args,
      .expr (.call fn args) ∈ funcNodes prog fd ∧ HelperForm prog w fn args := by
  constructor
  · rintro ⟨cs, hcs, t, ht, as, hcall⟩
    obtain ⟨fd, hfd, occs, hnodes, hoccs, hcollect⟩ := Forall₂.exists_left haccounts hcs
    obtain ⟨⟨aliases, nd⟩, ho, hown⟩ := (hcollect _).mp ⟨t, ht, hcall⟩
    have hnd : nd ∈ funcNodes prog fd := by
      rw [← hnodes]
      exact List.mem_map_of_mem ho
    rcases own_node hown with ⟨buf, valC, rfl, heq⟩ | ⟨fn, args, rfl, hown⟩
    · cases heq
      exact absurd rfl hreserve
    · exact ⟨_, hfd, fn, args, hnd,
        helperForm_of_own (hoccs _ ho).1 (hfacts.callable _ hfd fn args hnd) hw hown⟩
  · rintro ⟨fd, hfd, fn, args, hnd, hform⟩
    obtain ⟨cs, hcs, occs, hnodes, hoccs, hcollect⟩ := Forall₂.exists_right haccounts hfd
    rw [← hnodes] at hnd
    obtain ⟨⟨aliases, nd⟩, ho, heq⟩ := List.mem_map.mp hnd
    cases heq
    obtain ⟨t, ht⟩ := (hoccs _ ho).2 fn args rfl
    obtain ⟨as, rfl, hown⟩ := own_of_helperForm hform ht
    obtain ⟨u, hu, hcall⟩ := (hcollect _).mpr ⟨_, ho, hown⟩
    exact ⟨cs, hcs, u, hu, as, hcall⟩

/-! ## The names of the helpers -/

/-- The name starts with a capital letter, as the names that a package exports do. -/
def Exported (f : Text) : Prop := ∃ c cs, f = c :: cs ∧ isUpperAscii c = true

theorem snakeTail_no_underscore {cs w : Text} (h : snakeTail cs = w) (hw : '_' ∉ w) : cs = w := by
  induction cs generalizing w with
  | nil => exact h
  | cons c cs ih =>
      rw [snakeTail] at h
      split_ifs at h with hc
      · rw [← h] at hw
        exact absurd List.mem_cons_self hw
      · cases w with
        | nil => cases h
        | cons d w =>
            rw [List.cons.injEq] at h
            rw [h.1, ih h.2 fun hm => hw (List.mem_cons_of_mem _ hm)]

theorem toUpper_toLower {c : Char} (h : isUpperAscii c = true) : c.toLower.toUpper = c := by
  have hrange : 65 ≤ c.toNat ∧ c.toNat ≤ 90 := by
    rw [isUpperAscii, Bool.and_eq_true, decide_eq_true_eq, decide_eq_true_eq, Char.le_def,
      Char.le_def, UInt32.le_iff_toNat_le, UInt32.le_iff_toNat_le] at h
    exact h
  obtain ⟨hlo, hhi⟩ := hrange
  rw [← Char.ofNat_toNat c]
  generalize c.toNat = n at hlo hhi
  interval_cases n <;> decide

/-- A capital letter is determined by its small letter. -/
theorem capital_of_toLower {c d : Char} (hc : isUpperAscii c = true) (hd : isUpperAscii d = true)
    (h : c.toLower = d.toLower) : c = d := by
  rw [← toUpper_toLower hc, ← toUpper_toLower hd, h]

/-- Among the exported names the endian helpers have their names for themselves. -/
theorem helperName_endian {f g : Text} (hf : Exported f) (hg : g ∈ endianHelperNames)
    (h : helperName f = helperName g) : f = g := by
  have htable : ∀ row ∈ bpfHelperFuncs, ∀ g ∈ endianHelperNames, row.2 = helperName g →
      row.1 = g := by decide
  cases hlookup : bpfHelperFuncs.lookup f with
  | some v =>
      obtain ⟨l₁, l₂, hrows, -⟩ := List.lookup_eq_some_iff.mp hlookup
      have hmem : (f, v) ∈ bpfHelperFuncs := by
        rw [hrows]
        exact List.mem_append_right _ List.mem_cons_self
      rw [helperName, hlookup] at h
      exact htable _ hmem g hg h
  | none =>
      obtain ⟨c, cs, rfl, hc⟩ := hf
      rw [helperName, hlookup, Option.getD_none, goNameToBpfHelper, goCamelToSnake, if_pos hc] at h
      have hspell : ∀ g ∈ endianHelperNames, ∃ d ds, g = d :: ds ∧ isUpperAscii d = true ∧
          '_' ∉ ds ∧ helperName g = "bpf_" ++ d.toLower :: ds := by
        intro g hg
        simp only [endianHelperNames, List.mem_cons, List.not_mem_nil, or_false] at hg
        rcases hg with rfl | rfl | rfl | rfl <;>
          exact ⟨_, _, rfl, by decide, by decide, by decide⟩
      obtain ⟨d, ds, rfl, hd, hds, hname⟩ := hspell g hg
      rw [hname] at h
      have hcons := List.append_cancel_left h
      rw [List.cons.injEq] at hcons
      rw [capital_of_toLower hc hd hcons.1, snakeTail_no_underscore hcons.2 hds]

/-- No helper is called as the prelude helper is. -/
theorem helperName_ne_argv (f : Text) : helperName f ≠ "gobee_read_user_argv" := by
  have htable : ∀ row ∈ bpfHelperFuncs, row.2 ≠ "gobee_read_user_argv" := by decide
  unfold helperName
  cases hlookup : bpfHelperFuncs.lookup f with
  | some v =>
      obtain ⟨l₁, l₂, hrows, -⟩ := List.lookup_eq_some_iff.mp hlookup
      refine htable (f, v) ?_
      rw [hrows]
      exact List.mem_append_right _ List.mem_cons_self
  | none =>
      intro h
      have hhead := congrArg List.head? h
      cases hhead

/-- What `go/types` and the declarations of the `bpf` package promise about calls, with the
names that are called. -/
structure SupportFacts (prog : Program) : Prop extends CallFacts prog where
  exported : ∀ fd ∈ emittedFuncs prog, ∀ f, Prints prog fd f → Exported f

/-- `GetUserArgv` is the call of the prelude helper. -/
theorem helperForm_argv {fn : Expr} {args : List Expr} (hfacts : CallFacts prog)
    (hpointer : bpfFunction prog fn ≠ some ("Pointer" : Text)) :
    HelperForm prog "gobee_read_user_argv" fn args ↔
      bpfFunction prog fn = some ("GetUserArgv" : Text) := by
  constructor
  · rintro ⟨parts, hform⟩
    rcases callForm_helper hform with ⟨hw, -⟩ | ⟨f, hf, -⟩
    · exact absurd hw (by decide)
    · rw [callForm_bpf hfacts hf hpointer] at hform
      rw [hf]
      rcases @bpfForm_cases args.length f with ⟨-, ty, e, hf', -⟩ | ⟨w, ps, hf', -, -, harg⟩ |
          ⟨-, hf'⟩
      · rw [hf'] at hform
        cases hform
      · rw [hf', CallForm.helper.injEq] at hform
        rw [harg hform.1]
      · rw [hf', CallForm.helper.injEq] at hform
        exact absurd hform.1 (helperName_ne_argv f)
  · intro hf
    exact ⟨_, callForm_bpf hfacts hf hpointer⟩

/-- An endian helper is the call of its function. -/
theorem helperForm_endian {fn : Expr} {args : List Expr} {g : Text} (hfacts : CallFacts prog)
    (hpointer : bpfFunction prog fn ≠ some ("Pointer" : Text))
    (hexported : ∀ f, bpfFunction prog fn = some f → Exported f) (hg : g ∈ endianHelperNames) :
    HelperForm prog (helperName g) fn args ↔ bpfFunction prog fn = some g := by
  have htable : ∀ g ∈ endianHelperNames, helperName g ∉ mapCallees ∧ helperName g ∉ sugarCallees ∧
      g ∉ sugarFuncs := by decide
  obtain ⟨hmap, hsugar, hfunc⟩ := htable g hg
  constructor
  · rintro ⟨parts, hform⟩
    rcases callForm_helper hform with ⟨hw, -⟩ | ⟨f, hf, hw | ⟨-, hname⟩⟩
    · exact absurd hw hmap
    · exact absurd hw hsugar
    · rw [hf, helperName_endian (hexported f hf) hg hname.symm]
  · intro hf
    refine ⟨allArgs args.length, ?_⟩
    rw [callForm_bpf hfacts hf hpointer]
    rcases @bpfForm_cases args.length g with ⟨hmem, -⟩ | ⟨w, parts, -, -, hmem, -⟩ | ⟨-, hform⟩
    · exact absurd hmem hfunc
    · exact absurd hmem hfunc
    · exact hform

/-! ## Complete support code -/

/-- The definition of the prelude helper. -/
def argvDef : Text := (bpfPreludeHelpers.lookup ("GetUserArgv" : Text)).getD []

/-- The lines of the `vmlinux.h` header set. -/
def vmlinuxHeaders : List Act :=
  [.writeln "#include \"vmlinux.h\"", .writeln "#include <bpf/bpf_core_read.h>"]

/-- The named types that a type is built from by pointers, arrays and aliases. -/
def typeNames : GoType → List TypeName
  | .named n _ => [n]
  | .pointer elem => typeNames elem
  | .array elem _ => typeNames elem
  | .typeAlias _ _ actual => typeNames actual
  | _ => []

/-- The type of the `bpf` package stands for one of `vmlinux.h`. -/
def InVmlinux (n : TypeName) : Prop :=
  ∃ info, bpfPackageTypeInfo n = some info ∧
    (info.needsVmlinux = true ∨ info.fieldsCORE = true)

/-- The function has a parameter, a result or an expression of such a type. -/
def UsesVmlinux (prog : Program) (fd : FuncDecl) : Prop :=
  ∃ e t, (.expr e ∈ fd.nodes ∨ ∃ field ∈ fieldsOf fd.params ++ fieldsOf fd.results, field.type = e) ∧
    prog.info.typeOf e = some t ∧ ∃ n ∈ typeNames t, InVmlinux n

/-- The support code fits the emitted functions. -/
structure SupportComplete (prog : Program) (acts : List Act) (trees : List (List CStmt)) :
    Prop where
  /-- the prelude helper is defined once, before the bodies that call it -/
  argv : Calls trees "gobee_read_user_argv" → ∃ pre post, acts = pre ++ .writeRaw argvDef :: post ∧
    .writeRaw argvDef ∉ pre ++ post ∧ Stand (trees.map blockActs) post
  endian : .writeln "#include <bpf/bpf_endian.h>" ∈ acts ↔
    ∃ f ∈ endianHelperNames, Calls trees (helperName f)
  vmlinux : (∃ fd ∈ emittedFuncs prog, UsesVmlinux prog fd) → ∀ a ∈ vmlinuxHeaders, a ∈ acts

/-- The scans see what is printed. -/
structure SupportSeen (prog : Program) : Prop where
  /-- a helper that calls `GetUserArgv` is in the file with a program that does -/
  argv : (∃ h ∈ prog.helpers, Prints prog h.decl "GetUserArgv") →
    ∃ p ∈ prog.programs, Contains prog p.decl "GetUserArgv"
  /-- if there is a call of an endian helper, then one is printed -/
  endian : (∃ fd ∈ emittedFuncs prog, ∃ f ∈ endianHelperNames, Contains prog fd f) →
    ∃ fd ∈ emittedFuncs prog, ∃ f ∈ endianHelperNames, Prints prog fd f
  /-- a type of `vmlinux.h` is in the file with a program on such a type -/
  vmlinux : (∃ fd ∈ emittedFuncs prog, UsesVmlinux prog fd) →
    ∃ p ∈ prog.programs, ∃ field ∈ fieldsOf p.decl.params,
      requiresVmlinuxParam prog field.type = true

section

variable {label : Text} {defs : List Act} {trees : List (List CStmt)}

/-- The includes that depend on the types. -/
def coreLines : Bool → List Text
  | true => ["#include \"vmlinux.h\"", "#include <bpf/bpf_helpers.h>",
      "#include <bpf/bpf_core_read.h>"]
  | false => ["#include <linux/bpf.h>", "#include <bpf/bpf_helpers.h>"]

/-- The include that the endian helpers need. -/
def endianLines : Bool → List Text
  | true => ["#include <bpf/bpf_endian.h>"]
  | false => []

/-- The lines of the header that `writeln` writes. -/
def headerLines (withCoRE withEndian : Bool) : List Text :=
  ("// Code generated by gobee. DO NOT EDIT." : Text) ::
    (coreLines withCoRE ++ (endianLines withEndian ++ [[]]))

theorem writeln_mem_header {s : Text} {withCoRE withEndian : Bool} :
    .writeln s ∈ headerActs label withCoRE withEndian ↔ s ∈ headerLines withCoRE withEndian := by
  cases withCoRE <;> cases withEndian <;>
    simp only [headerActs, headerLines, coreLines, endianLines, Bool.false_eq_true, if_true,
      if_false, List.mem_append, List.mem_cons, List.not_mem_nil, Act.writeln.injEq, reduceCtorEq,
      or_false, false_or, or_assoc]

theorem writeRaw_not_mem_header {s : Text} {withCoRE withEndian : Bool} :
    .writeRaw s ∉ headerActs label withCoRE withEndian := by
  cases withCoRE <;> cases withEndian <;>
    simp only [headerActs, Bool.false_eq_true, if_true, if_false, List.mem_append, List.mem_cons,
      List.not_mem_nil, reduceCtorEq, or_false, not_false_eq_true]

/-- An include stands in the header. -/
theorem include_mem_iff {s : Text} (hdefs : Ordinary defs) (hs : s.head? = some '#') :
    .writeln s ∈ supportActs prog label ++ defs ↔
      s ∈ headerLines (usesKernelFieldAccess prog) (usesEndianHelpers prog) := by
  have hne : s ≠ [] := by
    rintro rfl
    cases hs
  rw [supportActs, List.mem_append, List.mem_append, List.mem_cons, writeln_mem_header]
  constructor
  · rintro ((h | h | h) | h)
    · exact h
    · cases h
    · obtain ⟨f, -, h⟩ := List.mem_flatMap.mp h
      rcases List.mem_cons.mp h with h | h
      · cases h
      · cases List.mem_singleton.mp h
        exact absurd rfl hne
    · exact absurd hs (hdefs _ h)
  · exact fun h => .inl (.inl h)

theorem endian_mem_iff (hdefs : Ordinary defs) :
    .writeln "#include <bpf/bpf_endian.h>" ∈ supportActs prog label ++ defs ↔
      usesEndianHelpers prog = true := by
  rw [include_mem_iff hdefs rfl]
  cases usesKernelFieldAccess prog <;> cases usesEndianHelpers prog <;> decide

theorem vmlinux_mem_iff (hdefs : Ordinary defs) :
    (∀ a ∈ vmlinuxHeaders, a ∈ supportActs prog label ++ defs) ↔
      usesKernelFieldAccess prog = true := by
  rw [vmlinuxHeaders, List.forall_mem_cons, List.forall_mem_singleton, include_mem_iff hdefs rfl,
    include_mem_iff hdefs rfl]
  cases usesKernelFieldAccess prog <;> cases usesEndianHelpers prog <;> decide

theorem argv_defined_iff (hdefs : Ordinary defs) (hstand : Stand (trees.map blockActs) defs) :
    (∃ pre post, supportActs prog label ++ defs = pre ++ .writeRaw argvDef :: post ∧
      .writeRaw argvDef ∉ pre ++ post ∧ Stand (trees.map blockActs) post) ↔
      ∃ p ∈ prog.programs, Contains prog p.decl "GetUserArgv" := by
  have hraw : .writeRaw argvDef ∉ defs := fun h => hdefs _ h
  rcases @usedPreludeHelpers_cases prog with ⟨hused, hcontains⟩ | ⟨hused, hcontains⟩
  · refine iff_of_true ?_ hcontains
    refine ⟨headerActs label (usesKernelFieldAccess prog) (usesEndianHelpers prog) ++
      [.writef ("char _license[] SEC(\"license\") = " ++ quoteWith prog.isPrint prog.license ++ ";\n\n")],
      [.writeln []] ++ defs, ?_, ?_, hstand.append_left _⟩
    · rw [supportActs, hused]
      simp [preludeActs, argvDef]
    · simp only [List.mem_append, List.mem_cons, List.not_mem_nil, reduceCtorEq, false_or, or_false,
        not_or]
      exact ⟨writeRaw_not_mem_header, hraw⟩
  · refine iff_of_false ?_ hcontains
    rintro ⟨pre, post, heq, -⟩
    have hmem : .writeRaw argvDef ∈ supportActs prog label ++ defs := by
      rw [heq]
      exact List.mem_append_right _ List.mem_cons_self
    rw [supportActs, hused] at hmem
    rcases List.mem_append.mp hmem with hmem | hmem
    · rcases List.mem_append.mp hmem with hmem | hmem
      · exact writeRaw_not_mem_header hmem
      · cases List.mem_singleton.mp hmem
    · exact hraw hmem

end

/-- **The support code is complete exactly when the scans see what is printed**: a helper
that prints `GetUserArgv` or uses a type of `vmlinux.h` needs a program that does, and a
call of an endian helper has to be printed somewhere. -/
theorem support_complete_iff {label text : Text} {ms : List SourceMapping}
    (hfacts : SupportFacts prog) (hemit : emit prog label = .ok (text, ms)) :
    ∃ n acts trees, emitActs prog label ⟨[], 0⟩ = .ok ((), n, acts) ∧
      text = (Emitter.after prog acts).buf ∧
      functionTrees prog (emittedFuncs prog) ⟨[], 0⟩ = some (trees, n) ∧
      Stand (trees.map blockActs) acts ∧
      (SupportComplete prog acts trees ↔ SupportSeen prog) := by
  obtain ⟨n, defs, trees, hacts, htext, htrees, hstand, hdefs⟩ := emit_parts hemit
  refine ⟨n, _, trees, hacts, htext, htrees, hstand.append_left _, ?_⟩
  have haccounts := @accounts_functions _ prog (fun c => [c]) (fun _ _ => []) _ _ (fun _ => rfl)
    (okKeys_survives prog) _ _ _ _ (fun fd hfd s hs => ⟨fd, hfd, hs⟩) (by simp [OkKeys]) htrees
  -- a helper is called in the output just when some function prints its Go call
  have hargv : Calls trees "gobee_read_user_argv" ↔
      ∃ fd ∈ emittedFuncs prog, Prints prog fd "GetUserArgv" := by
    rw [calls_iff hfacts.toCallFacts (by decide) (by decide) haccounts]
    refine exists_congr fun fd => and_congr_right fun hfd => ?_
    refine exists_congr fun fn => exists_congr fun args => and_congr_right fun hnd => ?_
    exact helperForm_argv hfacts.toCallFacts (hfacts.noPointer fd hfd fn args hnd)
  have hendian : ∀ f ∈ endianHelperNames, (Calls trees (helperName f) ↔
      ∃ fd ∈ emittedFuncs prog, Prints prog fd f) := by
    intro f hf
    have htable : ∀ f ∈ endianHelperNames, helperName f ∉ currentCallees ∧
        helperName f ≠ "bpf_ringbuf_reserve" := by decide
    rw [calls_iff hfacts.toCallFacts (htable f hf).1 (htable f hf).2 haccounts]
    refine exists_congr fun fd => and_congr_right fun hfd => ?_
    refine exists_congr fun fn => exists_congr fun args => and_congr_right fun hnd => ?_
    exact helperForm_endian hfacts.toCallFacts (hfacts.noPointer fd hfd fn args hnd)
      (fun g hg => hfacts.exported fd hfd g ⟨fn, args, hnd, hg⟩) hf
  constructor
  · rintro ⟨hcargv, hcendian, hcvmlinux⟩
    refine ⟨?_, ?_, ?_⟩
    · rintro ⟨h, hh, hprints⟩
      have hcalls := hargv.mpr ⟨h.decl, mem_emittedFuncs.mpr (.inl ⟨h, hh, rfl⟩), hprints⟩
      exact (argv_defined_iff hdefs hstand).mp (hcargv hcalls)
    · intro hcontains
      have hmem := (@endian_mem_iff prog label _ hdefs).mpr (usesEndianHelpers_iff.mpr hcontains)
      obtain ⟨f, hf, hcalls⟩ := hcendian.mp hmem
      obtain ⟨fd, hfd, hprints⟩ := (hendian f hf).mp hcalls
      exact ⟨fd, hfd, f, hf, hprints⟩
    · intro huses
      exact usesKernelFieldAccess_iff.mp ((vmlinux_mem_iff hdefs).mp (hcvmlinux huses))
  · rintro ⟨hsargv, hsendian, hsvmlinux⟩
    refine ⟨?_, ?_, ?_⟩
    · intro hcalls
      refine (argv_defined_iff hdefs hstand).mpr ?_
      obtain ⟨fd, hfd, hprints⟩ := hargv.mp hcalls
      -- only programs are searched for GetUserArgv; a call in a helper needs the condition
      rcases mem_emittedFuncs.mp hfd with ⟨h, hh, rfl⟩ | ⟨p, hp, rfl⟩
      · exact hsargv ⟨h, hh, hprints⟩
      · exact ⟨p, hp, hprints.contains⟩
    · rw [endian_mem_iff hdefs, usesEndianHelpers_iff]
      constructor
      · intro hcontains
        obtain ⟨fd, hfd, f, hf, hprints⟩ := hsendian hcontains
        exact ⟨f, hf, (hendian f hf).mpr ⟨fd, hfd, hprints⟩⟩
      · rintro ⟨f, hf, hcalls⟩
        obtain ⟨fd, hfd, hprints⟩ := (hendian f hf).mp hcalls
        exact ⟨fd, hfd, f, hf, hprints.contains⟩
    · intro huses
      exact (vmlinux_mem_iff hdefs).mpr (usesKernelFieldAccess_iff.mpr (hsvmlinux huses))

/-! ## A prelude helper that is missing -/

/-- `func fill(e *Event, argv uint64) { bpf.GetUserArgv(&e.Argv, argv) }`. -/
def fillDecl : FuncDecl where
  pos := 80
  name := ⟨"fill", 85⟩
  recv := none
  typeParams := none
  params := some ⟨89, [⟨[⟨['e'], 90⟩], .star 92 (.ident ⟨"Event", 93⟩)⟩,
    ⟨[⟨"argv", 100⟩], .ident ⟨"uint64", 105⟩⟩]⟩
  results := none
  body := some ⟨113, [.expr (.call (.selector (.ident ⟨"bpf", 115⟩) ⟨"GetUserArgv", 119⟩)
    [.unary 131 .and (.selector (.ident ⟨['e'], 132⟩) ⟨"Argv", 134⟩), .ident ⟨"argv", 140⟩])], 146⟩

/-- `OnExec`, which calls `fill(&ev, ctx.Argv)` on a local variable `ev`. -/
def onExecDecl : FuncDecl where
  pos := 200
  name := ⟨"OnExec", 205⟩
  recv := none
  typeParams := none
  params := some ⟨211, [⟨[⟨"ctx", 212⟩],
    .star 216 (.selector (.ident ⟨"bpf", 217⟩) ⟨"ExecveEnterCtx", 221⟩)⟩]⟩
  results := some ⟨237, [⟨[], .selector (.ident ⟨"bpf", 237⟩) ⟨"TpReturn", 241⟩⟩]⟩
  body := some ⟨250,
    [.decl 252 .var [⟨[⟨"ev", 256⟩], some (.ident ⟨"Event", 259⟩), []⟩],
      .expr (.call (.ident ⟨"fill", 266⟩) [.unary 271 .and (.ident ⟨"ev", 272⟩),
        .selector (.ident ⟨"ctx", 276⟩) ⟨"Argv", 280⟩]),
      .ret 287 [.selector (.ident ⟨"bpf", 294⟩) ⟨"TpOk", 298⟩]], 303⟩

/-- The types of the names in `fill` and `OnExec`. -/
def argvTypes : List (Text × GoType) :=
  [("Event", .named ⟨some "main", "Event"⟩ []), (['e'], .pointer (.named ⟨some "main", "Event"⟩ [])),
    ("uint64", .basic .uint64), ("argv", .basic .uint64), ("ev", .named ⟨some "main", "Event"⟩ []),
    ("ctx", .pointer (.named ⟨some bpfPkgPath, "ExecveEnterCtx"⟩ []))]

/-- A file with `fill` and `OnExec`. -/
def argvProgram : Program where
  position := fun p => ⟨"x.go", p, 1⟩
  imports := [⟨20, "\"github.com/boratanrikulu/gobee/bpf\"", some bpfPkgPath⟩]
  info :=
    { uses := fun id =>
        if id.name = "bpf" then some ⟨⟨"bpf", 20⟩, .pkgName bpfPkgPath, .basic .invalid⟩
        else if id.name = "fill" then some ⟨⟨"fill", 85⟩, .func, .other "func(*Event, uint64)"⟩
        else none
      defs := []
      typeOf := fun e =>
        match e with
        | .ident id => argvTypes.lookup id.name
        | .star _ (.ident _) => some (.pointer (.named ⟨some "main", "Event"⟩ []))
        | .star _ _ => some (.pointer (.named ⟨some bpfPkgPath, "ExecveEnterCtx"⟩ []))
        | .selector _ _ => some (.named ⟨some bpfPkgPath, "TpReturn"⟩ [])
        | _ => none
      underlying := fun n _ =>
        if n.name = "Event" then .struct [⟨"Argv", .array (.basic .uint8) 256, []⟩]
        else if n.name = "ExecveEnterCtx" then
          .struct [⟨"Filename", .basic .uint64, "bpf:\"args[0]\""⟩,
            ⟨"Argv", .basic .uint64, "bpf:\"args[1]\""⟩, ⟨"Envp", .basic .uint64, "bpf:\"args[2]\""⟩]
        else .other }
  license := "GPL"
  maps := []
  programs := [⟨"OnExec", "tracepoint/syscalls/sys_enter_execve", ⟨"x.go", 200, 1⟩, onExecDecl⟩]
  helpers := [⟨"fill", ⟨"x.go", 80, 1⟩, fillDecl⟩]
  types := [⟨"Event", ⟨"x.go", 60, 1⟩, ⟨some "main", "Event"⟩, 60⟩]
  consts := []

/-- The scan for `GetUserArgv` finds nothing in `OnExec`. -/
theorem argvProgram_unseen :
    ¬ ∃ p ∈ argvProgram.programs, Contains argvProgram p.decl "GetUserArgv" := by
  intro h
  have hmem := mem_usedPreludeHelpers.mpr ⟨rfl, h⟩
  have hnone : usedPreludeHelpers argvProgram = [] := rfl
  rw [hnone] at hmem
  cases hmem

/-- The prelude helper that `fill` calls is not defined. -/
theorem argvProgram_undefined :
    ∃ text ms n acts trees, validate argvProgram = [] ∧
      emit argvProgram "x.go" = .ok (text, ms) ∧
      emitActs argvProgram "x.go" ⟨[], 0⟩ = .ok ((), n, acts) ∧
      functionTrees argvProgram (emittedFuncs argvProgram) ⟨[], 0⟩ = some (trees, n) ∧
      Calls trees "gobee_read_user_argv" ∧ ¬ SupportComplete argvProgram acts trees := by
  obtain ⟨n, defs, trees, hacts, -, htrees, hstand, hdefs⟩ :=
    @emit_parts argvProgram "x.go" _ _ rfl
  have hcalls : Calls trees "gobee_read_user_argv" := by
    cases htrees
    exact ⟨_, List.mem_cons_self, _, List.mem_cons_self, _, List.mem_singleton_self _⟩
  refine ⟨_, _, n, _, trees, validate_eq_nil.mpr rfl, rfl, hacts, htrees, hcalls, fun h => ?_⟩
  exact argvProgram_unseen ((argv_defined_iff hdefs hstand).mp (h.argv hcalls))

/-- The support code of `RememberUid` on a hash map is complete. -/
theorem forgetProgram_complete :
    ∃ n acts trees, emitActs forgetProgram "x.go" ⟨[], 0⟩ = .ok ((), n, acts) ∧
      functionTrees forgetProgram (emittedFuncs forgetProgram) ⟨[], 0⟩ = some (trees, n) ∧
      SupportComplete forgetProgram acts trees := by
  have hfacts : SupportFacts forgetProgram := by
    refine ⟨forgetProgram_facts.toCallFacts, ?_⟩
    rintro fd hfd f ⟨fn, args, hnd, hf⟩
    rcases forgetProgram_calls hfd hnd with ⟨rfl, -⟩ | ⟨rfl, -⟩
    · cases hf
      exact ⟨_, _, rfl, rfl⟩
    · cases hf
  have hseen : SupportSeen forgetProgram := by
    refine ⟨?_, ?_, ?_⟩
    · rintro ⟨h, hh, -⟩
      cases hh
    · intro h
      have hnone : usesEndianHelpers forgetProgram = false := rfl
      rw [usesEndianHelpers_iff.mpr h] at hnone
      cases hnone
    · intro _
      exact usesKernelFieldAccess_iff.mp rfl
  obtain ⟨n, acts, trees, hacts, -, htrees, -, hiff⟩ :=
    @support_complete_iff forgetProgram "x.go" _ _ hfacts rfl
  exact ⟨n, acts, trees, hacts, htrees, hiff.mpr hseen⟩

end Gobee
