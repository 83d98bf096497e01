/-
# Spliced text

The emitter puts expressions together from texts: a prefix operator in front of an operand,
a member behind one, the arguments of a sugar function into the places of a template.  This
module says when the pieces are still read as what they were.

* `formatExpr_tokens_iff` : **an expression has the tokens of its parts exactly when no
  prefix operator runs into its operand and no operand into the operator behind it**;
* `expansion_applies_iff` : **a sugar call applies its helper to the arguments as they stand
  exactly when the arguments are legible and none that is cast or measured is `Compound`.**
-/
import Gobee.ClosedCalls
import Gobee.CLegible

namespace Gobee

open CSyntax CExpr

/-! ## Tokens -/

/-- The tree of an expression that is printed. -/
def treeD (prog : Program) (aliases : Aliases) (x : Expr) : CTree :=
  match exprTree prog aliases x with
  | .ok t => t
  | .error _ => name []

section

variable {prog : Program} {aliases : Aliases} {e : Expr} {s : Text}

theorem treeD_of_ok {t : CTree} (h : exprTree prog aliases e = .ok t) :
    treeD prog aliases e = t := by
  unfold treeD
  rw [h]

theorem exprTree_of_formatExpr (h : formatExpr prog aliases e = .ok s) :
    ∃ t, exprTree prog aliases e = .ok t ∧ s = render t := by
  rw [formatExpr_eq] at h
  cases ht : exprTree prog aliases e with
  | error f =>
      rw [ht] at h
      cases h
  | ok t =>
      rw [ht] at h
      cases h
      exact ⟨t, rfl, rfl⟩

/-- **The text of an expression has the tokens of its parts exactly when the parts stand
apart.** -/
theorem formatExpr_tokens_iff (h : formatExpr prog aliases e = .ok s) :
    ∃ t, exprTree prog aliases e = .ok t ∧ s = render t ∧
      ((∀ p ∈ pieces t false, IsPart p.1) → (lex s = some (partTokens t) ↔ CExpr.Apart t)) := by
  obtain ⟨t, ht, rfl⟩ := exprTree_of_formatExpr h
  exact ⟨t, ht, rfl, lex_render_parts_iff⟩

end

/-- `- -a` is emitted as `--a`, a decrement of `a`. -/
theorem nestedMinus_fuses :
    formatExpr (emptyProgram (paramInfo (.basic .int32))) []
        (.unary 10 .sub (.unary 12 .sub (var 'a' 13))) = .ok "--a" ∧
      lex "--a" = some (["--", "a"] : List Text) ∧
      ∃ t, exprTree (emptyProgram (paramInfo (.basic .int32))) []
          (.unary 10 .sub (.unary 12 .sub (var 'a' 13))) = .ok t ∧
        (∀ p ∈ pieces t false, IsPart p.1) ∧ partTokens t = ["-", "-", "a"] ∧
        lex (render t) ≠ some (partTokens t) := by
  refine ⟨rfl, by decide, _, rfl, by decide, by decide, by decide⟩

/-- `-~a` has the tokens of its parts. -/
theorem minusComplement_apart :
    ∃ t, exprTree (emptyProgram (paramInfo (.basic .int32))) []
          (.unary 10 .sub (.unary 11 .xor (var 'a' 12))) = .ok t ∧
        lex "-~a" = some (partTokens t) := by
  obtain ⟨t, ht, hs, hiff⟩ := @formatExpr_tokens_iff (emptyProgram (paramInfo (.basic .int32))) []
    (.unary 10 .sub (.unary 11 .xor (var 'a' 12))) "-~a" rfl
  refine ⟨t, ht, ?_⟩
  cases ht
  exact (hiff (by decide)).mpr ⟨by decide, by decide, trivial⟩

/-! ## Sugar functions -/

/-- The sugar functions that print their arguments. -/
def splicingFuncs : List Text := ["GetTaskComm", "GetUserString", "GetUserArgv"]

/-- The sugar functions that cast an argument or take its size. -/
def castingFuncs : List Text := ["GetUserString", "GetUserArgv"]

/-- The expression is printed as a binary expression without parentheses: it is one, or
`unsafe.Pointer` of one, or a constant that is a fraction. -/
def Compound (prog : Program) (aliases : Aliases) : Expr → Prop
  | .binary _ _ _ => True
  | .ident id =>
      match identTree prog aliases id with
      | .binary _ _ _ _ => True
      | _ => False
  | .call fn [x] =>
      match callForm prog fn 1 with
      | .bare => Compound prog aliases x
      | _ => False
  | _ => False

section

variable {prog : Program} {aliases : Aliases}

theorem level_numberTree (w : Text) : unaryLevel ≤ level (numberTree w) := by
  unfold numberTree
  split
  · exact le_refl _
  · show unaryLevel ≤ primaryLevel
    decide

theorem level_memberTree (b : CTree) (op f : Text) : unaryLevel ≤ level (memberTree b op f) := by
  have hpostfix : unaryLevel ≤ postfixLevel := by decide
  unfold memberTree
  split
  · split
    · exact hpostfix
    · exact hpostfix
  · exact hpostfix

theorem compound_call {fn : Expr} {args : List Expr} :
    Compound prog aliases (.call fn args) ↔
      ∃ x, args = [x] ∧ callForm prog fn 1 = .bare ∧ Compound prog aliases x := by
  match args with
  | [] => simp [Compound]
  | [x] =>
      rw [Compound]
      cases callForm prog fn 1 <;> simp
  | _ :: _ :: _ => simp [Compound]

/-- Only a compound expression binds more loosely than a prefix operator. -/
theorem level_exprTree : ∀ {t : CTree} (e : Expr), exprTree prog aliases e = .ok t →
    (unaryLevel ≤ level t ↔ ¬ Compound prog aliases e)
  | t, .basicLit pos kind value, ht => by
      cases ht
      simp only [Compound, not_false_eq_true, iff_true]
      show unaryLevel ≤ primaryLevel
      decide
  | t, .ident id, ht => by
      cases ht
      rw [Compound]
      cases hid : identTree prog aliases id with
      | binary sp op l r =>
          have hlt := opLevel_lt_unaryLevel op
          simp only [level, not_true_eq_false, iff_false]
          omega
      | _ =>
          simp only [level, not_false_eq_true, iff_true]
          decide
  | t, .selector x sel, ht => by
      simp only [Compound, not_false_eq_true, iff_true]
      rcases selectorTree_ok ht with ⟨c, hc, rfl⟩ | ⟨hc, b, hb, rfl⟩
      · exact level_numberTree c
      · exact level_memberTree b _ _
  | t, .unary pos op x, ht => by
      obtain ⟨inner, hinner, ht⟩ := bind_ok ht
      split at ht
      · cases ht
        simp [Compound, level]
      · cases ht
  | t, .binary x op y, ht => by
      obtain ⟨l, hl, ht⟩ := bind_ok ht
      obtain ⟨r, hr, ht⟩ := bind_ok ht
      cases ht
      have hlt := opLevel_lt_unaryLevel op.string
      simp only [Compound, not_true_eq_false, iff_false, level]
      omega
  -- of the calls only a spliced argument can be compound
  | t, .call fn args, ht => by
      have hprints := callTree_prints ht
      rw [length_nodeTrees] at hprints
      have hloose : callForm prog fn args.length ≠ .bare → ¬ Compound prog aliases (.call fn args) := by
        rintro hform hcompound
        obtain ⟨x, rfl, hbare, -⟩ := compound_call.mp hcompound
        exact hform hbare
      cases hform : callForm prog fn args.length with
      | cast cType =>
          rw [hform] at hprints
          obtain ⟨a, -, rfl⟩ := hprints
          simp [level, hloose (by rw [hform]; simp)]
      | bare =>
          rw [hform] at hprints
          have hargs : nodeTrees prog aliases args = [.ok t] := hprints
          rcases args with _ | ⟨x, _ | ⟨y, rest⟩⟩
          · cases hargs
          · have hx : exprTree prog aliases x = .ok t := (List.cons.inj hargs).1
            have hcompound : Compound prog aliases (.call fn [x]) ↔ Compound prog aliases x := by
              rw [compound_call]
              constructor
              · rintro ⟨y, hy, -, hcompound⟩
                cases hy
                exact hcompound
              · intro hcompound
                exact ⟨x, rfl, hform, hcompound⟩
            rw [hcompound]
            exact level_exprTree x hx
          · cases (List.cons.inj hargs).2
      | sugar t' =>
          obtain ⟨ty, e, rfl, -⟩ := callForm_sugar hform
          rw [hform] at hprints
          cases hprints
          simp [level, hloose (by rw [hform]; simp)]
      | helper f parts =>
          rw [hform] at hprints
          obtain ⟨as, -, rfl⟩ := hprints
          simp only [level, hloose (by rw [hform]; simp), not_false_eq_true, iff_true]
          decide
      | user =>
          rw [hform] at hprints
          obtain ⟨f, as, -, -, rfl⟩ := hprints
          simp only [level, hloose (by rw [hform]; simp), not_false_eq_true, iff_true]
          decide
  | t, .paren pos x, ht => by
      obtain ⟨inner, hinner, ht⟩ := bind_ok ht
      cases ht
      simp only [Compound, not_false_eq_true, iff_true]
      show unaryLevel ≤ primaryLevel
      decide
  | t, .index x i, ht => by
      obtain ⟨base, hbase, ht⟩ := bind_ok ht
      obtain ⟨idx, hidx, ht⟩ := bind_ok ht
      cases ht
      simp only [Compound, not_false_eq_true, iff_true]
      show unaryLevel ≤ postfixLevel
      decide
  | t, .star pos x, ht => by
      obtain ⟨inner, hinner, ht⟩ := bind_ok ht
      cases ht
      simp [Compound, level]
  | t, .other kind pos children, ht => by cases ht

/-- No method of a map is called like a sugar function. -/
theorem methodForm_sel {fn : Expr} {nargs : Nat} {form : CallForm}
    (h : methodForm prog fn nargs = some form) :
    ∃ m, methodOf prog stripPointer fn = some m ∧ m.sel ∉ sugarFuncs := by
  have hvalue : ∀ {f : Method → Option CallForm}, (methodOf prog id fn).bind f = some form →
      (∀ {m}, f m = some form → m.sel ∉ sugarFuncs) →
        ∃ m, methodOf prog stripPointer fn = some m ∧ m.sel ∉ sugarFuncs := by
    intro f hf hsel
    obtain ⟨m, hm, hform⟩ := Option.bind_eq_some_iff.mp hf
    exact ⟨m, methodOf_stripPointer hm, hsel hform⟩
  unfold methodForm at h
  simp only [Option.or_eq_some_iff] at h
  -- the families in the order in which they are tried
  rcases h with h | ⟨-, h | ⟨-, h | ⟨-, h | ⟨-, h | ⟨-, h | ⟨-, h⟩⟩⟩⟩⟩⟩
  · refine hvalue h fun {m} hf => ?_
    unfold ringbufForm at hf
    split_ifs at hf with htype h₁ h₂ h₃ <;> simp only [*] <;> decide
  · refine hvalue h fun {m} hf => ?_
    unfold queueForm at hf
    split_ifs at hf with htype h₁ h₂ h₃ <;> simp only [*] <;> decide
  · refine hvalue h fun {m} hf => ?_
    unfold progArrayForm at hf
    split_ifs at hf with htype
    rw [htype.1]
    decide
  · refine hvalue h fun {m} hf => ?_
    unfold perfEventArrayForm at hf
    split_ifs at hf with htype
    rw [htype.1]
    decide
  · obtain ⟨⟨m, valType, getFn, deleteFn⟩, hinfo, hf⟩ := Option.bind_eq_some_iff.mp h
    obtain ⟨hm, -⟩ := storageMapInfo_some hinfo
    refine ⟨m, hm, ?_⟩
    unfold storageForm at hf
    split_ifs at hf with h₁ h₂ h₃
    · rw [show m.sel = "GetOrCreate" from h₁]
      decide
    · rw [show m.sel = "Delete" from h₂]
      decide
    · rw [show m.sel = "Get" from h₃]
      decide
  · obtain ⟨m, hm, hf⟩ := Option.bind_eq_some_iff.mp h
    refine ⟨m, hm, ?_⟩
    unfold redirectForm at hf
    split_ifs at hf with htype
    rw [htype.1]
    decide
  · obtain ⟨⟨m, valType, helper⟩, hcall, -⟩ := Option.map_eq_some_iff.mp h
    obtain ⟨hm, hsel, -⟩ := mapMethodCall_some hcall
    refine ⟨m, methodOf_stripPointer hm, ?_⟩
    rcases mapMethod_sel hsel with ⟨hs, -⟩ | ⟨hs, -⟩ | ⟨hs, -⟩ <;> rw [hs] <;> decide

theorem expansionTree_some {f : Text} (hsugar : f ∈ sugarFuncs) (as : List CTree) :
    ∃ expanded, expansionTree f as = some expanded := by
  simp only [sugarFuncs, List.mem_cons, List.not_mem_nil, or_false] at hsugar
  rcases hsugar with rfl | rfl | rfl | rfl | rfl | rfl | rfl <;> exact ⟨_, rfl⟩

/-- A sugar function is expanded, whatever its package looks like otherwise. -/
theorem exprTree_sugar {fn : Expr} {args : List Expr} {f : Text} {t : CTree}
    (hf : bpfFunction prog fn = some f) (hsugar : f ∈ sugarFuncs)
    (ht : exprTree prog aliases (.call fn args) = .ok t) :
    ∃ as, sequence (nodeTrees prog aliases args) = .ok as ∧ expansionTree f as = some (.ok t) := by
  have hbpf := hf
  unfold bpfFunction at hf
  split at hf
  swap
  · cases hf
  rename_i x sel
  split_ifs at hf
  cases hf
  have hcast : isUnsafePointer (.selector x sel) = false := by
    unfold isUnsafePointer
    split
    · rename_i heq
      cases heq
      have hne : sel.name ≠ "Pointer".toList := by
        intro hname
        rw [hname] at hsugar
        exact absurd hsugar (by decide)
      rw [beq_eq_false_iff_ne.mpr hne, Bool.false_and]
    · rfl
  have hmethod : ∀ nargs, methodForm prog (.selector x sel) nargs = none := by
    intro nargs
    cases hm : methodForm prog (.selector x sel) nargs with
    | none => rfl
    | some form =>
        obtain ⟨m, hm, hnot⟩ := methodForm_sel hm
        obtain ⟨id, sel', n, targs, heq, rfl, -⟩ := methodOf_selector hm
        cases heq
        exact absurd hsugar hnot
  have hnone := hmethod (nodeTrees prog aliases args).length
  simp only [methodForm, Option.or_eq_none_iff] at hnone
  obtain ⟨h₁, h₂, h₃, h₄, h₅, h₆, h₇⟩ := hnone
  -- every recogniser before the last but one has nothing to say
  have hskip : ∀ {form : Option CallForm} {r : Result (Option CTree)} {next : Result CTree},
      form = none →
      (∀ {o}, r = .ok o → Recognised (.error .panic) (nodeTrees prog aliases args) form o) →
        orTry r next = .ok t → next = .ok t := by
    intro form r next hform hr h
    rcases orTry_form hr h with ⟨form', hform', -⟩ | ⟨-, h⟩
    · rw [hform] at hform'
      cases hform'
    · exact h
  have hcall : callTree prog (.selector x sel) (nodeTree prog aliases (.selector x sel)).text
      (nodeTrees prog aliases args) = .ok t := ht
  unfold callTree at hcall
  have hcall := hskip rfl conversionTree_form hcall
  have hcall := hskip (by rw [hcast]; rfl) unsafePointerTree_form hcall
  have hcall := hskip h₁ ringbufMethodTree_form hcall
  have hcall := hskip h₂ queueLikeMethodTree_form hcall
  have hcall := hskip h₃ progArrayMethodTree_form hcall
  have hcall := hskip h₄ perfEventArrayMethodTree_form hcall
  have hcall := hskip h₅ storageMethodTree_form hcall
  have hcall := hskip h₆ redirectMapTree_form hcall
  have hcall := hskip h₇ mapTree_form hcall
  have hexpand : ∀ {o}, bpfTree prog (.selector x sel) (nodeTrees prog aliases args) = .ok o →
      ∃ as c, sequence (nodeTrees prog aliases args) = .ok as ∧
        expansionTree sel.name as = some (.ok c) ∧ o = some c := by
    intro o ho
    simp only [bpfTree, hbpf] at ho
    obtain ⟨as, has, ho⟩ := bind_ok ho
    obtain ⟨expanded, he⟩ := expansionTree_some hsugar as
    rw [he] at ho
    obtain ⟨c, hc, ho⟩ := bind_ok ho
    cases ho
    exact ⟨as, c, has, by rw [he, hc], rfl⟩
  rcases orTry_ok hcall with hcall | ⟨hcall, -⟩
  · obtain ⟨as, c, has, he, hc⟩ := hexpand hcall
    cases hc
    exact ⟨as, has, he⟩
  · obtain ⟨as, c, -, -, hc⟩ := hexpand hcall
    cases hc

/-- The types of the templates may stand in a cast. -/
theorem castType_templates : CastType ["__u32"] ∧ CastType ["char", "*"] ∧
    CastType ["const", "char", "*"] ∧ CastType ["const", "char", "*", "const", "*"] := by
  refine ⟨⟨by decide, ?_, _, _, rfl, by decide, by decide⟩, ⟨by decide, ?_, _, _, rfl, by decide, by decide⟩,
    ⟨by decide, ?_, _, _, rfl, by decide, by decide⟩, ⟨by decide, ?_, _, _, rfl, by decide, by decide⟩⟩
  · exact ⟨.inr (by decide), trivial⟩
  · exact ⟨.inl rfl, .inr (by decide), trivial⟩
  · exact ⟨.inl rfl, .inl rfl, .inr (by decide), trivial⟩
  · exact ⟨.inl rfl, .inl rfl, .inr (by decide), .inl rfl, .inr (by decide), trivial⟩

/-- `sizeof(*a)` is legible if `a` is and binds as tightly as a prefix operator. -/
theorem legible_sizeofDeref {a : CTree} :
    Legible (sizeofDeref a) ↔ unaryLevel ≤ level a ∧ Legible a := by
  rw [sizeofDeref, legible_unary (by decide), legible_paren, legible_unary (by decide)]
  constructor
  · rintro ⟨-, -, hlevel, -, ha⟩
    exact ⟨hlevel, ha⟩
  · rintro ⟨hlevel, ha⟩
    have hparen : unaryLevel ≤ primaryLevel := by decide
    have hsizeof : Joint "sizeof" ['('] := by decide
    exact ⟨hparen, hsizeof, hlevel, joint_star ha.fits, ha⟩

theorem legible_name {w : Text} (h : isOperand w = true) : Legible (name w) := legible_leaf h

theorem legible_helper {w : Text} {as : List CTree} (h : isOperand w = true) :
    Legible (.call (name w) as) ↔ ∀ a ∈ as, Legible a := by
  rw [legible_call]
  constructor
  · rintro ⟨-, -, has⟩
    exact has
  · intro has
    exact ⟨by show postfixLevel ≤ primaryLevel; decide, legible_name h, has⟩

/-- The trees of a list of expressions, one by one. -/
theorem forall₂_of_sequence : ∀ {args : List Expr} {as : List CTree},
    sequence (nodeTrees prog aliases args) = .ok as →
      List.Forall₂ (fun e a => exprTree prog aliases e = .ok a) args as
  | [], as, h => by
      cases h
      exact .nil
  | e :: args, as, h => by
      rw [nodeTrees] at h
      obtain ⟨a, as', ha, has', rfl⟩ := sequence_ok_cons.mp h
      exact .cons ha (forall₂_of_sequence has')

/-- Two arguments that are cast or measured. -/
theorem forall_not_compound {args : List Expr} {a b : CTree}
    (has : sequence (nodeTrees prog aliases args) = .ok [a, b]) :
    (∀ e ∈ args, ¬ Compound prog aliases e) ↔ unaryLevel ≤ level a ∧ unaryLevel ≤ level b := by
  cases forall₂_of_sequence has with
  | cons ha hrest =>
      cases hrest with
      | cons hb hnil =>
          cases hnil
          rw [level_exprTree _ ha, level_exprTree _ hb]
          simp

/-- A template without arguments is legible. -/
theorem legible_current {w : Text} (h : isOperand w = true) :
    Legible (.cast ["__u32"] (.paren (nullaryCall w)) : CTree) ∧
      Legible (.cast ["__u32"] (.paren (.binary true ">>" (nullaryCall w) (name "32"))) :
        CTree) := by
  have hparen : unaryLevel ≤ primaryLevel := by decide
  have hcall : Legible (nullaryCall w) := by
    rw [nullaryCall, legible_helper h]
    simp
  have hnumber : Legible (name "32") := legible_name (by decide)
  have hshift : opLevel ">>" ≤ postfixLevel ∧ opLevel ">>" < primaryLevel := by decide
  refine ⟨?_, ?_⟩
  · rw [legible_cast castType_templates.1, legible_paren]
    exact ⟨hparen, hcall⟩
  · rw [legible_cast castType_templates.1, legible_paren]
    refine ⟨hparen, ?_, ⟨hcall.apart, .inl rfl, .inl rfl, hnumber.apart⟩,
      by decide, hshift.1, hshift.2, hcall.fits, hnumber.fits⟩
    rw [toks, List.forall_mem_append, List.forall_mem_cons]
    exact ⟨hcall.tokens, by decide, hnumber.tokens⟩

/-- **A sugar call applies its helper to the arguments as they stand exactly when the
arguments are legible and none that is cast or measured is compound.** -/
theorem expansion_applies_iff {fn : Expr} {args : List Expr} {f s : Text}
    (hf : bpfFunction prog fn = some f) (hsugar : f ∈ sugarFuncs)
    (h : formatExpr prog aliases (.call fn args) = .ok s) :
    ∃ as t, sequence (nodeTrees prog aliases args) = .ok as ∧ expansionTree f as = some (.ok t) ∧
      (readBack s = some (erase t) ↔
        (f ∈ splicingFuncs → ∀ a ∈ as, Legible a) ∧
          (f ∈ castingFuncs → ∀ e ∈ args, ¬ Compound prog aliases e)) := by
  obtain ⟨t, ht, rfl⟩ := exprTree_of_formatExpr h
  obtain ⟨as, has, hexp⟩ := exprTree_sugar hf hsugar ht
  refine ⟨as, t, has, hexp, ?_⟩
  rw [readBack_eq_iff]
  -- a template without arguments asks for nothing
  have hplain : f ∉ splicingFuncs → f ∉ castingFuncs → Legible t →
      (Legible t ↔ (f ∈ splicingFuncs → ∀ a ∈ as, Legible a) ∧
        (f ∈ castingFuncs → ∀ e ∈ args, ¬ Compound prog aliases e)) := by
    intro hs hc hlegible
    simp [hs, hc, hlegible]
  obtain ⟨-, hchar, hconst, hconsts⟩ := castType_templates
  simp only [sugarFuncs, List.mem_cons, List.not_mem_nil, or_false] at hsugar
  rcases hsugar with rfl | rfl | rfl | rfl | rfl | rfl | rfl
  · cases hexp
    exact hplain (by decide) (by decide) (legible_current (by decide)).2
  · cases hexp
    exact hplain (by decide) (by decide) (legible_current (by decide)).1
  · cases hexp
    exact hplain (by decide) (by decide) (legible_current (by decide)).1
  · cases hexp
    exact hplain (by decide) (by decide) (legible_current (by decide)).2
  · match as, hexp with
    | [a], hexp =>
        cases hexp
        have hmem : ("GetTaskComm" : Text) ∈ splicingFuncs := by decide
        have hnot : ("GetTaskComm" : Text) ∉ castingFuncs := by decide
        have hnumber : Legible (name "16") := legible_name (by decide)
        rw [legible_helper (by decide), List.forall_mem_cons, List.forall_mem_singleton]
        constructor
        · rintro ⟨ha, -⟩
          exact ⟨fun _ => List.forall_mem_singleton.mpr ha, fun hc => absurd hc hnot⟩
        · rintro ⟨hall, -⟩
          exact ⟨hall hmem a (List.mem_singleton.mpr rfl), hnumber⟩
  · match as, hexp with
    | [a, b], hexp =>
        cases hexp
        have hmem : ("GetUserString" : Text) ∈ splicingFuncs := by decide
        have hmem' : ("GetUserString" : Text) ∈ castingFuncs := by decide
        rw [legible_helper (by decide), forall_not_compound has, List.forall_mem_cons,
          List.forall_mem_cons, List.forall_mem_singleton, legible_sizeofDeref,
          legible_cast hconst]
        constructor
        · rintro ⟨ha, ⟨hla, -⟩, hlb, hb⟩
          exact ⟨fun _ => List.forall_mem_cons.mpr ⟨ha, List.forall_mem_singleton.mpr hb⟩,
            fun _ => ⟨hla, hlb⟩⟩
        · rintro ⟨hall, hlevels⟩
          obtain ⟨ha, hb⟩ := List.forall_mem_cons.mp (hall hmem)
          have hb' : Legible b := List.forall_mem_singleton.mp hb
          obtain ⟨hla, hlb⟩ := hlevels hmem'
          exact ⟨ha, ⟨hla, ha⟩, hlb, hb'⟩
  · match as, hexp with
    | [a, b], hexp =>
        cases hexp
        have hmem : ("GetUserArgv" : Text) ∈ splicingFuncs := by decide
        have hmem' : ("GetUserArgv" : Text) ∈ castingFuncs := by decide
        rw [legible_helper (by decide), forall_not_compound has, List.forall_mem_cons,
          List.forall_mem_cons, List.forall_mem_singleton, legible_sizeofDeref,
          legible_cast hchar, legible_cast hconsts]
        constructor
        · rintro ⟨⟨-, ha⟩, ⟨hla, -⟩, hlb, hb⟩
          exact ⟨fun _ => List.forall_mem_cons.mpr ⟨ha, List.forall_mem_singleton.mpr hb⟩,
            fun _ => ⟨hla, hlb⟩⟩
        · rintro ⟨hall, hlevels⟩
          obtain ⟨ha, hb⟩ := List.forall_mem_cons.mp (hall hmem)
          have hb' : Legible b := List.forall_mem_singleton.mp hb
          obtain ⟨hla, hlb⟩ := hlevels hmem'
          exact ⟨⟨hla, ha⟩, ⟨hla, ha⟩, hlb, hb'⟩

end

/-! ## An address that is computed -/

/-- The type of the buffer of `GetUserString`. -/
def stringBuffer : GoType := .pointer (.array (.basic .uint8) 128)

/-- The parameters `p *[128]byte` and `a`, `b uint64`, and the package `bpf`. -/
def sugarInfo : Info where
  uses := fun id =>
    if id.name = "bpf" then some ⟨⟨"bpf", 1⟩, .pkgName bpfPkgPath, .basic .invalid⟩
    else if id.name = "GetUserString" then
      some ⟨⟨"GetUserString", 5⟩, .func, .other "func(buf *[128]byte, addr uint64) int64"⟩
    else if id.name = ['p'] then some ⟨⟨['p'], 2⟩, .var, stringBuffer⟩
    else some ⟨⟨id.name, 3⟩, .var, .basic .uint64⟩
  defs := []
  typeOf := fun e =>
    match e with
    | .ident id =>
        if id.name = "bpf" then some (.basic .invalid)
        else if id.name = ['p'] then some stringBuffer
        else some (.basic .uint64)
    | .selector _ _ => some (.other "func(buf *[128]byte, addr uint64) int64")
    | .call _ _ => some (.basic .int64)
    | _ => some (.basic .uint64)
  underlying := fun _ _ => .other

/-- `bpf.GetUserString(p, addr)`. -/
def userString (addr : Expr) : Expr :=
  .call (.selector (.ident ⟨"bpf", 10⟩) ⟨"GetUserString", 14⟩) [var 'p' 28, addr]

/-- The cast of `bpf.GetUserString(p, a + b)` takes the first operand only. -/
theorem userString_splits :
    formatExpr (emptyProgram sugarInfo) [] (userString (.binary (var 'a' 31) .add (var 'b' 35))) =
        .ok "bpf_probe_read_user_str(p, sizeof(*p), (const char *)a + b)" ∧
      ∃ as t, sequence (nodeTrees (emptyProgram sugarInfo) []
          [var 'p' 28, .binary (var 'a' 31) .add (var 'b' 35)]) = .ok as ∧
        expansionTree "GetUserString" as = some (.ok t) ∧
        readBack "bpf_probe_read_user_str(p, sizeof(*p), (const char *)a + b)" ≠
          some (erase t) := by
  refine ⟨rfl, _, _, rfl, rfl, ?_⟩
  have hread : readBack "bpf_probe_read_user_str(p, sizeof(*p), (const char *)a + b)" =
      some (.call (.leaf "bpf_probe_read_user_str" ())
        [.leaf ['p'] (), .unary "sizeof" (.unary ['*'] (.leaf ['p'] ())),
          .binary true ['+'] (.cast ["const", "char", "*"] (.leaf ['a'] ()))
            (.leaf ['b'] ())]) := rfl
  rw [hread]
  simp [erase, eraseArgs, name, sizeofDeref, identTree]

/-- A plain address is cast as a whole. -/
theorem userString_applies :
    ∃ as t, sequence (nodeTrees (emptyProgram sugarInfo) [] [var 'p' 28, var 'a' 31]) = .ok as ∧
      expansionTree "GetUserString" as = some (.ok t) ∧
      readBack "bpf_probe_read_user_str(p, sizeof(*p), (const char *)a)" = some (erase t) := by
  obtain ⟨as, t, has, hexp, hiff⟩ := @expansion_applies_iff (emptyProgram sugarInfo) []
    (.selector (.ident ⟨"bpf", 10⟩) ⟨"GetUserString", 14⟩) [var 'p' 28, var 'a' 31]
    "GetUserString" "bpf_probe_read_user_str(p, sizeof(*p), (const char *)a)" rfl (by decide) rfl
  refine ⟨as, t, has, hexp, hiff.mpr ⟨fun _ => ?_, fun _ => ?_⟩⟩
  · cases has
    exact List.forall_mem_cons.mpr ⟨legible_leaf (by decide),
      List.forall_mem_singleton.mpr (legible_leaf (by decide))⟩
  · exact List.forall_mem_cons.mpr ⟨id, List.forall_mem_singleton.mpr id⟩

end Gobee
