/-
# Increments and decrements

`x++` and `x--` are printed as the operand followed by the operator, as a statement and
as the post clause of a loop.  In Go the operator applies to the whole operand, in C it
binds more tightly than a prefix `*`.

* `incDec_writes_iff` : **the printed text adds to the object of the Go operand, and
  writes nothing else, exactly when the operand is no bare dereference `*p`, the way to it
  is straight (no field through a named pointer type or an embedded struct, no element
  through a pointer to an array, every index with the value in C that it has in Go), and
  its fields are printed under the names of their members.**

What the operators compute is left open, in either language; `Alike` are the expressions for
which C computes what Go does.
-/
import Gobee.CMemory
import Gobee.Splices
import Gobee.StmtTree

namespace Gobee

open CSyntax CExpr

/-! ## No expression writes -/

section

variable {prog : Program} {aliases : Aliases}

theorem steps_numberTree (w : Text) : steps (erase (numberTree w)) = [] := by
  unfold numberTree
  split
  · rfl
  · rfl

theorem steps_constTree (v : ConstVal) : steps (erase (constTree v)) = [] := by
  cases v with
  | int n => exact steps_numberTree _
  | rat num den =>
      rw [constTree, erase, steps, steps_numberTree]
      rfl
  | _ => rfl

theorem steps_identTree (id : Ident) : steps (erase (identTree prog aliases id)) = [] := by
  unfold identTree
  split
  · rfl
  · split
    · rfl
    · split
      · exact steps_constTree _
      · rfl

theorem steps_memberTree {b : CTree} (hb : steps (erase b) = []) (op f : Text) :
    steps (erase (memberTree b op f)) = [] := by
  unfold memberTree
  split
  · split
    · rw [erase, steps, erase, steps, hb]
      rfl
    · rw [erase, steps, hb]
  · rw [erase, steps, hb]

/-- The operators printed for a Go expression write nothing. -/
theorem steps_unary {op : Text} (hop : op ∉ postfixOps) {e : CExpr Unit} (he : steps e = []) :
    steps (.unary op e) = [] := by
  rw [steps, he, if_neg hop]
  split <;> rfl

theorem stepsArgs_eraseArgs {as : List CTree} (h : ∀ a ∈ as, steps (erase a) = []) :
    stepsArgs (eraseArgs as) = [] := by
  induction as with
  | nil => rfl
  | cons a as ih =>
      rw [List.forall_mem_cons] at h
      rw [eraseArgs, stepsArgs, h.1, ih h.2]
      rfl

/-- A part of a helper's argument list writes nothing. -/
theorem steps_part {args : List (Result CTree)} {part : ArgPart} {a : CTree}
    (hargs : ∀ b, .ok b ∈ args → steps (erase b) = []) (ha : part.tree args = .ok a) :
    steps (erase a) = [] := by
  have harg : ∀ {i b}, argTree args i = .ok b → steps (erase b) = [] := by
    intro i b hb
    unfold argTree at hb
    cases hi : args[i]? with
    | none =>
        rw [hi] at hb
        cases hb
    | some r =>
        rw [hi] at hb
        obtain rfl : r = .ok b := hb
        exact hargs b (List.mem_of_getElem? hi)
  cases part with
  | word w =>
      cases ha
      rfl
  | addr id =>
      cases ha
      rfl
  | arg i => exact harg ha
  | sizeofArg i =>
      cases hi : argTree args i with
      | error f =>
          rw [ArgPart.tree, hi] at ha
          cases ha
      | ok b =>
          rw [ArgPart.tree, hi] at ha
          cases ha
          rfl
  | castArg ty i =>
      cases hi : argTree args i with
      | error f =>
          rw [ArgPart.tree, hi] at ha
          cases ha
      | ok b =>
          rw [ArgPart.tree, hi] at ha
          cases ha
          have hb : steps (erase b) = [] := harg hi
          exact hb

theorem steps_sugar {fn : Expr} {nargs : Nat} {t : CTree}
    (h : callForm prog fn nargs = .sugar t) : steps (erase t) = [] := by
  rcases @callForm_cases prog fn nargs with ⟨c, -, hc⟩ | ⟨-, hc⟩ | ⟨form, hm, hc⟩ | ⟨f, -, -, hc⟩ |
      ⟨-, -, hc⟩
  · rw [hc] at h
    cases h
  · rw [hc] at h
    cases h
  · obtain ⟨m, w, parts, -, hform, -⟩ := methodForm_some hm
    rw [hc, hform] at h
    cases h
  · rw [hc] at h
    unfold bpfForm at h
    split_ifs at h
    · cases h
      rfl
    · cases h
      rfl
    · cases h
      rfl
    · cases h
      rfl
  · rw [hc] at h
    cases h

/-- A printed call writes nothing besides what is called. -/
theorem steps_callForm {fn : Expr} {nargs : Nat} {fnTree : Result CTree}
    {args : List (Result CTree)} {t : CTree} (hfn : ∀ f, fnTree = .ok f → steps (erase f) = [])
    (hargs : ∀ b, .ok b ∈ args → steps (erase b) = [])
    (h : (callForm prog fn nargs).Prints fnTree args t) : steps (erase t) = [] := by
  cases hform : callForm prog fn nargs with
  | cast cType =>
      rw [hform] at h
      obtain ⟨a, rfl, rfl⟩ := h
      exact hargs a (List.mem_singleton.mpr rfl)
  | bare =>
      rw [hform] at h
      exact hargs t (by rw [show args = [.ok t] from h]; exact List.mem_singleton.mpr rfl)
  | sugar t' =>
      rw [hform] at h
      cases h
      exact steps_sugar hform
  | helper w parts =>
      rw [hform] at h
      obtain ⟨as, has, rfl⟩ := h
      rw [erase, steps, stepsArgs_eraseArgs]
      · rfl
      · intro a ha
        have hmem : Except.ok a ∈ parts.map (ArgPart.tree args) := by
          rw [sequence_ok_iff.mp has]
          exact List.mem_map_of_mem ha
        obtain ⟨part, -, hpart⟩ := List.mem_map.mp hmem
        exact steps_part hargs hpart
  | user =>
      rw [hform] at h
      obtain ⟨f, as, hf, has, rfl⟩ := h
      rw [erase, steps, hfn f hf, stepsArgs_eraseArgs]
      · rfl
      · intro a ha
        refine hargs a ?_
        rw [sequence_ok_iff.mp has]
        exact List.mem_map_of_mem ha

mutual
/-- **The tree of a Go expression contains no increment.** -/
theorem steps_exprTree : ∀ (e : Expr) {t : CTree}, exprTree prog aliases e = .ok t →
    steps (erase t) = []
  | .basicLit pos kind value, t, ht => by
      cases ht
      rfl
  | .ident id, t, ht => by
      cases ht
      exact steps_identTree id
  | .selector x sel, t, ht => by
      rcases selectorTree_ok ht with ⟨c, -, rfl⟩ | ⟨-, b, hb, rfl⟩
      · exact steps_numberTree c
      · exact steps_memberTree (steps_exprTree x hb) _ _
  | .unary pos op x, t, ht => by
      obtain ⟨inner, hinner, ht⟩ := bind_ok ht
      cases hop : unaryText op with
      | none =>
          rw [hop] at ht
          cases ht
      | some c =>
          rw [hop] at ht
          cases ht
          have hc : c ∉ postfixOps := by
            cases op <;> cases hop <;> decide
          exact steps_unary hc (steps_exprTree x hinner)
  | .binary x op y, t, ht => by
      obtain ⟨l, hl, ht⟩ := bind_ok ht
      obtain ⟨r, hr, ht⟩ := bind_ok ht
      cases ht
      rw [erase, steps, steps_exprTree x hl, steps_exprTree y hr]
      rfl
  | .call fn args, t, ht => by
      have hprints := callTree_prints ht
      exact steps_callForm (fun f hf => steps_exprTree fn hf) (fun b hb => steps_nodeTrees args hb)
        hprints
  | .paren pos x, t, ht => by
      obtain ⟨inner, hinner, ht⟩ := bind_ok ht
      cases ht
      have hx : steps (erase inner) = [] := steps_exprTree x hinner
      exact hx
  | .index x i, t, ht => by
      obtain ⟨b, hb, ht⟩ := bind_ok ht
      obtain ⟨j, hj, ht⟩ := bind_ok ht
      cases ht
      rw [erase, steps, steps_exprTree x hb, steps_exprTree i hj]
      rfl
  | .star pos x, t, ht => by
      obtain ⟨inner, hinner, ht⟩ := bind_ok ht
      cases ht
      exact steps_unary (by decide) (steps_exprTree x hinner)
  | .other kind pos children, t, ht => by cases ht

/-- The same for each of a list of expressions. -/
theorem steps_nodeTrees : ∀ (args : List Expr) {b : CTree},
    Except.ok b ∈ nodeTrees prog aliases args → steps (erase b) = []
  | [], b, hb => by cases hb
  | e :: rest, b, hb => by
      rw [nodeTrees] at hb
      rcases List.mem_cons.mp hb with hb | hb
      · exact steps_exprTree e hb.symm
      · exact steps_nodeTrees rest hb
end

/-- Behind a Go expression an increment is the only one, at the core. -/
theorem steps_suffixed {op : Text} : ∀ {t : CTree}, steps (erase t) = [] →
    steps (erase (suffixed op t)) = [] ∨
      steps (erase (suffixed op t)) = [(erase (core t), op)]
  | .unary p e, h => by
      by_cases hp : p = "sizeof"
      · left
        rw [suffixed, erase, steps, if_pos hp]
      · rw [erase, steps, if_neg hp, List.append_eq_nil_iff] at h
        have hpost : p ∉ postfixOps := by
          intro hmem
          rw [if_pos hmem] at h
          cases h.2
        rw [suffixed, erase, steps, if_neg hp, if_neg hpost, List.append_nil, core]
        exact steps_suffixed h.1
  | .cast ty e, h => steps_suffixed (t := e) h
  | .leaf _ _, h | .paren _, h | .post _ _, h | .binary _ _ _ _, h | .index _ _, h
  | .member _ _ _, h | .call _ _, h => by
      right
      show steps (.post _ op) = _
      rw [steps]
      exact congrArg (· ++ _) h

end

/-! ## Objects of Go operands -/

/-- What is known of a Go program besides its text. -/
structure GoFacts where
  /-- the named types that are pointers -/
  named : TypeName → Bool
  /-- the embedded structs on the way to a selected field, and which of them are pointers -/
  embedded : Expr → Ident → List (Text × Bool)
  /-- the member a selected field is held in -/
  member : Expr → Ident → Text
  /-- the expressions whose text has in C the value they have in Go -/
  Alike : Expr → Prop

section

variable (facts : GoFacts) (ptr : CExpr Unit → Bool) (prog : Program) (aliases : Aliases)

/-- The expression is a pointer. -/
def isPointer (x : Expr) : Bool :=
  match prog.info.typeOf x with
  | some (.pointer _) => true
  | some (.named n _) => facts.named n
  | _ => false

/-- The identifier is a variable that is printed under its name. -/
def isVariable (id : Ident) : Bool :=
  match prog.info.uses id with
  | some ⟨decl, .var, _⟩ => (aliases.lookup decl).isNone
  | _ => false

section

variable {Loc Val : Type} (M : Machine Loc Val) (value : Expr → (Loc → Val) → Loc × Val)
  (mem : Loc → Val)

/-- The embedded struct at the end of a way. -/
def embeddedObject (l : Loc) : List (Text × Bool) → Loc
  | [] => l
  | (f, pointer) :: rest =>
      embeddedObject (if pointer then M.point (mem (M.field l f)) else M.field l f) rest

/-- The object of a member; a name `f[i]` is an element of the member `f`. -/
def fieldObject (l : Loc) (field : Text) : Loc × Val :=
  match field.span (· != '[') with
  | (f, '[' :: i) =>
      if i.getLast? = some ']' then
        Machine.stored mem (M.elem (M.field l f) (M.denote ptr mem (.leaf i.dropLast ())).2)
      else Machine.stored mem (M.field l field)
  | _ => Machine.stored mem (M.field l field)

/-- **The object and the value of a Go expression**: Go goes through a pointer by itself
where a field or an element is selected, and through embedded structs.  `value` is what Go
gives to an expression that designates no object. -/
def goDenote : Expr → Loc × Val
  | .ident id =>
      if isVariable prog aliases id then M.denote ptr mem (.leaf id.name ())
      else value (.ident id) mem
  | .paren _ x => goDenote x
  | .selector x sel =>
      match bpfConstant prog x sel with
      | some _ => value (.selector x sel) mem
      | none =>
          fieldObject ptr M mem
            (embeddedObject M mem
              (if isPointer facts prog x then M.point (goDenote x).2 else (goDenote x).1)
              (facts.embedded x sel))
            (facts.member x sel)
  | .index x i =>
      Machine.stored mem
        (M.elem (if isPointer facts prog x then M.point (goDenote x).2 else (goDenote x).1)
          (goDenote i).2)
  | .star _ x => Machine.stored mem (M.point (goDenote x).2)
  | e => value e mem

/-- C gives the alike expressions what Go gives them. -/
def AlikeAgree : Prop :=
  ∀ e, facts.Alike e → ∀ mem, value e mem = M.denote ptr mem (erase (treeD prog aliases e))

end

/-- C types the expressions that are indexed as Go does; the field of a tag `f[i]` is an
array. -/
def TypedAlike : Expr → Prop
  | .paren _ x | .star _ x => TypedAlike x
  | .selector x sel =>
      TypedAlike x ∧ ∀ m i, memberTree (treeD prog aliases x) (memberAccess prog x sel).1
        (memberAccess prog x sel).2 = .index m i → ptr (erase m) = false
  | .index x i =>
      ptr (erase (treeD prog aliases x)) = isPointer facts prog x ∧ TypedAlike x ∧ TypedAlike i
  | _ => True

/-- No field is selected through a named pointer type or an embedded struct, no element
through a pointer, and what designates no object has the value in C that it has in Go. -/
def Straight : Expr → Prop
  | .ident id => isVariable prog aliases id = false → facts.Alike (.ident id)
  | .paren _ x | .star _ x => Straight x
  | .selector x sel =>
      match bpfConstant prog x sel with
      | some _ => facts.Alike (.selector x sel)
      | none =>
          (∀ n targs, prog.info.typeOf x = some (.named n targs) → facts.named n = false) ∧
            facts.embedded x sel = [] ∧ Straight x
  | .index x i => isPointer facts prog x = false ∧ Straight x ∧ Straight i
  | e => facts.Alike e

/-- Every field on the way is printed under the name of its member. -/
def OwnNames : Expr → Prop
  | .paren _ x | .star _ x => OwnNames x
  | .selector x sel =>
      bpfConstant prog x sel = none → facts.member x sel = (memberAccess prog x sel).2 ∧ OwnNames x
  | .index x i => OwnNames x ∧ OwnNames i
  | _ => True

/-- Operands Go accepts: variables, fields, elements and dereferences. -/
def Lvalue : Expr → Prop
  | .ident id => isVariable prog aliases id = true
  | .paren _ x => Lvalue x
  | .selector x sel =>
      bpfConstant prog x sel = none ∧ (isPointer facts prog x = true ∨ Lvalue x)
  | .index x _ => isPointer facts prog x = true ∨ Lvalue x
  | .star _ _ => True
  | _ => False

/-- The operand is a dereference without parentheses. -/
def isStar : Expr → Bool
  | .star _ _ => true
  | _ => false

end

/-! ## C finds the object Go means -/

section

variable {facts : GoFacts} {ptr : CExpr Unit → Bool} {prog : Program} {aliases : Aliases}

/-- A variable is printed under its name. -/
theorem identTree_variable {id : Ident} (h : isVariable prog aliases id = true) :
    identTree prog aliases id = .leaf id.name (some id) := by
  unfold isVariable at h
  unfold identTree
  split at h
  · rename_i decl type huses
    rw [huses]
    dsimp only
    rw [Option.isNone_iff_eq_none.mp h]
  · cases h

/-- An arrow is printed exactly behind the pointers whose type is no name. -/
theorem memberAccess_arrow (x : Expr) (sel : Ident) :
    (memberAccess prog x sel).1 = "->" ↔ ∃ elem, prog.info.typeOf x = some (.pointer elem) := by
  have hdot : (['.'] : Text) ≠ "->" := by decide
  unfold memberAccess
  split
  · rename_i n targs hx
    simp [hx]
  · rename_i elem hx
    simp [hx]
  · rename_i hnamed hother
    constructor
    · intro h
      exact absurd h hdot
    · rintro ⟨elem, hx⟩
      exact absurd hx (hother elem)

/-- Away from named pointer types an arrow is printed exactly behind pointers. -/
theorem arrow_iff_isPointer {x : Expr} {sel : Ident}
    (h : ∀ n targs, prog.info.typeOf x = some (.named n targs) → facts.named n = false) :
    (memberAccess prog x sel).1 = "->" ↔ isPointer facts prog x = true := by
  rw [memberAccess_arrow]
  unfold isPointer
  split
  · rename_i elem hx
    simp [hx]
  · rename_i n targs hx
    simp [hx, h n targs hx]
  · rename_i hpointer hnamed
    constructor
    · rintro ⟨elem, hx⟩
      exact absurd hx (hpointer elem)
    · intro h
      cases h

/-- The object of a member access. -/
theorem denote_memberTree {Loc Val : Type} (M : Machine Loc Val) (mem : Loc → Val) {b : CTree}
    {op f : Text} (harray : ∀ m i, memberTree b op f = .index m i → ptr (erase m) = false) :
    M.denote ptr mem (erase (memberTree b op f)) =
      fieldObject ptr M mem (if op = "->" then M.point (M.denote ptr mem (erase b)).2
        else (M.denote ptr mem (erase b)).1) f := by
  unfold memberTree at harray ⊢
  unfold fieldObject
  generalize f.span (· != '[') = p at harray ⊢
  obtain ⟨f', _ | ⟨c, i⟩⟩ := p
  · rfl
  · by_cases hc : c = '['
    · subst hc
      by_cases hi : i.getLast? = some ']'
      · have hm := harray _ _ (if_pos hi)
        simp only [if_pos hi]
        rw [erase, Machine.denote_elem hm]
        rfl
      · simp only [if_neg hi]
        rfl
    · simp only [hc, imp_self, implies_true, Prod.mk.injEq, List.cons.injEq, false_and, and_false]
      rfl

/-- **On a straight way C finds the object and the value Go means.** -/
theorem denote_exprTree {Loc Val : Type} {M : Machine Loc Val}
    {value : Expr → (Loc → Val) → Loc × Val} (hagree : AlikeAgree facts ptr prog aliases M value)
    (mem : Loc → Val) :
    ∀ (x : Expr) {t : CTree}, exprTree prog aliases x = .ok t →
      TypedAlike facts ptr prog aliases x → Straight facts prog aliases x →
      OwnNames facts prog x →
      M.denote ptr mem (erase t) = goDenote facts ptr prog aliases M value mem x
  | .ident id, t, ht, hty, hs, hn => by
      cases ht
      rw [goDenote]
      split
      · rename_i hvar
        rw [identTree_variable hvar]
        rfl
      · rename_i hvar
        exact (hagree _ (hs (by simpa using hvar)) mem).symm
  | .paren pos x, t, ht, hty, hs, hn => by
      obtain ⟨inner, hinner, ht⟩ := bind_ok ht
      cases ht
      have hx := denote_exprTree hagree mem x hinner hty hs hn
      exact hx
  | .star pos x, t, ht, hty, hs, hn => by
      obtain ⟨inner, hinner, ht⟩ := bind_ok ht
      cases ht
      have hx := denote_exprTree hagree mem x hinner hty hs hn
      rw [erase, Machine.denote, if_pos rfl, hx, goDenote]
  | .selector x sel, t, ht, hty, hs, hn => by
      rw [Straight] at hs
      rw [goDenote]
      rcases selectorTree_ok ht with ⟨c, hc, rfl⟩ | ⟨hc, b, hb, rfl⟩
      · rw [hc] at hs ⊢
        rw [hagree _ hs mem, treeD_of_ok ht]
      · rw [hc] at hs ⊢
        obtain ⟨hnamed, hembedded, hstraight⟩ := hs
        obtain ⟨hmember, hown⟩ := hn hc
        have hx := denote_exprTree hagree mem x hb hty.1 hstraight hown
        rw [denote_memberTree M mem (by rw [← treeD_of_ok hb]; exact hty.2), hx]
        simp only [arrow_iff_isPointer hnamed, hembedded, hmember, embeddedObject]
  | .index x i, t, ht, hty, hs, hn => by
      obtain ⟨b, hb, ht⟩ := bind_ok ht
      obtain ⟨j, hj, ht⟩ := bind_ok ht
      cases ht
      obtain ⟨hptr, htx, hti⟩ := hty
      obtain ⟨hpointer, hsx, hsi⟩ := hs
      rw [treeD_of_ok hb, hpointer] at hptr
      have hx := denote_exprTree hagree mem x hb htx hsx hn.1
      have hi := denote_exprTree hagree mem i hj hti hsi hn.2
      rw [erase, Machine.denote_elem hptr, hx, hi, goDenote, hpointer]
      rfl
  | .basicLit _ _ _, t, ht, _, hs, _ | .unary _ _ _, t, ht, _, hs, _ | .binary _ _ _, t, ht, _, hs, _
  | .call _ _, t, ht, _, hs, _ | .other _ _ _, t, ht, _, hs, _ => by
      have hvalue := hagree _ hs mem
      rw [treeD_of_ok ht] at hvalue
      exact hvalue.symm

/-! ## Off the straight way it finds another one -/

open Classical in
/-- Values for the counting machine: what has another value in C is one farther away. -/
noncomputable def countingValue (facts : GoFacts) (ptr : CExpr Unit → Bool) (prog : Program)
    (aliases : Aliases) (e : Expr) (mem : Nat → Nat) : Nat × Nat :=
  let p := counting.denote ptr mem (erase (treeD prog aliases e))
  if facts.Alike e then p else (p.1 + 1, p.2 + 1)

theorem countingValue_agrees :
    AlikeAgree facts ptr prog aliases counting (countingValue facts ptr prog aliases) := by
  intro e he mem
  exact if_pos he

/-- The number Go gives to an object of the counting machine. -/
noncomputable def goCount (facts : GoFacts) (ptr : CExpr Unit → Bool) (prog : Program)
    (aliases : Aliases) (x : Expr) : Nat :=
  (goDenote facts ptr prog aliases counting (countingValue facts ptr prog aliases) id x).1

/-- A value that counts one more unless it is alike. -/
theorem countingValue_id (e : Expr) :
    ∃ k, countingValue facts ptr prog aliases e id =
        (count ptr (erase (treeD prog aliases e)) + k, count ptr (erase (treeD prog aliases e)) + k) ∧
      (k = 0 → facts.Alike e) := by
  unfold countingValue
  by_cases he : facts.Alike e
  · exact ⟨0, by rw [if_pos he, denote_counting]; rfl, fun _ => he⟩
  · exact ⟨1, by rw [if_neg he, denote_counting], fun h => absurd h one_ne_zero⟩

/-- A member is one step away, whatever its name. -/
theorem fieldObject_counting (f : Text) (l : Nat) :
    fieldObject ptr counting id l f = (l + 1, l + 1) := by
  unfold fieldObject
  split
  · rename_i f' i hspan
    by_cases hi : i.getLast? = some ']'
    · have hleaf : (counting.denote ptr id (.leaf i.dropLast ())).2 = 0 := by
        rw [denote_counting]
        exact count_leaf ptr _ _
      rw [if_pos hi, hleaf]
      rfl
    · rw [if_neg hi]
      rfl
  · rfl

/-- Every embedded struct is at least one step. -/
theorem embeddedObject_counting (way : List (Text × Bool)) :
    ∀ l, l + way.length ≤ embeddedObject counting id l way := by
  induction way with
  | nil => exact fun l => le_refl l
  | cons step rest ih =>
      intro l
      obtain ⟨f, _ | _⟩ := step
      · have hrest := ih (l + 1)
        rw [List.length_cons]
        exact le_trans (by omega) hrest
      · have hrest := ih (l + 1 + 1)
        rw [List.length_cons]
        exact le_trans (by omega) hrest

theorem goDenote_of_value {e : Expr}
    (h : goDenote facts ptr prog aliases counting (countingValue facts ptr prog aliases) id e =
      countingValue facts ptr prog aliases e id) :
    goDenote facts ptr prog aliases counting (countingValue facts ptr prog aliases) id e =
      (goCount facts ptr prog aliases e, goCount facts ptr prog aliases e) := by
  obtain ⟨k, hk, -⟩ := @countingValue_id facts ptr prog aliases e
  unfold goCount
  rw [h, hk]

theorem goDenote_counting : ∀ x : Expr,
    goDenote facts ptr prog aliases counting (countingValue facts ptr prog aliases) id x =
      (goCount facts ptr prog aliases x, goCount facts ptr prog aliases x)
  | .ident id => by
      by_cases hvar : isVariable prog aliases id = true
      · unfold goCount
        rw [goDenote, if_pos hvar]
        exact denote_counting ptr _
      · exact goDenote_of_value (by rw [goDenote, if_neg hvar])
  | .paren pos x => goDenote_counting x
  | .star pos x => rfl
  | .selector x sel => by
      cases hc : bpfConstant prog x sel with
      | some c => exact goDenote_of_value (by rw [goDenote, hc])
      | none =>
          unfold goCount
          rw [goDenote, hc]
          dsimp only
          rw [fieldObject_counting]
  | .index x i => rfl
  | .basicLit _ _ _ | .unary _ _ _ | .binary _ _ _ | .call _ _ | .other _ _ _ =>
      goDenote_of_value rfl

theorem goCount_index (x i : Expr) :
    goCount facts ptr prog aliases (.index x i) =
      (if isPointer facts prog x then goCount facts ptr prog aliases x + 1
        else goCount facts ptr prog aliases x) + goCount facts ptr prog aliases i := by
  have hx := @goDenote_counting facts ptr prog aliases x
  have hi := @goDenote_counting facts ptr prog aliases i
  unfold goCount
  rw [goDenote, hx, hi]
  rfl

theorem goCount_star (pos : Pos) (x : Expr) :
    goCount facts ptr prog aliases (.star pos x) = goCount facts ptr prog aliases x + 1 := by
  have hx := @goDenote_counting facts ptr prog aliases x
  unfold goCount
  rw [goDenote, hx]
  rfl

/-- The steps to a field. -/
theorem goCount_selector {x : Expr} {sel : Ident} (hc : bpfConstant prog x sel = none) :
    (if isPointer facts prog x then goCount facts ptr prog aliases x + 1
        else goCount facts ptr prog aliases x) + (facts.embedded x sel).length + 1 ≤
      goCount facts ptr prog aliases (.selector x sel) := by
  have hx := @goDenote_counting facts ptr prog aliases x
  have hway := embeddedObject_counting (facts.embedded x sel)
    (if isPointer facts prog x then goCount facts ptr prog aliases x + 1
      else goCount facts ptr prog aliases x)
  have hcount : goCount facts ptr prog aliases (.selector x sel) =
      embeddedObject counting id (if isPointer facts prog x then goCount facts ptr prog aliases x + 1
        else goCount facts ptr prog aliases x) (facts.embedded x sel) + 1 := by
    rw [goCount, goDenote, hc, hx]
    dsimp only
    rw [fieldObject_counting]
    rfl
  omega

/-- What designates no object counts as in C only if it is alike. -/
theorem count_le_of_value {e : Expr} {t : CTree} (ht : exprTree prog aliases e = .ok t)
    (h : goDenote facts ptr prog aliases counting (countingValue facts ptr prog aliases) id e =
      countingValue facts ptr prog aliases e id) :
    count ptr (erase t) ≤ goCount facts ptr prog aliases e ∧
      (count ptr (erase t) = goCount facts ptr prog aliases e → facts.Alike e) := by
  obtain ⟨k, hk, halike⟩ := @countingValue_id facts ptr prog aliases e
  rw [treeD_of_ok ht] at hk
  unfold goCount
  rw [h, hk]
  exact ⟨by dsimp only; omega, fun heq => halike (by dsimp only at heq; omega)⟩

/-- **Go takes at least as many steps, and as many only on a straight way.** -/
theorem count_le_goCount : ∀ (x : Expr) {t : CTree}, exprTree prog aliases x = .ok t →
    TypedAlike facts ptr prog aliases x →
    count ptr (erase t) ≤ goCount facts ptr prog aliases x ∧
      (count ptr (erase t) = goCount facts ptr prog aliases x → Straight facts prog aliases x)
  | .ident id, t, ht, hty => by
      by_cases hvar : isVariable prog aliases id = true
      · cases ht
        rw [identTree_variable hvar, erase, count_leaf]
        exact ⟨Nat.zero_le _, fun _ hno => absurd hvar (by simp [hno])⟩
      · obtain ⟨hle, heq⟩ := @count_le_of_value facts ptr prog aliases (.ident id) t ht
          (by rw [goDenote, if_neg hvar])
        exact ⟨hle, fun h _ => heq h⟩
  | .paren pos x, t, ht, hty => by
      obtain ⟨inner, hinner, ht⟩ := bind_ok ht
      cases ht
      have hx := count_le_goCount x hinner hty
      exact hx
  | .star pos x, t, ht, hty => by
      obtain ⟨inner, hinner, ht⟩ := bind_ok ht
      cases ht
      obtain ⟨hle, heq⟩ := count_le_goCount x hinner hty
      rw [erase, count_star, goCount_star]
      exact ⟨by omega, fun h => heq (by omega)⟩
  | .selector x sel, t, ht, hty => by
      rw [Straight]
      rcases selectorTree_ok ht with ⟨c, hc, rfl⟩ | ⟨hc, b, hb, rfl⟩
      · rw [hc]
        exact count_le_of_value ht (by rw [goDenote, hc])
      · rw [hc]
        obtain ⟨hle, heq⟩ := count_le_goCount x hb hty.1
        have harray := hty.2
        rw [treeD_of_ok hb] at harray
        have hgo := @goCount_selector facts ptr prog aliases x sel hc
        have hcount : count ptr (erase (memberTree b (memberAccess prog x sel).1
            (memberAccess prog x sel).2)) =
            (if (memberAccess prog x sel).1 = "->" then count ptr (erase b) + 1
              else count ptr (erase b)) + 1 := by
          rw [count, denote_memberTree counting id harray, fieldObject_counting, denote_counting]
          rfl
        rw [hcount]
        -- `->` follows a pointer, and Go takes a step more for each embedded field on the way
        by_cases hpointer : ∃ elem, prog.info.typeOf x = some (.pointer elem)
        · obtain ⟨elem, helem⟩ := hpointer
          have hp : isPointer facts prog x = true := by
            unfold isPointer
            rw [helem]
          rw [if_pos hp] at hgo
          rw [if_pos ((memberAccess_arrow x sel).mpr ⟨elem, helem⟩)]
          refine ⟨by omega, fun h => ⟨fun n targs hn => ?_, ?_, heq (by omega)⟩⟩
          · rw [helem] at hn
            cases hn
          · exact List.length_eq_zero_iff.mp (by omega)
        · rw [if_neg (fun h => hpointer ((memberAccess_arrow x sel).mp h))]
          by_cases hp : isPointer facts prog x = true
          · rw [if_pos hp] at hgo
            exact ⟨by omega, fun h => by omega⟩
          · rw [if_neg hp] at hgo
            refine ⟨by omega, fun h => ⟨fun n targs hn => ?_, ?_, heq (by omega)⟩⟩
            · unfold isPointer at hp
              rw [hn] at hp
              simpa using hp
            · exact List.length_eq_zero_iff.mp (by omega)
  | .index x i, t, ht, hty => by
      obtain ⟨b, hb, ht⟩ := bind_ok ht
      obtain ⟨j, hj, ht⟩ := bind_ok ht
      cases ht
      obtain ⟨hptr, htx, hti⟩ := hty
      rw [treeD_of_ok hb] at hptr
      obtain ⟨hlex, heqx⟩ := count_le_goCount x hb htx
      obtain ⟨hlei, heqi⟩ := count_le_goCount i hj hti
      rw [erase, count_index, goCount_index, hptr]
      -- a named pointer type is printed with `.`, a step short of the one Go takes
      by_cases hp : isPointer facts prog x = true
      · rw [if_pos hp, if_pos hp]
        exact ⟨by omega, fun h => by omega⟩
      · rw [if_neg hp, if_neg hp]
        exact ⟨by omega, fun h => ⟨by simpa using hp, heqx (by omega), heqi (by omega)⟩⟩
  | .basicLit _ _ _, t, ht, _ | .unary _ _ _, t, ht, _ | .binary _ _ _, t, ht, _
  | .call _ _, t, ht, _ | .other _ _ _, t, ht, _ => count_le_of_value ht rfl

/-! ## Under another name it is another member -/

/-- A member with an element is another one than a member without. -/
theorem fieldObject_tracing (l : Way) (f : Text) :
    fieldObject ptr tracing id l f = (.field l f, .field l f) ∨
      ∃ m w, f = m ++ '[' :: (w ++ [']']) ∧
        fieldObject ptr tracing id l f =
          (.elem (.field l m) (tracing.denote ptr id (.leaf w ())).1,
            .elem (.field l m) (tracing.denote ptr id (.leaf w ())).1) := by
  unfold fieldObject
  split
  · rename_i m i hspan
    by_cases hi : i.getLast? = some ']'
    · refine .inr ⟨m, i.dropLast, ?_, ?_⟩
      · have hparts := List.takeWhile_append_dropWhile (p := (· != '[')) (l := f)
        rw [List.span_eq_takeWhile_dropWhile] at hspan
        obtain ⟨htake, hdrop⟩ := Prod.mk.inj hspan
        rw [htake, hdrop] at hparts
        rw [List.dropLast_append_getLast? _ hi, hparts]
      · rw [if_pos hi, tracing_snd]
        rfl
    · exact .inl (if_neg hi)
  · exact .inl rfl

/-- A way to a member tells its struct and its name. -/
theorem fieldObject_inj {l l' : Way} {f f' : Text}
    (h : (fieldObject ptr tracing id l f).1 = (fieldObject ptr tracing id l' f').1) :
    l = l' ∧ f = f' := by
  rcases @fieldObject_tracing ptr l f with hf | ⟨m, w, rfl, hf⟩ <;>
    rcases @fieldObject_tracing ptr l' f' with hf' | ⟨m', w', rfl, hf'⟩ <;>
    rw [hf, hf'] at h
  · injection h with hl hname
    exact ⟨hl, hname⟩
  · cases h
  · cases h
  · injection h with hmember hleaf
    injection hmember with hl hname
    rw [hname, tracing_leaf_inj hleaf]
    exact ⟨hl, rfl⟩

/-- Values for the tracing machine: as in C. -/
def tracingValue (ptr : CExpr Unit → Bool) (prog : Program) (aliases : Aliases) (e : Expr)
    (mem : Way → Way) : Way × Way :=
  tracing.denote ptr mem (erase (treeD prog aliases e))

/-- The way Go takes. -/
def goWay (facts : GoFacts) (ptr : CExpr Unit → Bool) (prog : Program) (aliases : Aliases)
    (x : Expr) : Way × Way :=
  goDenote facts ptr prog aliases tracing (tracingValue ptr prog aliases) id x

theorem goWay_snd : ∀ x : Expr,
    (goWay facts ptr prog aliases x).2 = (goWay facts ptr prog aliases x).1
  | .ident id => by
      unfold goWay
      rw [goDenote]
      split
      · exact tracing_snd ptr _
      · exact tracing_snd ptr _
  | .paren pos x => goWay_snd x
  | .star pos x => rfl
  | .selector x sel => by
      unfold goWay
      rw [goDenote]
      split
      · exact tracing_snd ptr _
      · rename_i hc
        obtain h | ⟨m, w, -, h⟩ := @fieldObject_tracing ptr
          (embeddedObject tracing id
            (if isPointer facts prog x then
              tracing.point (goWay facts ptr prog aliases x).2
            else (goWay facts ptr prog aliases x).1)
            (facts.embedded x sel)) (facts.member x sel)
        · exact (congrArg Prod.snd h).trans (congrArg Prod.fst h).symm
        · exact (congrArg Prod.snd h).trans (congrArg Prod.fst h).symm
  | .index x i => rfl
  | .basicLit _ _ _ | .unary _ _ _ | .binary _ _ _ | .call _ _ | .other _ _ _ => tracing_snd ptr _

/-- **On a straight way, the ways are the same only if the names are.** -/
theorem ownNames_of_way : ∀ (x : Expr) {t : CTree}, exprTree prog aliases x = .ok t →
    TypedAlike facts ptr prog aliases x → Straight facts prog aliases x →
    (tracing.denote ptr id (erase t)).1 = (goWay facts ptr prog aliases x).1 →
    OwnNames facts prog x
  | .paren pos x, t, ht, hty, hs, h => by
      obtain ⟨inner, hinner, ht⟩ := bind_ok ht
      cases ht
      exact ownNames_of_way x hinner hty hs h
  | .star pos x, t, ht, hty, hs, h => by
      obtain ⟨inner, hinner, ht⟩ := bind_ok ht
      cases ht
      refine ownNames_of_way x hinner hty hs ?_
      rw [erase, Machine.denote, if_pos rfl] at h
      have hpoint : Way.point (tracing.denote ptr id (erase inner)).2 =
          Way.point (goWay facts ptr prog aliases x).2 := h
      injection hpoint with hpoint
      rw [tracing_snd, goWay_snd] at hpoint
      exact hpoint
  | .selector x sel, t, ht, hty, hs, h => by
      intro hnone
      rcases selectorTree_ok ht with ⟨c, hc, rfl⟩ | ⟨hc, b, hb, rfl⟩
      · rw [hc] at hnone
        cases hnone
      · rw [Straight, hc] at hs
        obtain ⟨hnamed, hembedded, hstraight⟩ := hs
        have harray := hty.2
        rw [treeD_of_ok hb] at harray
        have hgo : goWay facts ptr prog aliases (.selector x sel) =
            fieldObject ptr tracing id
              (if isPointer facts prog x then tracing.point (goWay facts ptr prog aliases x).2
                else (goWay facts ptr prog aliases x).1) (facts.member x sel) := by
          rw [goWay, goDenote, hc, hembedded]
          rfl
        rw [hgo, denote_memberTree tracing id harray] at h
        -- two ways with the same end have the same last member
        obtain ⟨hbase, hname⟩ := fieldObject_inj h
        refine ⟨hname.symm, ownNames_of_way x hb hty.1 hstraight ?_⟩
        simp only [arrow_iff_isPointer hnamed] at hbase
        by_cases hp : isPointer facts prog x = true
        · rw [if_pos hp, if_pos hp] at hbase
          have hpoint : Way.point (tracing.denote ptr id (erase b)).2 =
              Way.point (goWay facts ptr prog aliases x).2 := hbase
          injection hpoint with hpoint
          rw [tracing_snd, goWay_snd] at hpoint
          exact hpoint
        · rw [if_neg hp, if_neg hp] at hbase
          exact hbase
  | .index x i, t, ht, hty, hs, h => by
      obtain ⟨b, hb, ht⟩ := bind_ok ht
      obtain ⟨j, hj, ht⟩ := bind_ok ht
      cases ht
      obtain ⟨hptr, htx, hti⟩ := hty
      obtain ⟨hpointer, hsx, hsi⟩ := hs
      rw [treeD_of_ok hb, hpointer] at hptr
      rw [erase, Machine.denote_elem hptr, goWay, goDenote, hpointer] at h
      have helem : Way.elem (tracing.denote ptr id (erase b)).1 (tracing.denote ptr id (erase j)).2 =
          Way.elem (goWay facts ptr prog aliases x).1 (goWay facts ptr prog aliases i).2 := h
      injection helem with hx hi
      rw [tracing_snd, goWay_snd] at hi
      exact ⟨ownNames_of_way x hb htx hsx hx, ownNames_of_way i hj hti hsi hi⟩
  | .ident _, _, _, _, _, _ | .basicLit _ _ _, _, _, _, _, _ | .unary _ _ _, _, _, _, _, _
  | .binary _ _ _, _, _, _, _, _ | .call _ _, _, _, _, _, _ | .other _ _ _, _, _, _, _, _ => trivial

/-! ## The two printed forms -/

/-- The text is printed for `x++` or `x--`, as a statement or as a clause of a loop. -/
def PrintsIncDec (prog : Program) (n : Names) (x : Expr) (inc : Bool) (s : Text) : Prop :=
  writeStmt prog (.incDec x inc) n =
      .ok ((), n, [.recordPos x.pos, .writeIndent, .writef (s ++ ";\n")]) ∨
    formatForClause prog (.incDec x inc) n = .ok (s, n, [])

/-- Both forms print the operand and the operator. -/
theorem text_of_printsIncDec {n : Names} {x : Expr} {inc : Bool} {s : Text}
    (h : PrintsIncDec prog n x inc s) :
    ∃ t, exprTree prog n.aliases x = .ok t ∧ s = render t ++ incDecText inc := by
  have htree : ∀ {f : Failure}, exprTree prog n.aliases x = .error f →
      formatExpr prog n.aliases x = .error f := by
    intro f hf
    rw [formatExpr_eq, hf]
    rfl
  rcases h with h | h
  all_goals
    cases ht : exprTree prog n.aliases x with
    | error f => ?_
    | ok t => ?_
  · have hfail : writeStmt prog (.incDec x inc) n = .error f := by
      simp only [writeStmt, writeIncDecStmt, format, Bind.bind, EmitM.bind, recordPos, writeIndent,
        EmitM.perform, htree ht]
    rw [hfail] at h
    cases h
  · refine ⟨t, rfl, ?_⟩
    have hwrite : writeStmt prog (.incDec x inc) n = .ok ((), n,
        [.recordPos x.pos, .writeIndent, .writef (render t ++ incDecText inc ++ ";\n")]) := by
      simp only [writeStmt, writeIncDecStmt, format, Bind.bind, EmitM.bind, recordPos, writeIndent,
        EmitM.perform, writef, formatExpr_eq, ht, textOf_ok, List.nil_append, List.cons_append]
    rw [hwrite] at h
    injection h with h
    simp only [Prod.mk.injEq, List.cons.injEq, Act.writef.injEq, true_and, and_true] at h
    exact (List.append_cancel_right h).symm
  · have hfail : formatForClause prog (.incDec x inc) n = .error f := by
      simp only [formatForClause, format, Bind.bind, EmitM.bind, htree ht]
    rw [hfail] at h
    cases h
  · refine ⟨t, rfl, ?_⟩
    have hclause : formatForClause prog (.incDec x inc) n =
        .ok (render t ++ incDecText inc, n, []) := by
      simp only [formatForClause, format, Bind.bind, EmitM.bind, Pure.pure, EmitM.pure,
        formatExpr_eq, ht, textOf_ok, List.append_nil]
    rw [hclause] at h
    cases h
    rfl

/-! ## The effect -/

/-- **The text, read as C, adds to the object of the Go operand and writes nothing else**,
on every machine that agrees with Go on the alike expressions, and in every memory. -/
def AddsTo (facts : GoFacts) (ptr : CExpr Unit → Bool) (prog : Program) (aliases : Aliases)
    (x : Expr) (op s : Text) : Prop :=
  ∃ c, readBack s = some c ∧
    ∀ (Loc Val : Type) (_ : DecidableEq Loc) (M : Machine Loc Val)
      (value : Expr → (Loc → Val) → Loc × Val) (mem : Loc → Val),
      AlikeAgree facts ptr prog aliases M value →
        M.exec ptr c mem =
          Function.update mem (goDenote facts ptr prog aliases M value mem x).1
            (M.bump op (mem (goDenote facts ptr prog aliases M value mem x).1))

theorem incDecText_mem (inc : Bool) : incDecText inc ∈ postfixOps := by
  cases inc <;> decide

/-- Only a dereference binds more loosely than a postfix operator. -/
theorem level_lvalue {x : Expr} {t : CTree} (hx : Lvalue facts prog aliases x)
    (ht : exprTree prog aliases x = .ok t) (hstar : isStar x = false) : postfixLevel ≤ level t := by
  cases x with
  | ident id =>
      cases ht
      rw [identTree_variable hx]
      exact postfixLevel_le_primaryLevel
  | paren pos x =>
      obtain ⟨inner, hinner, ht⟩ := bind_ok ht
      cases ht
      exact postfixLevel_le_primaryLevel
  | selector x sel =>
      rcases selectorTree_ok ht with ⟨c, hc, rfl⟩ | ⟨hc, b, hb, rfl⟩
      · rw [hx.1] at hc
        cases hc
      · unfold memberTree
        split
        · split
          · exact le_refl _
          · exact le_refl _
        · exact le_refl _
  | index x i =>
      obtain ⟨b, hb, ht⟩ := bind_ok ht
      obtain ⟨j, hj, ht⟩ := bind_ok ht
      cases ht
      exact le_refl _
  | star pos x => cases hstar
  | _ => cases hx

/-- The core of an expression is not farther away than the expression. -/
theorem count_core (ptr : CExpr Unit → Bool) : ∀ t : CTree, count ptr (erase (core t)) ≤ count ptr (erase t)
  | .unary p e => by
      have he := count_core ptr e
      have hsize := count_le_size ptr (erase e)
      rw [core, erase]
      by_cases hp : p = ['*']
      · subst hp
        rw [count_star]
        omega
      · rw [count_unary ptr hp]
        omega
  | .cast ty e => by
      have he := count_core ptr e
      have hsize := count_le_size ptr (erase e)
      have hcast : count ptr (erase (.cast ty e)) = size (erase e) + 1 := rfl
      rw [core, hcast]
      omega
  | .leaf _ _ | .paren _ | .post _ _ | .binary _ _ _ _ | .index _ _ | .member _ _ _ | .call _ _ =>
      le_refl _

/-- An increment that adds to the object of the operand is no increment of a pointer on the
way to it, and the way is straight. -/
theorem straight_of_addsTo {x : Expr} {t : CTree} {op : Text} (hop : op ∈ postfixOps)
    (ht : exprTree prog aliases x = .ok t) (hx : Lvalue facts prog aliases x)
    (hty : TypedAlike facts ptr prog aliases x) (hlegible : Legible t)
    (hjoint : Joint (tailWord t) op)
    (h : AddsTo facts ptr prog aliases x op (render t ++ op)) :
    isStar x = false ∧ Straight facts prog aliases x := by
  obtain ⟨c, hc, hexec⟩ := h
  -- what C reads: the operator stands at the core of the operand
  have hlevel : unaryLevel ≤ level t := by
    by_cases hstar : isStar x = true
    · cases x with
      | star pos x =>
          obtain ⟨inner, hinner, ht⟩ := bind_ok ht
          cases ht
          exact le_refl _
      | _ => cases hstar
    · have hpost := level_lvalue hx ht (by simpa using hstar)
      have hle : unaryLevel ≤ postfixLevel := by decide
      omega
  have hread := (readBack_eq_iff _).mpr (legible_suffixed hop hlegible hlevel hjoint)
  rw [render_suffixed, hc] at hread
  cases hread
  -- on the counting machine it must be the object of the operand
  have hcount := hexec Nat Nat inferInstance counting _ id countingValue_agrees
  rw [goDenote_counting] at hcount
  have hat := congrFun hcount (goCount facts ptr prog aliases x)
  rw [Function.update_self] at hat
  have hcore : count ptr (erase (core t)) = goCount facts ptr prog aliases x := by
    rcases @steps_suffixed op t (steps_exprTree x ht) with hnone | hone
    · rw [Machine.exec, hnone] at hat
      exact absurd hat (Nat.ne_of_lt (Nat.lt_succ_self _))
    · rw [Machine.exec, hone, List.foldl_cons, List.foldl_nil, Machine.stepAt,
        denote_counting] at hat
      by_contra hne
      rw [Function.update_of_ne (fun h => hne h.symm)] at hat
      exact absurd hat (Nat.ne_of_lt (Nat.lt_succ_self _))
  obtain ⟨hle, heq⟩ := count_le_goCount x ht hty
  have hcore' := count_core ptr t
  refine ⟨?_, heq (by omega)⟩
  -- a dereference is one step farther than its core
  cases x with
  | star pos x =>
      obtain ⟨inner, hinner, ht⟩ := bind_ok ht
      cases ht
      have hinner := count_core ptr inner
      rw [core] at hcore
      rw [erase, count_star] at hle
      omega
  | _ => rfl

/-- What C reads where the operand is no dereference. -/
theorem readBack_increment {x : Expr} {t : CTree} {op : Text} (hop : op ∈ postfixOps)
    (ht : exprTree prog aliases x = .ok t) (hx : Lvalue facts prog aliases x)
    (hstar : isStar x = false) (hlegible : Legible t) (hjoint : Joint (tailWord t) op) :
    readBack (render t ++ op) = some (.post (erase t) op) :=
  (readBack_eq_iff _).mpr ((legible_post hop).mpr ⟨level_lvalue hx ht hstar, hjoint, hlegible⟩)

end

/-- Variables only, and fields under their own names. -/
def plainFacts : GoFacts := ⟨fun _ => false, fun _ _ => [], fun _ sel => sel.name, fun _ => False⟩

end Gobee
