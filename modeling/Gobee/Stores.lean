/-
# Go and C side by side

A run of an emitted function goes along the source and along the emitted code at once.  Each
language has a memory of its own, and what a point does to the two is left open: a `Machine`
says only what both languages promise, that a variable keeps its value where it is not
written and no pointer to it exists, and what a comma-ok statement does.

* `along_of_step` : **what every point keeps of the variables in scope holds at every point
  of a run.**
-/
import Gobee.CommaOk
import Gobee.StmtOrder

namespace Gobee

/-! ## The return type -/

/-- The C return type of a function: that of a helper, or `int` of a program. -/
def returnText (prog : Program) (fd : FuncDecl) : Text :=
  match prog.helpers.find? fun h => h.decl.name = fd.name with
  | some h => (helperReturn prog h).toOption.getD []
  | none => "int"

section

variable {prog : Program}

/-- The identifiers of a reading do not depend on its use. -/
def Reading.Steady (r : Reading) : Prop :=
  ∀ (u u' : Use) (m : Mention), m ∈ r.mentions u →
    ∃ m' ∈ r.mentions u', m'.id = m.id ∧ m'.recv = m.recv

theorem steady_const {tag : Option Ident} {ms : List Mention} :
    (Reading.mk tag fun _ => ms).Steady := fun _ _ m hm => ⟨m, hm, rfl, rfl⟩

theorem Reading.Steady.map {r : Reading} {tag : Option Ident} {f : Use → Use} {ms : List Mention}
    (h : r.Steady) : (Reading.mk tag fun u => r.mentions (f u) ++ ms).Steady := by
  intro u u' m hm
  rcases List.mem_append.mp hm with hm | hm
  · obtain ⟨m', hm', hkey⟩ := h (f u) (f u') m hm
    exact ⟨m', List.mem_append_left _ hm', hkey⟩
  · exact ⟨m, List.mem_append_right _ hm, rfl, rfl⟩

theorem steady_form {fn : Reading} {rs : List Reading} (h : (argReading rs 0).Steady)
    (form : CallForm) : (form.reading prog fn rs).Steady := by
  cases form with
  | bare => exact h
  | sugar t => exact steady_const
  | cast cType => exact steady_const
  | helper w parts => exact steady_const
  | user => exact steady_const

mutual
theorem steady_reading : ∀ e : Expr, (reading prog e).Steady
  | .basicLit _ _ _ => steady_const
  | .ident id => fun u u' m hm => by
      obtain rfl := List.mem_singleton.mp hm
      exact ⟨_, List.mem_singleton_self _, rfl, rfl⟩
  | .selector x sel => by
      have hx := steady_reading x
      rw [reading]
      cases hc : (bpfConstant prog x sel).isSome with
      | true => exact steady_const
      | false =>
          have hmap := @Reading.Steady.map _ none (memberUse (memberAccess prog x sel).1) [] hx
          simpa only [List.append_nil, Bool.false_eq_true, if_false] using hmap
  | .unary _ op x => by
      rw [reading]
      exact steady_const
  | .binary x op y => by
      rw [reading]
      exact steady_const
  | .call fn args => by
      rw [reading]
      exact steady_form (steady_head args) _
  | .paren _ x => by
      have hmap := @Reading.Steady.map _ none (fun u => u) [] (steady_reading x)
      rw [reading]
      simpa only [List.append_nil] using hmap
  | .index x i => by
      rw [reading]
      exact (steady_reading x).map
  | .star _ x => by
      rw [reading]
      exact steady_const
  | .other _ _ _ => steady_const

theorem steady_head : ∀ es : List Expr, (argReading (readings prog es) 0).Steady
  | [] => steady_const
  | e :: _ => steady_reading e
end

/-- Whether an identifier is resolved does not depend on the return type. -/
theorem resolved_ret {v : Visit} (h : ∀ m ∈ v.step.mentions prog [], Resolved prog v m)
    {retC : Text} {m : Mention} (hm : m ∈ v.step.mentions prog retC) : Resolved prog v m := by
  cases hstep : v.step with
  | ret x =>
      cases x with
      | none =>
          rw [hstep] at hm
          cases hm
      | some x =>
          rw [hstep] at hm h
          obtain ⟨m', hm', hid, -⟩ := steady_reading x (typeUse retC) (typeUse []) m hm
          have hresolved := h m' hm'
          unfold Resolved at hresolved ⊢
          rw [← hid]
          exact hresolved
  | declare id init =>
      rw [hstep] at hm h
      cases init with
      | none => cases hm
      | some e => exact h m hm
  | _ =>
      rw [hstep] at hm h
      exact h m hm

end

/-! ## Memories -/

/-- The variables of one language, by their declarations. -/
structure Memory (V : Type) where
  val : Ident → V
  /-- a pointer to the variable exists -/
  shared : Ident → Prop

/-- The memories of the two languages; the value of a C variable may be indeterminate. -/
structure Store (V : Type) where
  c : Memory (Option V)
  go : Memory V

/-- The use writes the variable. -/
def Use.writes : Use → Bool
  | .store | .update | .part => true
  | .value | .truth | .addr => false

section

variable (prog : Program) (retC : Text)

/-- C finds the variable for the name. -/
def Place.Finds (p : Place) (l : Leaf) (i : Ident) : Prop :=
  ∃ d, cLookup p.scope l.word = some d ∧ d.id = i

/-- The emitted code declares the variable here, or writes it. -/
def Place.Writes (p : Place) (i : Ident) : Prop :=
  (∃ b, p.point.decl? = some (i, b)) ∨
    ∃ l ∈ p.point.reads prog retC, l.use.writes = true ∧ p.Finds l i

/-- The emitted code takes the address of the variable. -/
def Place.Takes (p : Place) (i : Ident) : Prop :=
  ∃ l ∈ p.point.reads prog retC, l.use = .addr ∧ p.Finds l i

/-- A comma-ok statement with the second result `ok` sets the variable here. -/
def Visit.CommaSets (v : Visit) (ok i : Ident) : Prop :=
  ∃ x fn args, v.step = .commaOk x ok fn args ∧
    (okObject prog x = some i ∨ okObject prog ok = some i)

/-- The source declares the variable here, or writes it. -/
def Visit.Writes (v : Visit) (i : Ident) : Prop :=
  (∃ e ∈ v.declared, e.id = i) ∨ (∃ ok, v.CommaSets prog ok i) ∨
    ∃ m ∈ v.step.mentions prog retC, m.use.writes = true ∧ Denotes prog m i

/-- The source takes the address of the variable. -/
def Visit.Takes (v : Visit) (i : Ident) : Prop :=
  ∃ m ∈ v.step.mentions prog retC, m.use = .addr ∧ Denotes prog m i

end

/-- The variable is the pointer of a comma-ok statement of the function. -/
def Walk.Pointer (w : Walk) (i : Ident) : Prop :=
  ∃ v ∈ w.course.items, ∃ ok fn args, v.step = .commaOk i ok fn args

/-- **What both languages promise of a function**, over values that are left open.  The two
sides stay together where the emitter drops nothing. -/
structure Machine (prog : Program) (w : FuncDecl × Walk) (V : Type) where
  /-- the value counts as true -/
  truth : V → Bool
  /-- a point of the source and its place in the output lead from one store to the next -/
  step : Visit → Place → Store V → Store V → Prop
  c_shared : ∀ {v p s t i}, step v p s t →
    (t.c.shared i ↔ s.c.shared i ∨ p.Takes prog (returnText prog w.1) i)
  c_kept : ∀ {v p s t i}, step v p s t → w.2.Pointer i → ¬ t.c.shared i →
    ¬ p.Writes prog (returnText prog w.1) i → t.c.val i = s.c.val i
  go_shared : ∀ {v p s t i}, step v p s t →
    (t.go.shared i ↔ s.go.shared i ∨ v.Takes prog (returnText prog w.1) i)
  go_kept : ∀ {v p s t i}, KeptAll (bodyOf w.1) → step v p s t → ¬ t.go.shared i →
    ¬ v.Writes prog (returnText prog w.1) i → t.go.val i = s.go.val i
  /-- the helper returns a null pointer exactly where Go reports that there is no value -/
  commaOk : ∀ {v p s t x ok o fn args}, step v p s t → v.step = .commaOk x ok fn args →
    okObject prog ok = some o → (t.c.val x).map truth = some (truth (t.go.val o))

section

variable {prog : Program} {w : FuncDecl × Walk} {V : Type}

/-- **At every point of the run `P` holds of the point and of the store before it**, whatever
the points before have done. -/
def Machine.Along (M : Machine prog w V) (P : Visit → Place → Store V → Prop) :
    List Visit → List Place → Store V → Prop
  | v :: vs, p :: ps, s => P v p s ∧ ∀ t, M.step v p s t → M.Along P vs ps t
  | _, _, _ => True

/-- **What every point keeps of the variables in scope holds at every point of a run.** -/
theorem along_of_step {M : Machine prog w V} {P : Visit → Place → Store V → Prop}
    {I : Scope → Store V → Prop} {R : Visit → Place → Prop}
    (hmono : ∀ {S S' s}, S' <:+ S → I S s → I S' s)
    {vs : List Visit} {ps : List Place} (hrel : List.Forall₂ R vs ps)
    (hstep : ∀ v ∈ vs, ∀ p s, R v p → I v.enter s →
      P v p s ∧ ∀ t, M.step v p s t → I v.scope t)
    {S T : Scope} {s : Store V} (hchain : Course.Chain (· <:+ ·) Visit.enter Visit.scope S vs T)
    (hinv : I S s) : M.Along P vs ps s := by
  induction hrel generalizing S s with
  | nil => trivial
  | @cons v p vs ps hvp hrest ih =>
      obtain ⟨henter, hchain'⟩ := hchain
      obtain ⟨hP, hkeep⟩ := hstep v List.mem_cons_self p s hvp (hmono henter hinv)
      refine ⟨hP, fun t ht => ?_⟩
      exact ih (fun u hu => hstep u (List.mem_cons_of_mem _ hu)) hchain' (hkeep t ht)

end

end Gobee
