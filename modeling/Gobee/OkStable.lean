/-
# What a second result stands for

Go has a variable for the second result of a comma-ok statement, C has only the pointer.
Where the bool is read, the emitter prints the name of the pointer: that is the bool as long
as only the truth of the pointer counts, the name still finds the pointer, and nothing has
written the pointer since.

* `okInv_step` : what a point keeps of the second results in scope;
* `commaOk_stable` : **in every run that uses each second result in this way, each of its
  uses has the value of the bool.**
-/
import Gobee.Stores

namespace Gobee

/-! ## Uses of second results -/

section

variable (prog : Program) (w : FuncDecl × Walk)

/-- A comma-ok statement of the function has the variable as its second result. -/
def OkVariable (o : Ident) : Prop :=
  ∃ v ∈ w.2.course.items, ∃ x ok fn args,
    v.step = .commaOk x ok fn args ∧ okObject prog ok = some o

/-- **Each second result is set by one comma-ok statement.** -/
def SetOnce : Prop :=
  ∀ o, OkVariable prog w o → ∀ v ∈ w.2.course.items, ∀ v' ∈ w.2.course.items, ∀ ok ok',
    v.CommaSets prog ok o → v'.CommaSets prog ok' o → ok = ok'

end

section

variable {prog : Program} {w : FuncDecl × Walk} {V : Type}

/-- The C variable has the value of the Go variable, or its truth where only that counts. -/
def Machine.Agrees (M : Machine prog w V) (u : Use) (s : Store V) (i o : Ident) : Prop :=
  match u with
  | .truth => (s.c.val i).map M.truth = some (M.truth (s.go.val o))
  | _ => s.c.val i = some (s.go.val o)

/-- **Second results are stable at a point**: what is printed for a use of one is a name
whose variable agrees with the bool. -/
def UsesStable (M : Machine prog w V) (v : Visit) (p : Place) (s : Store V) : Prop :=
  ∀ m ∈ v.step.mentions prog (returnText prog w.1), ∀ o, OkVariable prog w o →
    Denotes prog m o → m.use.writes = false →
      ∃ l d, m.print prog v.aliases = [l] ∧ l ∈ p.point.reads prog (returnText prog w.1) ∧
        cLookup p.scope l.word = some d ∧ M.Agrees m.use s d.id o

end

/-- The C variable that is found for an identifier. -/
def foundDecl (prog : Program) (v : Visit) (m : Mention) : Option CDecl :=
  (printedName prog v m).bind (cLookup (decls v.scope))

/-- **A point leaves second results alone**: where it uses one, a comma-ok statement has
declared it, only its truth counts and its pointer is not hidden; and it neither writes nor
takes the address of a pointer that stands for one. -/
structure LeavesOk (prog : Program) (w : FuncDecl × Walk) (v : Visit) : Prop where
  uses : ∀ m ∈ v.step.mentions prog (returnText prog w.1), ∀ o, OkVariable prog w o →
    Denotes prog m o → m.use = .truth ∧ Reached prog v m ∧
      ∃ ptr, goLookup v.go m.id.name = some (.ok o ptr)
  spares : ∀ m ∈ v.step.mentions prog (returnText prog w.1),
    m.use.writes = true ∨ m.use = .addr → ∀ d, foundDecl prog v m = some d → d.ok = none

/-! ## Pairs of a second result and its pointer -/

/-- A point of the function declares the second result and its pointer. -/
def OkPair (w : FuncDecl × Walk) (id : Ident) (ptr : CDecl) : Prop :=
  ∃ u ∈ w.2.course.items, .ok id ptr ∈ u.declared

section

variable {prog : Program} {w : FuncDecl × Walk} {v : Visit} {p : Place} {id : Ident}
  {ptr : CDecl} {V : Type}

theorem formed_program (hw : w ∈ programWalks prog) : ∀ v ∈ w.2.course.items, Formed prog v := by
  obtain ⟨n, heq⟩ := walk_eq hw
  rw [heq]
  exact formed_block prog (bodyOf w.1) n (entryScope w.1)

/-- The point that declares a second result. -/
theorem Formed.ok_entry (h : Formed prog v) (hdefs : DefsOk prog) (hmem : .ok id ptr ∈ v.declared) :
    (prog.info.defsAt id).isSome = true ∧ okObject prog id = some id ∧
      ∃ fn args, v.step = .commaOk ptr.id id fn args := by
  cases hstep : v.step.decl? with
  | none =>
      obtain ⟨id', heq⟩ := h.other hstep _ hmem
      cases heq
  | some d =>
      cases hv : v.step with
      | declare i init =>
          rw [h.declare hv] at hmem
          cases List.mem_singleton.mp hmem
      | commaOk x ok fn args =>
          obtain ⟨n, hentries⟩ := h.commaOk hv
          rw [hentries] at hmem
          cases hdef : prog.info.defsAt ok with
          | none =>
              rw [(commaOk_redeclared hdef).1] at hmem
              cases List.mem_singleton.mp hmem
          | some obj =>
              have hdecl := hdefs ok obj hdef
              rw [(commaOk_declared hdef hdecl).1] at hmem
              simp only [List.mem_cons, Entry.ok.injEq, reduceCtorEq, List.not_mem_nil,
                or_false] at hmem
              obtain ⟨rfl, rfl⟩ := hmem
              refine ⟨by rw [hdef]; rfl, ?_, fn, args, rfl⟩
              rw [okObject, hdef, ← hdecl]
      | _ =>
          rw [hv] at hstep
          cases hstep

/-- A second result that is declared is one of the function. -/
theorem OkPair.variable (h : OkPair w id ptr) (hdefs : DefsOk prog) (hw : w ∈ programWalks prog) :
    OkVariable prog w id := by
  obtain ⟨u, hu, hmem⟩ := h
  obtain ⟨-, hobject, fn, args, hstep⟩ := (formed_program hw u hu).ok_entry hdefs hmem
  exact ⟨u, hu, ptr.id, id, fn, args, hstep, hobject⟩

theorem OkPair.pointer (h : OkPair w id ptr) (hdefs : DefsOk prog) (hw : w ∈ programWalks prog) :
    w.2.Pointer ptr.id := by
  obtain ⟨u, hu, hmem⟩ := h
  obtain ⟨-, -, fn, args, hstep⟩ := (formed_program hw u hu).ok_entry hdefs hmem
  exact ⟨u, hu, id, fn, args, hstep⟩

/-- Both are among the variables of the program, and no others have their identifiers. -/
theorem OkPair.bound (h : OkPair w id ptr) (hfacts : ScopeFacts prog)
    (hw : w ∈ programWalks prog) :
    ptr.ok = some id ∧ .ok id ptr ∈ boundIn prog ∧ ∃ new, .var ptr new ∈ boundIn prog := by
  obtain ⟨u, hu, hmem⟩ := h
  have hok := visitOk_program hfacts w hw u hu
  have hscope : .ok id ptr ∈ u.scope := List.mem_append_left _ hmem
  obtain ⟨hptr, new, hvar⟩ := hok.scope.ptr hscope
  exact ⟨hptr, hok.scope.sub _ hscope, new, hok.scope.sub _ hvar⟩

/-- A C variable in scope with the identifier of the pointer is the pointer. -/
theorem OkPair.decl_eq (h : OkPair w id ptr) (hfacts : ScopeFacts prog)
    (hw : w ∈ programWalks prog) (hv : VisitOk (boundIn prog) v) {d : CDecl}
    (hd : d ∈ decls v.scope) (hid : d.id = ptr.id) : d = ptr := by
  obtain ⟨-, -, new, hvar⟩ := h.bound hfacts hw
  obtain ⟨new', hvar'⟩ := mem_decls.mp hd
  have heq := entry_unique hfacts.distinct (hv.scope.sub _ hvar') hvar hid
  cases heq
  rfl

/-- A name in the output is printed for an identifier in the same use. -/
theorem Shows.mention {retC : Text} {l : Leaf} (h : Shows prog v p)
    (hv : VisitOk (boundIn prog) v) (hresolved : ∀ m ∈ v.step.mentions prog [], Resolved prog v m)
    (hl : l ∈ p.point.reads prog retC) :
    ∃ m ∈ v.step.mentions prog retC, m.use = l.use ∧ printedName prog v m = some l.word := by
  rw [h.names] at hl
  obtain ⟨m, hm, hl⟩ := List.mem_flatMap.mp hl
  rw [print_eq hv (resolved_ret hresolved hm)] at hl
  obtain ⟨word, hword, rfl⟩ := List.mem_map.mp hl
  exact ⟨m, hm, rfl, Option.mem_toList.mp hword⟩

/-! ## What a point keeps -/

/-- What is known of a point of a run. -/
structure Shown (prog : Program) (w : FuncDecl × Walk) (v : Visit) (p : Place) : Prop where
  item : v ∈ w.2.course.items
  shows : Shows prog v p
  leaves : LeavesOk prog w v

variable (hfacts : ScopeFacts prog) (hw : w ∈ programWalks prog)

include hfacts hw

/-- A name that is written, or whose address is taken, does not find the pointer. -/
theorem Shown.not_found (h : Shown prog w v p) (hpair : OkPair w id ptr) {l : Leaf}
    (hl : l ∈ p.point.reads prog (returnText prog w.1))
    (huse : l.use.writes = true ∨ l.use = .addr) : ¬ p.Finds l ptr.id := by
  rintro ⟨d, hd, hid⟩
  have hv := visitOk_program hfacts w hw v h.item
  rw [h.shows.scope] at hd
  obtain ⟨m, hm, huse', hprinted⟩ := h.shows.mention hv (hfacts.uses w hw v h.item) hl
  have heq := hpair.decl_eq hfacts hw hv (mem_of_cLookup hd).1 hid
  have hfound : foundDecl prog v m = some d := by rw [foundDecl, hprinted, Option.bind_some, hd]
  have hnone := h.leaves.spares m hm (by rw [huse']; exact huse) d hfound
  rw [heq, (hpair.bound hfacts hw).1] at hnone
  cases hnone

theorem Shown.not_takes (h : Shown prog w v p) (hpair : OkPair w id ptr) :
    ¬ p.Takes prog (returnText prog w.1) ptr.id := by
  rintro ⟨l, hl, huse, hfinds⟩
  exact h.not_found hfacts hw hpair hl (.inr huse) hfinds

/-- Only the statement that declares the pointer writes it. -/
theorem Shown.writes_pointer (h : Shown prog w v p) (hpair : OkPair w id ptr)
    (hwrites : p.Writes prog (returnText prog w.1) ptr.id) : .ok id ptr ∈ v.declared := by
  rcases hwrites with ⟨b, hdecl⟩ | ⟨l, hl, huse, hfinds⟩
  · have hv := visitOk_program hfacts w hw v h.item
    have hformed := formed_program hw v h.item
    have hscope : ∀ {e}, e ∈ v.declared → e ∈ v.scope := fun he => List.mem_append_left _ he
    rw [h.shows.decl] at hdecl
    cases hstep : v.step with
    | declare i init =>
        rw [hstep] at hdecl
        cases hdecl
        have hdeclared : Entry.ordinary ptr.id ∈ v.declared := by
          rw [hformed.declare hstep]
          exact List.mem_singleton_self _
        have hmem := mem_decls.mpr ⟨true, hscope hdeclared⟩
        have heq := hpair.decl_eq hfacts hw hv hmem rfl
        have hok := (hpair.bound hfacts hw).1
        rw [← heq] at hok
        cases hok
    | commaOk x ok fn args =>
        rw [hstep] at hdecl
        cases hdecl
        obtain ⟨n, hentries⟩ := hformed.commaOk hstep
        have hdeclared : .var (commaOkDecl prog n ptr.id ok fn) (prog.info.defsAt ptr.id).isSome ∈
            v.declared := by
          rw [hentries, commaOkEntries]
          exact List.mem_append_right _ (List.mem_singleton_self _)
        have hmem := mem_decls.mpr ⟨_, hscope hdeclared⟩
        have heq := hpair.decl_eq hfacts hw hv hmem rfl
        have hnew : newIdent prog ok = some id := by
          have hok := (hpair.bound hfacts hw).1
          rw [← heq] at hok
          exact hok
        rw [hentries, commaOkEntries, hnew, heq]
        exact List.mem_cons_self
    | _ =>
        rw [hstep] at hdecl
        cases hdecl
  · exact absurd hfinds (h.not_found hfacts hw hpair hl (.inl huse))

theorem Shown.not_takes_ok (h : Shown prog w v p) (hpair : OkPair w id ptr) :
    ¬ v.Takes prog (returnText prog w.1) id := by
  rintro ⟨m, hm, huse, hdenotes⟩
  have hok := hpair.variable hfacts.defs hw
  rw [(h.leaves.uses m hm id hok hdenotes).1] at huse
  cases huse

/-- Only the statement that declares the second result writes it. -/
theorem Shown.writes_ok (h : Shown prog w v p) (honce : SetOnce prog w)
    (hpair : OkPair w id ptr) (hwrites : v.Writes prog (returnText prog w.1) id) :
    .ok id ptr ∈ v.declared := by
  have hv := visitOk_program hfacts w hw v h.item
  obtain ⟨hptr, hbound, -⟩ := hpair.bound hfacts hw
  have hok := hpair.variable hfacts.defs hw
  have hsame : ∀ e ∈ v.declared, e.id = id → e = .ok id ptr := fun e he hid =>
    entry_unique hfacts.distinct (hv.scope.sub _ (List.mem_append_left _ he)) hbound hid
  rcases hwrites with ⟨e, he, hid⟩ | ⟨ok, hsets⟩ | ⟨m, hm, huse, hdenotes⟩
  · rw [← hsame e he hid]
    exact he
  · obtain ⟨u, hu, hmem⟩ := hpair
    obtain ⟨hnew, hobject, fn, args, hstep⟩ :=
      (formed_program hw u hu).ok_entry hfacts.defs hmem
    have heq := honce id hok v h.item u hu ok id hsets ⟨ptr.id, fn, args, hstep, .inr hobject⟩
    rw [heq] at hsets
    obtain ⟨x, fn', args', hstep', -⟩ := hsets
    obtain ⟨-, ptr', new, -, hdeclared⟩ :=
      (formed_program hw v h.item).commaOk_entries hfacts.defs hstep' hnew
    have hmem' : .ok id ptr' ∈ v.declared := by
      rw [hdeclared]
      exact List.mem_cons_self
    rw [← hsame _ hmem' rfl]
    exact hmem'
  · rw [(h.leaves.uses m hm id hok hdenotes).1] at huse
    cases huse

/-- **Second results and pointers in step**: those in scope agree, and no pointer to one of
them exists. -/
structure OkInv (M : Machine prog w V) (scope : Scope) (s : Store V) : Prop where
  agree : ∀ id ptr, .ok id ptr ∈ scope → OkPair w id ptr ∧ M.Agrees .truth s ptr.id id
  unshared : ∀ id ptr, OkPair w id ptr → ¬ s.c.shared ptr.id ∧ ¬ s.go.shared id

/-- **A point keeps the second results in scope in step with their pointers.** -/
theorem okInv_step {M : Machine prog w V} {s t : Store V} (hkept : KeptAll (bodyOf w.1))
    (honce : SetOnce prog w) (h : Shown prog w v p) (hinv : OkInv M v.enter s)
    (hstep : M.step v p s t) : OkInv M v.scope t := by
  have hprivate : ∀ id ptr, OkPair w id ptr → ¬ t.c.shared ptr.id ∧ ¬ t.go.shared id := by
    intro id ptr hpair
    obtain ⟨hc, hgo⟩ := hinv.unshared id ptr hpair
    rw [M.c_shared hstep, M.go_shared hstep, not_or, not_or]
    exact ⟨⟨hc, h.not_takes hfacts hw hpair⟩, hgo, h.not_takes_ok hfacts hw hpair⟩
  refine ⟨fun id ptr hmem => ?_, hprivate⟩
  by_cases hdeclared : .ok id ptr ∈ v.declared
  · have hformed := formed_program hw v h.item
    obtain ⟨-, hobject, fn, args, hcomma⟩ := hformed.ok_entry hfacts.defs hdeclared
    exact ⟨⟨v, h.item, hdeclared⟩, M.commaOk hstep hcomma hobject⟩
  · have henter := (List.mem_append.mp hmem).resolve_left hdeclared
    obtain ⟨hpair, hagree⟩ := hinv.agree id ptr henter
    obtain ⟨hc, hgo⟩ := hprivate id ptr hpair
    have hcval := M.c_kept hstep (hpair.pointer hfacts.defs hw) hc fun hwrites =>
      hdeclared (h.writes_pointer hfacts hw hpair hwrites)
    have hgoval := M.go_kept hkept hstep hgo fun hwrites =>
      hdeclared (h.writes_ok hfacts hw honce hpair hwrites)
    refine ⟨hpair, ?_⟩
    unfold Machine.Agrees at hagree ⊢
    rw [hcval, hgoval]
    exact hagree

/-- Where second results in scope are in step, their uses are stable. -/
theorem OkInv.stable {M : Machine prog w V} {s : Store V} (h : Shown prog w v p)
    (hinv : OkInv M v.enter s) : UsesStable M v p s := by
  intro m hm o ho hdenotes _
  have hv := visitOk_program hfacts w hw v h.item
  have hresolved := resolved_ret (hfacts.uses w hw v h.item) hm
  obtain ⟨huse, hreached, ptr, hgo⟩ := h.leaves.uses m hm o ho hdenotes
  obtain ⟨l, hprint, -, hlookup⟩ := print_ok hv hresolved hgo hreached
  have henter : .ok o ptr ∈ v.enter := by
    rcases (formed_program hw v h.item).go _ (mem_of_goLookup hgo).1 with henter | ⟨i, hbare⟩
    · exact henter
    · cases hbare
  refine ⟨l, ptr, hprint, ?_, ?_, ?_⟩
  · rw [h.shows.names]
    exact List.mem_flatMap.mpr ⟨m, hm, by rw [hprint]; exact List.mem_singleton_self l⟩
  · rw [h.shows.scope]
    exact hlookup
  · rw [huse]
    exact (hinv.agree o ptr henter).2

end

/-! ## Runs -/

/-- No pointer to a variable of the function exists yet. -/
def Store.Fresh {V : Type} (s : Store V) : Prop := ∀ i, ¬ s.c.shared i ∧ ¬ s.go.shared i

section

variable {prog : Program}

/-- Along a run that leaves second results alone, their uses are stable. -/
theorem Traces.stable {w : FuncDecl × Walk} {V : Type} {vs : List Visit} {ps : List Place} {b : Bool}
    (h : Traces prog w.1 vs ps) (hfacts : ScopeFacts prog) (hw : w ∈ programWalks prog)
    (hrun : w.2.course.Run vs b) (hkept : KeptAll (bodyOf w.1)) (honce : SetOnce prog w)
    (hleaves : ∀ v ∈ vs, LeavesOk prog w v) (M : Machine prog w V) {s : Store V}
    (hs : s.Fresh) : M.Along (UsesStable M) vs ps s := by
  obtain ⟨T, hchain⟩ := h.chain
  have hstart : OkInv M (entryScope w.1) s := by
    refine ⟨fun id ptr hmem => ?_, fun id ptr _ => ⟨(hs _).1, (hs _).2⟩⟩
    have hplain := plain_entryScope w.1 _ hmem
    cases hplain
  refine along_of_step (I := OkInv M) ?_ h.shows ?_ hchain hstart
  · intro S S' s hsuffix hinv
    exact ⟨fun id ptr hmem => hinv.agree id ptr (hsuffix.subset hmem), hinv.unshared⟩
  · intro v hv p s hshows hinv
    have hshown : Shown prog w v p := ⟨hrun.mem_items v hv, hshows, hleaves v hv⟩
    exact ⟨hinv.stable hfacts hw hshown,
      fun t ht => okInv_step hfacts hw hkept honce hshown hinv ht⟩

/-- **In every run of an emitted function that leaves second results alone, each use of one
has the value of the bool.** -/
theorem commaOk_stable {label text : Text} {ms : List SourceMapping}
    (hfacts : ScopeFacts prog) (hemit : emit prog label = .ok (text, ms)) :
    ∃ n acts trees, emitActs prog label ⟨[], 0⟩ = .ok ((), n, acts) ∧
      text = (Emitter.after prog acts).buf ∧ Stand (trees.map blockActs) acts ∧
      functionTrees prog (emittedFuncs prog) ⟨[], 0⟩ = some (trees, n) ∧
      List.Forall₂ (fun w cs => ∀ ps b, (blockCourse prog cs (paramDecls w.1)).1.Run ps b →
        ∃ vs, w.2.course.Run vs b ∧ Traces prog w.1 vs ps ∧
          (KeptAll (bodyOf w.1) → SetOnce prog w → (∀ v ∈ vs, LeavesOk prog w v) →
            ∀ (V : Type) (M : Machine prog w V) (s : Store V), s.Fresh →
              M.Along (UsesStable M) vs ps s))
        (programWalks prog) trees := by
  obtain ⟨n, acts, trees, hacts, htext, htrees, hstand⟩ := emit_functionTrees hemit
  refine ⟨n, acts, trees, hacts, htext, hstand, htrees, ?_⟩
  have hruns := run_traces hfacts htrees
  rw [List.forall₂_iff_zip] at hruns ⊢
  refine ⟨hruns.1, fun {w cs} hmem ps b hrun => ?_⟩
  obtain ⟨vs, hvs, htraces⟩ := hruns.2 hmem ps b hrun
  have hw := (List.of_mem_zip hmem).1
  exact ⟨vs, hvs, htraces, fun hkept honce hleaves V M s hs =>
    htraces.stable hfacts hw hvs hkept honce hleaves M hs⟩

end

/-! ## One lookup -/

/-- What a point may do to the memories where every lookup ends in the same way; a found
value lies at address 1. -/
structure LookupStep (prog : Program) (w : FuncDecl × Walk) (found : Bool) (v : Visit) (p : Place)
    (s t : Store ℕ) : Prop where
  c_shared : ∀ i, t.c.shared i ↔ s.c.shared i ∨ p.Takes prog (returnText prog w.1) i
  c_kept : ∀ i, ¬ p.Writes prog (returnText prog w.1) i → t.c.val i = s.c.val i
  go_shared : ∀ i, t.go.shared i ↔ s.go.shared i ∨ v.Takes prog (returnText prog w.1) i
  go_kept : ∀ i, ¬ v.Writes prog (returnText prog w.1) i → t.go.val i = s.go.val i
  commaOk : ∀ x ok o fn args, v.step = .commaOk x ok fn args → okObject prog ok = some o →
    t.c.val x = some found.toNat ∧ t.go.val o = found.toNat

/-- Go and C where every lookup ends in the same way. -/
def lookupMachine (prog : Program) (w : FuncDecl × Walk) (found : Bool) : Machine prog w ℕ where
  truth := fun n => n != 0
  step := LookupStep prog w found
  c_shared := fun h => h.c_shared _
  c_kept := fun h _ _ hwrites => h.c_kept _ hwrites
  go_shared := fun h => h.go_shared _
  go_kept := fun _ h _ hwrites => h.go_kept _ hwrites
  commaOk := fun h hstep ho => by
    obtain ⟨hc, hgo⟩ := h.commaOk _ _ _ _ _ hstep ho
    rw [hc, hgo]
    rfl

/-- Memories at the start of a function. -/
def startStore : Store ℕ := ⟨⟨fun _ => none, fun _ => False⟩, ⟨fun _ => 0, fun _ => False⟩⟩

theorem startStore_fresh : startStore.Fresh := fun _ => ⟨fun h => h, fun h => h⟩

/-- The store after a point that has written two variables. -/
def Store.set (s : Store ℕ) (prog : Program) (w : FuncDecl × Walk) (v : Visit) (p : Place)
    (x : Ident) (c : ℕ) (o : Ident) (g : ℕ) : Store ℕ :=
  ⟨⟨Function.update s.c.val x (some c),
      fun i => s.c.shared i ∨ p.Takes prog (returnText prog w.1) i⟩,
    ⟨Function.update s.go.val o g,
      fun i => s.go.shared i ∨ v.Takes prog (returnText prog w.1) i⟩⟩

theorem lookupStep_set {prog : Program} {w : FuncDecl × Walk} {found : Bool} {v : Visit} {p : Place}
    {s : Store ℕ} {x o : Ident} {c g : ℕ} (hx : p.Writes prog (returnText prog w.1) x)
    (ho : v.Writes prog (returnText prog w.1) o)
    (hcomma : ∀ x' ok o' fn args, v.step = .commaOk x' ok fn args → okObject prog ok = some o' →
      x' = x ∧ o' = o ∧ c = found.toNat ∧ g = found.toNat) :
    LookupStep prog w found v p s (s.set prog w v p x c o g) := by
  refine ⟨fun i => Iff.rfl, fun i hi => ?_, fun i => Iff.rfl, fun i hi => ?_,
    fun x' ok o' fn args hstep ho' => ?_⟩
  · have hne : i ≠ x := fun heq => hi (heq ▸ hx)
    exact Function.update_of_ne hne _ _
  · have hne : i ≠ o := fun heq => hi (heq ▸ ho)
    exact Function.update_of_ne hne _ _
  · obtain ⟨rfl, rfl, rfl, rfl⟩ := hcomma x' ok o' fn args hstep ho'
    exact ⟨Function.update_self _ _ _, Function.update_self _ _ _⟩

/-- `func peek(a uint32, p *uint8)`: a lookup, some statements, and a test of its result. -/
def peekDecl (middle : List Stmt) : FuncDecl where
  pos := 60
  name := ⟨"peek", 65⟩
  recv := none
  typeParams := none
  params := some ⟨69,
    [⟨[⟨['a'], 70⟩], .ident ⟨"uint32", 72⟩⟩,
      ⟨[⟨['p'], 80⟩], .star 82 (.ident ⟨"uint8", 83⟩)⟩]⟩
  results := none
  body := some ⟨90,
    .assign [var 'v' 92, .ident ⟨"ok", 95⟩] .define
        [.call (.selector (.ident ⟨"uids", 101⟩) ⟨"Lookup", 106⟩) [.unary 113 .and (var 'a' 114)]] ::
      (middle ++ [.ifs 144 none (.ident ⟨"ok", 147⟩)
        [.assign [.star 152 (var 'p' 153)] .assign [.star 157 (var 'v' 158)]] none]), 162⟩

/-- A file with `peek` and the map `uids`. -/
def peekProgram (middle : List Stmt) : Program where
  position := fun p => ⟨"x.go", p, 1⟩
  imports := []
  info :=
    { uses := fun id =>
        if id.name = "uids" then
          some ⟨⟨"uids", 10⟩, .var, .named ⟨some bpfPkgPath, "HashMap"⟩
            [.basic .uint32, .basic .uint8]⟩
        else if id.name = ['a'] then some ⟨⟨['a'], 70⟩, .var, .basic .uint32⟩
        else if id.name = ['p'] then some ⟨⟨['p'], 80⟩, .var, .pointer (.basic .uint8)⟩
        else if id.name = ['v'] then some ⟨⟨['v'], 92⟩, .var, .pointer (.basic .uint8)⟩
        else some ⟨⟨"ok", 95⟩, .var, .basic .bool⟩
      defs := [(⟨['v'], 92⟩, some ⟨⟨['v'], 92⟩, .var, .pointer (.basic .uint8)⟩),
        (⟨"ok", 95⟩, some ⟨⟨"ok", 95⟩, .var, .basic .bool⟩)]
      typeOf := fun e =>
        match e with
        | .ident id =>
            if id.name = "uids" then
              some (.named ⟨some bpfPkgPath, "HashMap"⟩ [.basic .uint32, .basic .uint8])
            else if id.name = "uint32" then some (.basic .uint32)
            else some (.pointer (.basic .uint8))
        | _ => some (.pointer (.basic .uint8))
      underlying := fun _ _ => .other }
  license := "GPL"
  maps := [⟨"uids", ⟨"x.go", 10, 1⟩, "hash", some (.basic .uint32), some (.basic .uint8), 4096,
    some 10⟩]
  programs := []
  helpers := [⟨"peek", ⟨"x.go", 60, 1⟩, peekDecl middle⟩]
  types := []
  consts := []

/-- `v = p` between the lookup and the test. -/
def reassignedProgram : Program :=
  peekProgram [.assign [var 'v' 118] .assign [var 'p' 122]]

/-- Nothing between the lookup and the test. -/
def testedProgram : Program := peekProgram []

theorem peekProgram_defs (middle : List Stmt) : DefsOk (peekProgram middle) := by
  refine defsOk_of_entries fun p hp obj hobj => ?_
  simp only [peekProgram, List.mem_cons, List.not_mem_nil, or_false] at hp
  rcases hp with rfl | rfl
  · cases hobj
    rfl
  · cases hobj
    rfl

theorem reassignedProgram_facts : ScopeFacts reassignedProgram := by
  refine ⟨by decide, peekProgram_defs _, ?_⟩
  have hglobal : ∀ obj, reassignedProgram.info.uses ⟨"uids", 101⟩ = some obj →
      obj.decl ∉ boundIds reassignedProgram := by
    rintro obj ⟨⟩
    decide
  refine List.forall_mem_singleton.mpr (List.forall_mem_cons.mpr ⟨?_,
    List.forall_mem_cons.mpr ⟨?_, List.forall_mem_cons.mpr ⟨?_, ?_⟩⟩⟩)
  · exact List.forall_mem_cons.mpr ⟨hglobal, List.forall_mem_singleton.mpr ⟨_, rfl⟩⟩
  · exact List.forall_mem_cons.mpr ⟨⟨_, rfl⟩, List.forall_mem_singleton.mpr ⟨_, rfl⟩⟩
  · exact List.forall_mem_singleton.mpr ⟨_, rfl⟩
  · exact List.forall_mem_singleton.mpr
      (List.forall_mem_cons.mpr ⟨⟨_, rfl⟩, List.forall_mem_singleton.mpr ⟨_, rfl⟩⟩)

/-- The program has one second result. -/
theorem reassignedProgram_ok : ∀ v ∈ (funcWalk reassignedProgram
      (peekDecl [.assign [var 'v' 118] .assign [var 'p' 122]]) ⟨[], 0⟩).course.items,
    ∀ {ok o : Ident}, v.CommaSets reassignedProgram ok o → ok = ⟨"ok", 95⟩ := by
  refine List.forall_mem_cons.mpr ⟨?_, List.forall_mem_cons.mpr ⟨?_,
    List.forall_mem_cons.mpr ⟨?_, List.forall_mem_singleton.mpr ?_⟩⟩⟩
  · rintro ok o ⟨x, fn, args, ⟨⟩, -⟩
    rfl
  · rintro ok o ⟨x, fn, args, ⟨⟩, -⟩
  · rintro ok o ⟨x, fn, args, ⟨⟩, -⟩
  · rintro ok o ⟨x, fn, args, ⟨⟩, -⟩

/-- The lookup finds nothing, the pointer is assigned, and `ok` counts as true. -/
theorem reassignedProgram_differs :
    ∃ trees n, validate reassignedProgram = [] ∧
      (∃ out, emit reassignedProgram "x.go" = .ok out) ∧ ScopeFacts reassignedProgram ∧
      functionTrees reassignedProgram (emittedFuncs reassignedProgram) ⟨[], 0⟩ =
        some (trees, n) ∧
      List.Forall₂ (fun w cs => KeptAll (bodyOf w.1) ∧ SetOnce reassignedProgram w ∧
        ∃ vs ps, (blockCourse reassignedProgram cs (paramDecls w.1)).1.Run ps false ∧
          w.2.course.Run vs false ∧ Traces reassignedProgram w.1 vs ps ∧
          ¬ (lookupMachine reassignedProgram w false).Along
            (UsesStable (lookupMachine reassignedProgram w false)) vs ps startStore)
        (programWalks reassignedProgram) trees := by
  have hemit : ∃ out, emit reassignedProgram "x.go" = .ok out := ⟨_, rfl⟩
  obtain ⟨⟨text, ms⟩, hout⟩ := hemit
  obtain ⟨n, acts, trees, -, -, htrees, -⟩ := emit_functionTrees hout
  refine ⟨trees, n, validate_eq_nil.mpr rfl, ⟨_, hout⟩, reassignedProgram_facts, htrees, ?_⟩
  have hshown := run_shown reassignedProgram_facts htrees
  cases hshown with
  | cons hshown hrest =>
      cases hrest
      refine .cons ⟨by simp [KeptAll, Kept, KeptElse, bodyOf, peekDecl, var], ?_, ?_⟩ .nil
      · intro o ho v hv v' hv' ok ok' hsets hsets'
        rw [reassignedProgram_ok v hv hsets, reassignedProgram_ok v' hv' hsets']
      · have hrun : (funcWalk reassignedProgram (peekDecl
            [.assign [var 'v' 118] .assign [var 'p' 122]]) ⟨[], 0⟩).course.Run _ false :=
          .seq (.seq .item .skip) (.seq (.seq .item .skip) (.seqCut (.seq .item .cut)))
        obtain ⟨ps, hps, htraces⟩ := hshown _ _ hrun
        refine ⟨_, ps, hps, hrun, htraces, ?_⟩
        obtain ⟨p₁, p₂, p₃, rfl⟩ := List.length_eq_three.mp htraces.shows.length_eq.symm
        obtain ⟨h₁, h₂, h₃⟩ : Shows reassignedProgram _ p₁ ∧ Shows reassignedProgram _ p₂ ∧
            Shows reassignedProgram _ p₃ := by
          have hshows := htraces.shows
          cases hshows with
          | cons h₁ hrest =>
              cases hrest with
              | cons h₂ hrest =>
                  cases hrest with
                  | cons h₃ hrest => exact ⟨h₁, h₂, h₃⟩
        have hfinds : p₂.Finds ⟨.store, ['v'], ⟨['v'], 118⟩⟩ ⟨['v'], 92⟩ := by
          rw [Place.Finds, h₂.scope]
          exact ⟨_, rfl, rfl⟩
        rintro ⟨-, halong⟩
        -- the lookup finds nothing
        obtain ⟨-, halong⟩ := halong (startStore.set reassignedProgram _ _ p₁ ⟨['v'], 92⟩ 0
          ⟨"ok", 95⟩ 0) (lookupStep_set (.inl ⟨true, h₁.decl⟩)
            (.inl ⟨_, List.mem_cons_self, rfl⟩) (by
              rintro x' ok o' fn args ⟨⟩ ⟨⟩
              exact ⟨rfl, rfl, rfl, rfl⟩))
        -- the pointer is assigned
        obtain ⟨hstable, -⟩ := halong (Store.set _ reassignedProgram _ _ p₂ ⟨['v'], 92⟩ 1
          ⟨['v'], 92⟩ 1) (lookupStep_set
            (.inr ⟨_, by rw [h₂.names]; exact List.mem_cons_self, rfl, hfinds⟩)
            (.inr (.inr ⟨_, List.mem_cons_self, rfl, rfl⟩)) (by rintro x' ok o' fn args ⟨⟩))
        obtain ⟨l, d, hprint, -, hlookup, hagree⟩ := hstable _ List.mem_cons_self ⟨"ok", 95⟩
          ⟨_, List.mem_cons_self, _, _, _, _, rfl, rfl⟩ rfl rfl
        cases hprint
        rw [h₃.scope] at hlookup
        cases hlookup
        cases hagree

theorem testedProgram_facts : ScopeFacts testedProgram := by
  refine ⟨by decide, peekProgram_defs _, ?_⟩
  have hglobal : ∀ obj, testedProgram.info.uses ⟨"uids", 101⟩ = some obj →
      obj.decl ∉ boundIds testedProgram := by
    rintro obj ⟨⟩
    decide
  refine List.forall_mem_singleton.mpr (List.forall_mem_cons.mpr ⟨?_,
    List.forall_mem_cons.mpr ⟨?_, ?_⟩⟩)
  · exact List.forall_mem_cons.mpr ⟨hglobal, List.forall_mem_singleton.mpr ⟨_, rfl⟩⟩
  · exact List.forall_mem_singleton.mpr ⟨_, rfl⟩
  · exact List.forall_mem_singleton.mpr
      (List.forall_mem_cons.mpr ⟨⟨_, rfl⟩, List.forall_mem_singleton.mpr ⟨_, rfl⟩⟩)

/-- The only second result of the program is `ok`. -/
theorem testedProgram_ok : ∀ w ∈ programWalks testedProgram, ∀ v ∈ w.2.course.items,
    ∀ x ok fn args, v.step = .commaOk x ok fn args → ok = ⟨"ok", 95⟩ := by
  refine List.forall_mem_singleton.mpr (List.forall_mem_cons.mpr ⟨?_,
    List.forall_mem_cons.mpr ⟨?_, List.forall_mem_singleton.mpr ?_⟩⟩)
  · rintro x ok fn args ⟨⟩
    rfl
  · rintro x ok fn args ⟨⟩
  · rintro x ok fn args ⟨⟩

/-- Every point of the program leaves `ok` and its pointer alone. -/
theorem testedProgram_leaves : ∀ w ∈ programWalks testedProgram, ∀ v ∈ w.2.course.items,
    LeavesOk testedProgram w v := by
  have hvariable : ∀ w ∈ programWalks testedProgram, ∀ o, OkVariable testedProgram w o →
      o = ⟨"ok", 95⟩ := by
    rintro w hw o ⟨v, hv, x, ok, fn, args, hstep, hobject⟩
    cases testedProgram_ok w hw v hv x ok fn args hstep
    cases hobject
    rfl
  have hother : ∀ w ∈ programWalks testedProgram, ∀ o, OkVariable testedProgram w o →
      ∀ m, ¬ Denotes testedProgram m ⟨"ok", 95⟩ → ¬ Denotes testedProgram m o := by
    intro w hw o ho m hm
    rw [hvariable w hw o ho]
    exact hm
  have hmem : ∀ {w}, [w] = programWalks testedProgram → w ∈ programWalks testedProgram := by
    rintro w heq
    rw [← heq]
    exact List.mem_singleton_self w
  refine List.forall_mem_singleton.mpr (List.forall_mem_cons.mpr ⟨?_,
    List.forall_mem_cons.mpr ⟨?_, List.forall_mem_singleton.mpr ?_⟩⟩)
  · refine ⟨List.forall_mem_cons.mpr ⟨?_, List.forall_mem_singleton.mpr ?_⟩,
      List.forall_mem_cons.mpr ⟨?_, List.forall_mem_singleton.mpr ?_⟩⟩
    · intro o ho hdenotes
      exact absurd hdenotes (hother _ (hmem rfl) o ho _ (by rintro ⟨⟩))
    · intro o ho hdenotes
      exact absurd hdenotes (hother _ (hmem rfl) o ho _ (by rintro ⟨⟩))
    · rintro - d ⟨⟩
    · rintro - d ⟨⟩
      rfl
  · refine ⟨List.forall_mem_singleton.mpr ?_, List.forall_mem_singleton.mpr ?_⟩
    · intro o ho hdenotes
      rw [hvariable _ (hmem rfl) o ho]
      exact ⟨rfl, rfl, _, rfl⟩
    · rintro (⟨⟨⟩⟩ | ⟨⟨⟩⟩)
  · refine ⟨List.forall_mem_cons.mpr ⟨?_, List.forall_mem_singleton.mpr ?_⟩,
      List.forall_mem_cons.mpr ⟨?_, List.forall_mem_singleton.mpr ?_⟩⟩
    · intro o ho hdenotes
      exact absurd hdenotes (hother _ (hmem rfl) o ho _ (by rintro ⟨⟩))
    · intro o ho hdenotes
      exact absurd hdenotes (hother _ (hmem rfl) o ho _ (by rintro ⟨⟩))
    · rintro (⟨⟨⟩⟩ | ⟨⟨⟩⟩)
    · rintro (⟨⟨⟩⟩ | ⟨⟨⟩⟩)

/-- With nothing between them, the test has the value of the lookup. -/
theorem testedProgram_stable :
    ∃ trees n, functionTrees testedProgram (emittedFuncs testedProgram) ⟨[], 0⟩ =
        some (trees, n) ∧
      List.Forall₂ (fun w cs => ∀ ps b, (blockCourse testedProgram cs (paramDecls w.1)).1.Run ps b →
        ∃ vs, w.2.course.Run vs b ∧ Traces testedProgram w.1 vs ps ∧
          (lookupMachine testedProgram w true).Along
            (UsesStable (lookupMachine testedProgram w true)) vs ps startStore)
        (programWalks testedProgram) trees := by
  have hemit : ∃ out, emit testedProgram "x.go" = .ok out := ⟨_, rfl⟩
  obtain ⟨⟨text, ms⟩, hout⟩ := hemit
  obtain ⟨n, acts, trees, -, -, -, htrees, hruns⟩ := commaOk_stable testedProgram_facts hout
  refine ⟨trees, n, htrees, ?_⟩
  rw [List.forall₂_iff_zip] at hruns ⊢
  refine ⟨hruns.1, fun {w cs} hmem ps b hps => ?_⟩
  have hw := (List.of_mem_zip hmem).1
  obtain ⟨vs, hvs, htraces, hstable⟩ := hruns.2 hmem ps b hps
  have honce : SetOnce testedProgram w := by
    rintro o - v hv v' hv' ok ok' ⟨x, fn, args, hstep, -⟩ ⟨x', fn', args', hstep', -⟩
    rw [testedProgram_ok w hw v hv x ok fn args hstep,
      testedProgram_ok w hw v' hv' x' ok' fn' args' hstep']
  have hkept : KeptAll (bodyOf w.1) := by
    cases List.mem_singleton.mp hw
    simp [KeptAll, Kept, KeptElse, bodyOf, peekDecl, var]
  exact ⟨vs, hvs, htraces, hstable hkept honce
    (fun v hv => testedProgram_leaves w hw v (hvs.mem_items v hv)) ℕ _ _ startStore_fresh⟩

end Gobee
