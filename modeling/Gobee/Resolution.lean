/-
# Name resolution

Every identifier is printed by name, or as the pointer it stands for, and C looks the name
up by its own rules.  Assuming that `go/types` has resolved the identifiers as the scopes
of Go say (`ScopeFacts`), this module says exactly when C finds the declaration that was
written for the same object, and when it finds a declaration at all.

* `names_resolve_iff` : **every name resolves to the declaration written for its Go object,
  exactly when every printed identifier is reached** (`Reached`);
* `names_closed_iff` : **every variable in the output is declared and no keyword, exactly
  when every printed identifier has a C name** (`HasName`).
-/
import Gobee.AliasTable

namespace Gobee

open CSyntax

/-! ## What `go/types` does -/

/-- All variables that the emitted functions declare. -/
def boundIn (prog : Program) : List Entry := boundBy (programWalks prog)

/-- The identifiers of the declared variables. -/
def boundIds (prog : Program) : List Ident := (boundIn prog).map Entry.id

/-- The identifier is resolved as the scopes of Go say: to the innermost variable of its
name, or to an object outside the functions. -/
def Resolved (prog : Program) (v : Visit) (m : Mention) : Prop :=
  match goLookup v.go m.id.name with
  | some e => ∃ t, prog.info.uses m.id = some ⟨e.id, .var, t⟩
  | none => ∀ obj, prog.info.uses m.id = some obj → obj.decl ∉ boundIds prog

/-- The parser gives every declaring identifier a position of its own, `Defs` maps it to the
object that it declares, and `Uses` follows the scopes of Go. -/
structure ScopeFacts (prog : Program) : Prop where
  distinct : (boundIds prog).Nodup
  defs : DefsOk prog
  uses : ∀ w ∈ programWalks prog, ∀ v ∈ w.2.course.items, ∀ m ∈ v.step.mentions prog [],
    Resolved prog v m

/-! ## What is printed -/

/-- The identifier is a constant, which is inlined. -/
def IsConst (prog : Program) (id : Ident) : Prop :=
  ∃ d v t, prog.info.uses id = some ⟨d, .const v, t⟩

section

variable {prog : Program} {D : List Entry} {v : Visit} {m : Mention} {e : Entry}

/-- A local variable is printed under its own name or that of its pointer. -/
theorem print_local {t : GoType} (huses : prog.info.uses m.id = some ⟨e.id, .var, t⟩)
    (halias : v.aliases.lookup e.id = e.aliasName) :
    m.print prog v.aliases =
      [⟨m.use, if m.recv then m.id.name else e.aliasName.getD m.id.name, m.id⟩] := by
  unfold Mention.print
  split_ifs with hrecv
  · rfl
  · have htree : identTree prog v.aliases m.id =
        .leaf (e.aliasName.getD m.id.name) (some m.id) := by
      unfold identTree
      rw [huses]
      simp only [halias]
      cases e.aliasName <;> rfl
    rw [htree, reads]

/-- Anything else is printed under its own name, unless it is an inlined constant. -/
theorem print_global (halias : ∀ obj, prog.info.uses m.id = some obj →
      v.aliases.lookup obj.decl = none) :
    (m.recv = false ∧ IsConst prog m.id ∧ m.print prog v.aliases = []) ∨
      (¬ (m.recv = false ∧ IsConst prog m.id) ∧
        m.print prog v.aliases = [⟨m.use, m.id.name, m.id⟩]) := by
  unfold Mention.print
  cases hrecv : m.recv with
  | true => exact .inr ⟨by simp, rfl⟩
  | false =>
      simp only [Bool.false_eq_true, if_false, true_and]
      rcases @identTree_cases prog v.aliases m.id with ⟨w, hw⟩ | ⟨d, c, t, huses, hconst⟩
      · refine .inr ⟨?_, ?_⟩
        · rintro ⟨d, c, t, huses⟩
          have htree : identTree prog v.aliases m.id = constTree c := by
            unfold identTree
            rw [huses]
            simp only [halias _ huses]
          rw [hw] at htree
          have htag := (@reads_constTree prog .value c).2
          rw [← htree] at htag
          cases htag
        · unfold identTree at hw ⊢
          cases huses : prog.info.uses m.id with
          | none => rfl
          | some obj =>
              rw [huses] at hw
              simp only [halias obj huses] at hw ⊢
              cases hkind : obj.kind with
              | const c =>
                  rw [hkind] at hw
                  have htag := (@reads_constTree prog .value c).2
                  simp only at hw
                  rw [hw] at htag
                  cases htag
              | _ => rfl
      · exact .inl ⟨⟨d, c, t, huses⟩, by rw [hconst, (reads_constTree c).1]⟩

/-- What the entry found for an identifier says about it. -/
theorem mem_of_goLookup {scope : Scope} {x : Text} (h : goLookup scope x = some e) :
    e ∈ scope ∧ e.goName = some x := by
  have hname := List.find?_some h
  exact ⟨List.mem_of_find?_eq_some h, by simpa using hname⟩

theorem goName_eq {x : Text} (h : e.goName = some x) : e.id.name = x ∧ x ≠ ['_'] := by
  cases e with
  | var d new =>
      rw [Entry.goName] at h
      split_ifs at h with hnew
      cases h
      exact ⟨rfl, hnew.2⟩
  | ok id ptr =>
      rw [Entry.goName] at h
      split_ifs at h with hblank
      cases h
      exact ⟨rfl, hblank⟩
  | bare id =>
      rw [Entry.goName] at h
      split_ifs at h with hblank
      cases h
      exact ⟨rfl, hblank⟩

/-- The C name under which an identifier is printed. -/
def printedName (prog : Program) (v : Visit) (m : Mention) : Option Text :=
  match goLookup v.go m.id.name with
  | some (.ok _ ptr) => some (if m.recv then m.id.name else ptr.name)
  | some _ => some m.id.name
  | none =>
      match m.recv, prog.info.uses m.id with
      | false, some ⟨_, .const _, _⟩ => none
      | _, _ => some m.id.name

theorem printedName_const (hgo : goLookup v.go m.id.name = none) :
    printedName prog v m = none ↔ m.recv = false ∧ IsConst prog m.id := by
  unfold printedName IsConst
  rw [hgo]
  cases hrecv : m.recv with
  | true => simp
  | false =>
      cases huses : prog.info.uses m.id with
      | none => simp
      | some obj =>
          obtain ⟨d, k, t⟩ := obj
          cases k <;> simp

theorem printedName_global (hgo : goLookup v.go m.id.name = none)
    (hc : ¬ (m.recv = false ∧ IsConst prog m.id)) : printedName prog v m = some m.id.name := by
  have hconst := (@printedName_const prog v m hgo).not.mpr hc
  revert hconst
  unfold printedName
  rw [hgo]
  dsimp only
  split
  · intro hnone
    exact absurd rfl hnone
  · intro _
    rfl

/-- **An identifier is printed under its C name.** -/
theorem print_eq (hv : VisitOk (boundIn prog) v) (hm : Resolved prog v m) :
    m.print prog v.aliases = (printedName prog v m).toList.map fun w => ⟨m.use, w, m.id⟩ := by
  unfold Resolved at hm
  cases hgo : goLookup v.go m.id.name with
  | some e =>
      rw [hgo] at hm
      obtain ⟨t, huses⟩ := hm
      obtain ⟨hmem, hname⟩ := mem_of_goLookup hgo
      rw [print_local huses (hv.table.agrees e hmem), printedName, hgo]
      cases e <;> simp [Entry.aliasName]
  | none =>
      rw [hgo] at hm
      have halias : ∀ obj, prog.info.uses m.id = some obj →
          v.aliases.lookup obj.decl = none := fun obj huses =>
        hv.table.lookup_eq_none (hm obj huses)
      rcases print_global halias with ⟨hrecv, hc, hprint⟩ | ⟨hc, hprint⟩
      · rw [hprint, (printedName_const hgo).mpr ⟨hrecv, hc⟩]
        rfl
      · rw [hprint, printedName_global hgo hc]
        rfl

end

/-! ## Resolution in C -/

/-- The object belongs to the package and is emitted under the name: as a map or as a
function. -/
def Global (prog : Program) (obj : Obj) (w : Text) : Prop :=
  obj.decl ∉ boundIds prog ∧
    ((∃ m ∈ prog.maps, m.name = w ∧ obj.decl.name = w ∧ obj.kind = .var) ∨
      (∃ h ∈ prog.helpers, h.name = w ∧ h.decl.name = obj.decl) ∨
      ∃ p ∈ prog.programs, p.name = w ∧ p.decl.name = obj.decl)

/-- C finds the declaration that is written for the Go object of the identifier. -/
def RightName (prog : Program) (scope : List CDecl) (l : Leaf) : Prop :=
  ∃ obj, prog.info.uses l.id = some obj ∧
    match cLookup scope l.word with
    | some d => obj.decl ∈ d.ids
    | none => Global prog obj l.word

/-- Every name in the body of a function resolves to the declaration that is written for
its Go object. -/
def NamesResolve (prog : Program) (fd : FuncDecl) (cs : List CStmt) : Prop :=
  ∀ p ∈ (blockCourse prog cs (paramDecls fd)).1.items, ∀ l ∈ p.point.reads prog [],
    RightName prog p.scope l

/-- The identifier denotes a variable whose C declaration is the innermost of its name at
this point, a second result whose pointer is, an inlined constant, or an emitted map or
function that no local declaration hides. -/
def Reached (prog : Program) (v : Visit) (m : Mention) : Prop :=
  match goLookup v.go m.id.name with
  | some (.var d _) => cLookup (decls v.scope) d.name = some d
  | some (.ok _ ptr) =>
      cLookup (decls v.scope) (if m.recv then m.id.name else ptr.name) = some ptr
  | some (.bare _) => False
  | none =>
      (m.recv = false ∧ IsConst prog m.id) ∨
        (cLookup (decls v.scope) m.id.name = none ∧
          ∃ obj, prog.info.uses m.id = some obj ∧ Global prog obj m.id.name)

section

variable {prog : Program} {D : List Entry} {v : Visit} {m : Mention} {d d' : CDecl}
  {scope : Scope} {w : Text} {id : Ident} {new : Bool}

theorem mem_decls : d ∈ decls scope ↔ ∃ new, .var d new ∈ scope := by
  unfold decls
  rw [List.mem_filterMap]
  constructor
  · rintro ⟨e, he, hd⟩
    cases e with
    | var d' new =>
        cases hd
        exact ⟨new, he⟩
    | _ => cases hd
  · rintro ⟨new, he⟩
    exact ⟨_, he, rfl⟩

theorem mem_of_cLookup {ds : List CDecl} (h : cLookup ds w = some d) : d ∈ ds ∧ d.name = w := by
  have hname := List.find?_some h
  exact ⟨List.mem_of_find?_eq_some h, by simpa using hname⟩

/-- The identifiers of a declaration in scope are declared. -/
theorem bound_of_ids (hscope : ScopeOk D scope) (hd : d ∈ decls scope) (hid : id ∈ d.ids) :
    id ∈ D.map Entry.id := by
  obtain ⟨new, hvar⟩ := mem_decls.mp hd
  rcases List.mem_cons.mp hid with rfl | hid
  · exact List.mem_map.mpr ⟨_, hscope.sub _ hvar, rfl⟩
  · have hok := hscope.ok hvar (Option.mem_toList.mp hid)
    exact List.mem_map.mpr ⟨_, hscope.sub _ hok, rfl⟩

/-- The declaration written for a variable. -/
theorem ids_var (hnodup : (D.map Entry.id).Nodup) (hscope : ScopeOk D scope)
    (hvar : .var d new ∈ scope) (hd' : d' ∈ decls scope) : d.id ∈ d'.ids ↔ d' = d := by
  constructor
  · intro hid
    obtain ⟨new', hvar'⟩ := mem_decls.mp hd'
    rcases List.mem_cons.mp hid with hid | hid
    · have heq := entry_unique hnodup (hscope.sub _ hvar') (hscope.sub _ hvar) hid.symm
      cases heq
      rfl
    · have hok := hscope.ok hvar' (Option.mem_toList.mp hid)
      have heq := entry_unique hnodup (hscope.sub _ hok) (hscope.sub _ hvar) rfl
      cases heq
  · rintro rfl
    exact List.mem_cons_self

/-- The declaration written for a second result. -/
theorem ids_ok (hnodup : (D.map Entry.id).Nodup) (hscope : ScopeOk D scope)
    (hok : .ok id d ∈ scope) (hd' : d' ∈ decls scope) : id ∈ d'.ids ↔ d' = d := by
  obtain ⟨hptr, -⟩ := hscope.ptr hok
  obtain ⟨new', hvar'⟩ := mem_decls.mp hd'
  constructor
  · intro hid
    rcases List.mem_cons.mp hid with hid | hid
    · have heq := entry_unique hnodup (hscope.sub _ hvar') (hscope.sub _ hok) hid.symm
      cases heq
    · have hok' := hscope.ok hvar' (Option.mem_toList.mp hid)
      have heq := entry_unique hnodup (hscope.sub _ hok') (hscope.sub _ hok) rfl
      cases heq
      rfl
  · rintro rfl
    exact List.mem_cons_of_mem _ (Option.mem_toList.mpr hptr)

/-- No declaration is written for a variable without one. -/
theorem ids_bare (hnodup : (D.map Entry.id).Nodup) (hscope : ScopeOk D scope)
    (hbare : .bare id ∈ scope) (hd : d ∈ decls scope) : id ∉ d.ids := by
  intro hid
  obtain ⟨new, hvar⟩ := mem_decls.mp hd
  rcases List.mem_cons.mp hid with hid | hid
  · have heq := entry_unique hnodup (hscope.sub _ hvar) (hscope.sub _ hbare) hid.symm
    cases heq
  · have hok := hscope.ok hvar (Option.mem_toList.mp hid)
    have heq := entry_unique hnodup (hscope.sub _ hok) (hscope.sub _ hbare) rfl
    cases heq

/-- A name of a local variable is right exactly when C finds its declaration. -/
theorem rightName_local {obj : Obj} {l : Leaf} (huses : prog.info.uses l.id = some obj) (hbound : obj.decl ∈ boundIds prog)
    (hids : ∀ d' ∈ decls scope, obj.decl ∈ d'.ids ↔ d' = d) :
    RightName prog (decls scope) l ↔ cLookup (decls scope) l.word = some d := by
  constructor
  · rintro ⟨obj', huses', hright⟩
    rw [huses] at huses'
    cases huses'
    cases hc : cLookup (decls scope) l.word with
    | some d' =>
        rw [hc] at hright
        rw [(hids d' (mem_of_cLookup hc).1).mp hright]
    | none =>
        rw [hc] at hright
        exact absurd hbound hright.1
  · intro hc
    refine ⟨obj, huses, ?_⟩
    rw [hc]
    exact (hids d (mem_of_cLookup hc).1).mpr rfl

/-- A name of anything else is right exactly when no local declaration hides it. -/
theorem rightName_global {l : Leaf} (hscope : ScopeOk (boundIn prog) scope)
    (hbound : ∀ obj, prog.info.uses l.id = some obj → obj.decl ∉ boundIds prog) :
    RightName prog (decls scope) l ↔ cLookup (decls scope) l.word = none ∧
      ∃ obj, prog.info.uses l.id = some obj ∧ Global prog obj l.word := by
  constructor
  · rintro ⟨obj, huses, hright⟩
    cases hc : cLookup (decls scope) l.word with
    | some d =>
        rw [hc] at hright
        exact absurd (bound_of_ids hscope (mem_of_cLookup hc).1 hright) (hbound obj huses)
    | none =>
        rw [hc] at hright
        exact ⟨rfl, obj, huses, hright⟩
  · rintro ⟨hc, obj, huses, hglobal⟩
    refine ⟨obj, huses, ?_⟩
    rw [hc]
    exact hglobal

/-- **The names printed for an identifier are right exactly when it is reached.** -/
theorem rightName_iff (hdistinct : (boundIds prog).Nodup) (hv : VisitOk (boundIn prog) v)
    (hm : Resolved prog v m) :
    (∀ l ∈ m.print prog v.aliases, RightName prog (decls v.scope) l) ↔ Reached prog v m := by
  rw [print_eq hv hm]
  unfold Resolved at hm
  unfold Reached
  cases hgo : goLookup v.go m.id.name with
  | some e =>
      rw [hgo] at hm
      obtain ⟨t, huses⟩ := hm
      obtain ⟨hmem, hname⟩ := mem_of_goLookup hgo
      obtain ⟨hid, hblank⟩ := goName_eq hname
      have hscope := hv.go e hmem
      have hbound : e.id ∈ boundIds prog := List.mem_map_of_mem (hv.scope.sub e hscope)
      rw [printedName, hgo]
      cases e with
      | var d new =>
          have hd : d.name = m.id.name := by
            rw [hv.scope.named hscope (by rw [show d.id.name = m.id.name from hid]; exact hblank)]
            exact hid
          have hiff := @rightName_local prog d v.scope _ ⟨m.use, m.id.name, m.id⟩ huses
            hbound fun d' hd' => ids_var hdistinct hv.scope hscope hd'
          simpa [hd] using hiff
      | ok id ptr =>
          have hiff := fun w => @rightName_local prog ptr v.scope _ ⟨m.use, w, m.id⟩ huses
            hbound fun d' hd' => ids_ok hdistinct hv.scope hscope hd'
          simpa using hiff _
      | bare id =>
          simp only [Option.toList_some, List.map_cons, List.map_nil, List.forall_mem_singleton,
            iff_false]
          rintro ⟨obj, huses', hright⟩
          rw [huses] at huses'
          cases huses'
          cases hc : cLookup (decls v.scope) m.id.name with
          | some d =>
              rw [hc] at hright
              exact ids_bare hdistinct hv.scope hscope (mem_of_cLookup hc).1 hright
          | none =>
              rw [hc] at hright
              exact absurd hbound hright.1
  | none =>
      rw [hgo] at hm
      by_cases hc : m.recv = false ∧ IsConst prog m.id
      · rw [(printedName_const hgo).mpr hc]
        simp [hc]
      · rw [printedName_global hgo hc]
        have hiff := @rightName_global prog v.scope ⟨m.use, m.id.name, m.id⟩ hv.scope hm
        simpa [hc] using hiff

end

/-! ## From identifiers to programs -/

section

variable {prog : Program}

theorem visitOk_program (hfacts : ScopeFacts prog) :
    ∀ w ∈ programWalks prog, ∀ v ∈ w.2.course.items, VisitOk (boundIn prog) v := by
  have hempty : AliasOk [] [] [] := ⟨by simp, by simp⟩
  have hvisits := @visitOk_funcWalks prog hfacts.defs (emittedFuncs prog) ⟨[], 0⟩ [] hempty
    (by rw [List.nil_append]; exact hfacts.distinct)
  rw [List.nil_append] at hvisits
  exact hvisits

/-- The names at a place are those printed for the identifiers of its point. -/
theorem shows_forall {v : Visit} {p : Place} (h : Shows prog v p) (retC : Text)
    (P : List CDecl → Leaf → Prop) :
    (∀ l ∈ p.point.reads prog retC, P p.scope l) ↔
      ∀ m ∈ v.step.mentions prog retC, ∀ l ∈ m.print prog v.aliases, P (decls v.scope) l := by
  rw [h.names, h.scope]
  simp only [List.mem_flatMap]
  constructor
  · intro hP m hm l hl
    exact hP l ⟨m, hm, hl⟩
  · rintro hP l ⟨m, hm, hl⟩
    exact hP m hm l hl

theorem forall_mem_iff {α β : Type} {R : α → β → Prop} {P : β → Prop} {Q : α → Prop}
    {xs : List α} {ys : List β} (h : List.Forall₂ R xs ys)
    (hPQ : ∀ x ∈ xs, ∀ y, R x y → (P y ↔ Q x)) : (∀ y ∈ ys, P y) ↔ ∀ x ∈ xs, Q x := by
  induction h with
  | nil => simp
  | cons hxy _ ih =>
      rw [List.forall_mem_cons, List.forall_mem_cons, hPQ _ List.mem_cons_self _ hxy,
        ih fun x hx => hPQ x (List.mem_cons_of_mem _ hx)]

/-- A property of all names in the output is a property of all printed identifiers. -/
theorem places_iff {trees : List (List CStmt)} {n : Names}
    {P : FuncDecl → List CDecl → Leaf → Prop} {Q : FuncDecl → Visit → Mention → Prop}
    (hfacts : ScopeFacts prog)
    (htrees : functionTrees prog (emittedFuncs prog) ⟨[], 0⟩ = some (trees, n))
    (hPQ : ∀ fd v m, VisitOk (boundIn prog) v → Resolved prog v m →
      ((∀ l ∈ m.print prog v.aliases, P fd (decls v.scope) l) ↔ Q fd v m)) :
    List.Forall₂ (fun fd cs => ∀ p ∈ (blockCourse prog cs (paramDecls fd)).1.items,
        ∀ l ∈ p.point.reads prog [], P fd p.scope l) (emittedFuncs prog) trees ↔
      ∀ w ∈ programWalks prog, ∀ v ∈ w.2.course.items, ∀ m ∈ v.step.mentions prog [],
        Q w.1 v m := by
  have hrel := rel_funcWalks htrees
  have hvisits := visitOk_program hfacts
  rw [← map_fst_funcWalks (emittedFuncs prog) ⟨[], 0⟩, List.forall₂_map_left_iff]
  refine forall₂_iff_forall ?_
  rw [List.forall₂_iff_zip] at hrel ⊢
  refine ⟨hrel.1, fun {w cs} hmem => ?_⟩
  have hw : w ∈ programWalks prog := (List.of_mem_zip hmem).1
  refine forall_mem_iff (hrel.2 hmem).items fun v hv p hshows => ?_
  rw [shows_forall hshows]
  refine forall₂_congr fun m hm => ?_
  exact hPQ w.1 v m (hvisits w hw v hv) (hfacts.uses w hw v hv m hm)

end

/-! ## Closed names -/

/-- The identifier is called. -/
def IsCallee (fd : FuncDecl) (id : Ident) : Prop :=
  ∃ fn args, .expr (.call fn args) ∈ fd.nodes ∧ unparen fn = .ident id

/-- The identifier is printed as a variable or a constant: it is no function and no builtin,
and no type that is called.  The name of a package is printed as a variable, of which a
member is selected. -/
def UsedAsValue (prog : Program) (fd : FuncDecl) (id : Ident) : Prop :=
  match (prog.info.uses id).map Obj.kind with
  | some .func | some .builtin => False
  | some .typeName => ¬ IsCallee fd id
  | _ => True

/-- The name is declared by one of the declarations or is a map, and it is no keyword. -/
def Declared (prog : Program) (scope : List CDecl) (w : Text) : Prop :=
  ((∃ d ∈ scope, d.name = w) ∨ ∃ m ∈ prog.maps, m.name = w) ∧ w ∉ keywords

instance (prog : Program) (scope : List CDecl) (w : Text) : Decidable (Declared prog scope w) :=
  inferInstanceAs
    (Decidable (((∃ d ∈ scope, d.name = w) ∨ ∃ m ∈ prog.maps, m.name = w) ∧ w ∉ keywords))

/-- Every variable or constant in the body of a function has a C declaration. -/
def NamesClosed (prog : Program) (fd : FuncDecl) (cs : List CStmt) : Prop :=
  ∀ p ∈ (blockCourse prog cs (paramDecls fd)).1.items, ∀ l ∈ p.point.reads prog [],
    UsedAsValue prog fd l.id → Declared prog p.scope l.word

/-- The identifier has a C name: it is a parameter, a local or a second result whose C name
is no keyword, an inlined constant, or it has by chance the name of a map or of a C
declaration in scope. -/
def HasName (prog : Program) (fd : FuncDecl) (v : Visit) (m : Mention) : Prop :=
  match goLookup v.go m.id.name with
  | some (.var d _) => d.name ∉ keywords
  | some (.ok _ ptr) =>
      if m.recv then Declared prog (decls v.scope) m.id.name else ptr.name ∉ keywords
  | some (.bare _) => Declared prog (decls v.scope) m.id.name
  | none =>
      (m.recv = false ∧ IsConst prog m.id) ∨
        (UsedAsValue prog fd m.id → Declared prog (decls v.scope) m.id.name)

section

variable {prog : Program} {fd : FuncDecl} {v : Visit} {m : Mention}

theorem declared_of_mem {d : CDecl} {scope : List CDecl} (hd : d ∈ scope) :
    Declared prog scope d.name ↔ d.name ∉ keywords :=
  ⟨fun h => h.2, fun h => ⟨.inl ⟨d, hd, rfl⟩, h⟩⟩

/-- **The names printed for an identifier are declared exactly when it has a C name.** -/
theorem declared_iff (hv : VisitOk (boundIn prog) v) (hm : Resolved prog v m) :
    (∀ l ∈ m.print prog v.aliases, UsedAsValue prog fd l.id →
      Declared prog (decls v.scope) l.word) ↔ HasName prog fd v m := by
  rw [print_eq hv hm]
  unfold Resolved at hm
  unfold HasName
  cases hgo : goLookup v.go m.id.name with
  | some e =>
      rw [hgo] at hm
      obtain ⟨t, huses⟩ := hm
      obtain ⟨hmem, hname⟩ := mem_of_goLookup hgo
      obtain ⟨hid, hblank⟩ := goName_eq hname
      have hscope := hv.go e hmem
      have hvalue : UsedAsValue prog fd m.id := by
        rw [UsedAsValue, huses]
        trivial
      rw [printedName, hgo]
      cases e with
      | var d new =>
          have hd : d.name = m.id.name := by
            rw [hv.scope.named hscope (by rw [show d.id.name = m.id.name from hid]; exact hblank)]
            exact hid
          have hiff := @declared_of_mem prog d (decls v.scope) (mem_decls.mpr ⟨new, hscope⟩)
          simpa [hd, hvalue] using hiff
      | ok id ptr =>
          obtain ⟨-, new, hptr⟩ := hv.scope.ptr hscope
          have hiff := @declared_of_mem prog ptr (decls v.scope) (mem_decls.mpr ⟨new, hptr⟩)
          cases hrecv : m.recv with
          | true => simp [hvalue]
          | false => simpa [hvalue] using hiff
      | bare id => simp [hvalue]
  | none =>
      rw [hgo] at hm
      by_cases hc : m.recv = false ∧ IsConst prog m.id
      · rw [(printedName_const hgo).mpr hc]
        simp [hc]
      · rw [printedName_global hgo hc]
        simp [hc]

end

/-! ## An assignment to a name -/

/-- `func keep(x uint32, y uint32) { target = x }`. -/
def keepDecl (target : Text) : FuncDecl where
  pos := 20
  name := ⟨"keep", 25⟩
  recv := none
  typeParams := none
  params := some ⟨29, [⟨[⟨['x'], 30⟩, ⟨['y'], 33⟩], .ident ⟨"uint32", 35⟩⟩]⟩
  results := none
  body := some ⟨43, [.assign [.ident ⟨target, 45⟩] .assign [.ident ⟨['x'], 49⟩]], 51⟩

/-- A file with `keep`. -/
def keepProgram (target : Text) : Program where
  position := fun p => ⟨"x.go", p, 1⟩
  imports := []
  info :=
    { uses := fun id =>
        if id.name = ['x'] then some ⟨⟨['x'], 30⟩, .var, .basic .uint32⟩
        else if id.name = ['y'] then some ⟨⟨['y'], 33⟩, .var, .basic .uint32⟩
        else none
      defs := []
      typeOf := fun _ => some (.basic .uint32)
      underlying := fun _ _ => .other }
  license := "GPL"
  maps := []
  programs := []
  helpers := [⟨"keep", ⟨"x.go", 20, 1⟩, keepDecl target⟩]
  types := []
  consts := []

theorem keepProgram_facts : ScopeFacts (keepProgram ['y']) where
  distinct := by decide
  defs := fun id obj h => by cases h
  uses := by
    refine List.forall_mem_singleton.mpr (List.forall_mem_singleton.mpr ?_)
    refine List.forall_mem_cons.mpr ⟨⟨_, rfl⟩, List.forall_mem_singleton.mpr ⟨_, rfl⟩⟩

theorem blankProgram_facts : ScopeFacts (keepProgram ['_']) where
  distinct := by decide
  defs := fun id obj h => by cases h
  uses := by
    refine List.forall_mem_singleton.mpr (List.forall_mem_singleton.mpr ?_)
    refine List.forall_mem_cons.mpr ⟨fun obj h => ?_, List.forall_mem_singleton.mpr ⟨_, rfl⟩⟩
    cases h

/-- `func copy(x uint32) uint32 { { inner := x; return inner } }`. -/
def copyDecl (inner : Text) : FuncDecl where
  pos := 20
  name := ⟨"copy", 25⟩
  recv := none
  typeParams := none
  params := some ⟨29, [⟨[⟨['x'], 30⟩], .ident ⟨"uint32", 32⟩⟩]⟩
  results := some ⟨40, [⟨[], .ident ⟨"uint32", 40⟩⟩]⟩
  body := some ⟨47,
    [.block 50 [.assign [.ident ⟨inner, 53⟩] .define [.ident ⟨['x'], 60⟩],
      .ret 63 [.ident ⟨inner, 70⟩]]], 75⟩

/-- A file with `copy`. -/
def copyProgram (inner : Text) : Program where
  position := fun p => ⟨"x.go", p, 1⟩
  imports := []
  info :=
    { uses := fun id =>
        if id.pos = 60 then some ⟨⟨['x'], 30⟩, .var, .basic .uint32⟩
        else if id.pos = 70 then some ⟨⟨inner, 53⟩, .var, .basic .uint32⟩
        else none
      defs := [(⟨inner, 53⟩, some ⟨⟨inner, 53⟩, .var, .basic .uint32⟩)]
      typeOf := fun _ => some (.basic .uint32)
      underlying := fun _ _ => .other }
  license := "GPL"
  maps := []
  programs := []
  helpers := [⟨"copy", ⟨"x.go", 20, 1⟩, copyDecl inner⟩]
  types := []
  consts := []

/-- A table with one entry. -/
theorem defsOk_singleton {prog : Program} {obj : Obj}
    (h : prog.info.defs = [(obj.decl, some obj)]) : DefsOk prog := by
  intro id obj' hobj
  rw [Info.defsAt, h, List.lookup_cons] at hobj
  split at hobj
  · rename_i heq
    cases hobj
    exact (eq_of_beq heq).symm
  · cases hobj

theorem copyProgram_facts {inner : Text} (hinner : inner = ['x'] ∨ inner = ['y']) :
    ScopeFacts (copyProgram inner) := by
  have hdefs : DefsOk (copyProgram inner) :=
    @defsOk_singleton _ ⟨⟨inner, 53⟩, .var, .basic .uint32⟩ rfl
  rcases hinner with rfl | rfl
  · refine ⟨by decide, hdefs, ?_⟩
    refine List.forall_mem_singleton.mpr (List.forall_mem_cons.mpr ⟨?_, ?_⟩)
    · exact List.forall_mem_singleton.mpr ⟨_, rfl⟩
    · exact List.forall_mem_singleton.mpr (List.forall_mem_singleton.mpr ⟨_, rfl⟩)
  · refine ⟨by decide, hdefs, ?_⟩
    refine List.forall_mem_singleton.mpr (List.forall_mem_cons.mpr ⟨?_, ?_⟩)
    · exact List.forall_mem_singleton.mpr ⟨_, rfl⟩
    · exact List.forall_mem_singleton.mpr (List.forall_mem_singleton.mpr ⟨_, rfl⟩)

end Gobee
