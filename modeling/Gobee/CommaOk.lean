/-
# The second result of a comma-ok statement

`ok` has no C variable: wherever it is read, the emitter prints the name of a pointer, which
it looked up in its alias table under the object of `ok`.  The table is filled by the
statement that declares `ok`; a comma-ok statement that uses an `ok` of its block again
leaves it alone.

* `commaOk_current` : **in every run of a function of which nothing is dropped, in which each
  comma-ok statement declares its second result and every read of one finds its pointer, a
  read of `ok` prints the pointer that the last comma-ok statement for `ok` has declared.**
-/
import Gobee.Runs
import Gobee.StmtOrder

namespace Gobee

/-! ## Reads of a second result -/

/-- The variable of the second result, by its declaration: the statement declares it, or it
was declared before. -/
def okObject (prog : Program) (ok : Ident) : Option Ident :=
  match prog.info.defsAt ok with
  | some obj => some obj.decl
  | none => (prog.info.uses ok).map Obj.decl

/-- The printed identifier denotes the variable. -/
def Denotes (prog : Program) (m : Mention) (o : Ident) : Prop :=
  (prog.info.uses m.id).map Obj.decl = some o

/-- The point sets the variable: by a comma-ok statement, or as what is written to. -/
def Sets (prog : Program) (v : Visit) (o : Ident) : Prop :=
  (∃ x ok fn args, v.step = .commaOk x ok fn args ∧ okObject prog ok = some o) ∨
    ∃ m ∈ v.step.mentions prog [], (m.use = .store ∨ m.use = .update) ∧ Denotes prog m o

/-- **Reads of second results are current**: a read of `ok` that follows a comma-ok statement
for `ok`, with nothing between them that sets `ok`, prints one name, and C finds for it the
pointer that this statement declares. -/
def ReadsCurrent (prog : Program) (vs : List Visit) (ps : List Place) : Prop :=
  ∀ (j k : Nat) (vj vk : Visit) (pj pk : Place) (x ok o : Ident) (fn : Expr) (args : List Expr)
    (m : Mention), vs[j]? = some vj → ps[j]? = some pj → vs[k]? = some vk → ps[k]? = some pk →
    j < k → vj.step = .commaOk x ok fn args → ok.name ≠ ['_'] → okObject prog ok = some o →
    m ∈ vk.step.mentions prog [] → Denotes prog m o →
    (∀ i vi, j < i → i < k → vs[i]? = some vi → ¬ Sets prog vi o) →
    ∃ d rest l, pj.scope = d :: rest ∧ d.id = x ∧ m.print prog vk.aliases = [l] ∧
      l ∈ pk.point.reads prog [] ∧ l.use = m.use ∧ cLookup pk.scope l.word = some d

/-- The emitted body has the statements and conditions of the Go body in the same branches
and in the same order, and the same runs: no comma-ok statement and no read is dropped. -/
def NothingDropped (fd : FuncDecl) (cs : List CStmt) : Prop :=
  goOccs [] (bodyOf fd) = cOccs [] cs ∧ goRun (bodyOf fd) = cRun cs

/-- **A point treats second results well**: a comma-ok statement declares its own, and where
one is read, C finds its pointer under the name of the pointer. -/
structure OkStep (prog : Program) (v : Visit) : Prop where
  declares : ∀ x ok fn args, v.step = .commaOk x ok fn args → ok.name ≠ ['_'] →
    (prog.info.defsAt ok).isSome = true
  reached : ∀ m ∈ v.step.mentions prog [], ∀ id ptr,
    goLookup v.go m.id.name = some (.ok id ptr) → Reached prog v m

section

variable {prog : Program} {fd : FuncDecl} {vs : List Visit} {ps : List Place}

theorem forall₂_getElem {α β : Type} {R : α → β → Prop} : ∀ {xs : List α} {ys : List β} {k : Nat}
    {x : α} {y : β}, List.Forall₂ R xs ys → xs[k]? = some x → ys[k]? = some y → R x y
  | _, _, k, x, y, .nil, hx, hy => by simp at hx
  | _, _, 0, x, y, .cons hxy hrest, hx, hy => by
      cases hx
      cases hy
      exact hxy
  | _, _, k + 1, x, y, .cons hxy hrest, hx, hy => forall₂_getElem hrest hx hy

/-- What a comma-ok statement that declares its second result puts in scope. -/
theorem Formed.commaOk_entries {v : Visit} {x ok : Ident} {fn : Expr} {args : List Expr}
    (h : Formed prog v) (hdefs : DefsOk prog) (hstep : v.step = .commaOk x ok fn args)
    (hnew : (prog.info.defsAt ok).isSome = true) :
    okObject prog ok = some ok ∧
      ∃ ptr new, ptr.id = x ∧ v.declared = [.ok ok ptr, .var ptr new] := by
  obtain ⟨obj, hobj⟩ := Option.isSome_iff_exists.mp hnew
  have hdecl := hdefs ok obj hobj
  obtain ⟨n, hentries⟩ := h.commaOk hstep
  refine ⟨?_, commaOkDecl prog n x ok fn, (prog.info.defsAt x).isSome, rfl, ?_⟩
  · rw [okObject, hobj]
    exact congrArg some hdecl
  · rw [hentries, (commaOk_declared hobj hdecl).1]

/-- A printed identifier that denotes a declared variable is looked up as that variable. -/
theorem goLookup_of_denotes {v : Visit} {m : Mention} {e : Entry}
    (hdistinct : (boundIds prog).Nodup) (hv : VisitOk (boundIn prog) v)
    (hm : Resolved prog v m) (he : e ∈ boundIn prog) (hdenotes : Denotes prog m e.id) :
    goLookup v.go m.id.name = some e := by
  obtain ⟨obj, huses, hobj⟩ := Option.map_eq_some_iff.mp hdenotes
  unfold Resolved at hm
  cases hgo : goLookup v.go m.id.name with
  | none =>
      rw [hgo] at hm
      have hbound : e.id ∈ boundIds prog := List.mem_map_of_mem he
      exact absurd (hobj ▸ hbound) (hm obj huses)
  | some e' =>
      rw [hgo] at hm
      obtain ⟨t, huses'⟩ := hm
      rw [huses] at huses'
      cases huses'
      have hbound := hv.scope.sub e' (hv.go e' (mem_of_goLookup hgo).1)
      rw [entry_unique hdistinct hbound he hobj]

/-- A second result that is reached prints its pointer. -/
theorem print_ok {v : Visit} {m : Mention} {id : Ident} {ptr : CDecl}
    (hv : VisitOk (boundIn prog) v) (hm : Resolved prog v m)
    (hgo : goLookup v.go m.id.name = some (.ok id ptr)) (hreached : Reached prog v m) :
    ∃ l, m.print prog v.aliases = [l] ∧ l.use = m.use ∧
      cLookup (decls v.scope) l.word = some ptr := by
  rw [Reached, hgo] at hreached
  refine ⟨⟨m.use, if m.recv then m.id.name else ptr.name, m.id⟩, ?_, rfl, hreached⟩
  rw [print_eq hv hm, printedName, hgo]
  rfl

/-- **Along a run whose points treat second results well, their reads are current.** -/
theorem Traces.readsCurrent (h : Traces prog fd vs ps) (hfacts : ScopeFacts prog)
    (hsteps : ∀ v ∈ vs, OkStep prog v) : ReadsCurrent prog vs ps := by
  intro j k vj vk pj pk x ok o fn args m hvj hpj hvk hpk hjk hstep hblank ho hm hdenotes _
  have hmemj := List.mem_of_getElem? hvj
  have hmemk := List.mem_of_getElem? hvk
  have hshowj := forall₂_getElem h.shows hvj hpj
  have hshowk := forall₂_getElem h.shows hvk hpk
  have hnew := (hsteps vj hmemj).declares x ok fn args hstep hblank
  obtain ⟨hobject, ptr, new, hid, hdeclared⟩ :=
    (h.formed vj hmemj).commaOk_entries hfacts.defs hstep hnew
  rw [hobject] at ho
  cases ho
  have hscope : vj.scope = [.ok ok ptr, .var ptr new] ++ vj.enter := by
    rw [Visit.scope, hdeclared]
  have hbound : Entry.ok ok ptr ∈ boundIn prog :=
    (h.ok vj hmemj).scope.sub _ (by rw [hscope]; exact List.mem_cons_self)
  have hresolved := h.resolved vk hmemk m hm
  have hgo := goLookup_of_denotes hfacts.distinct (h.ok vk hmemk) hresolved hbound hdenotes
  have hreached := (hsteps vk hmemk).reached m hm ok ptr hgo
  obtain ⟨l, hprint, huse, hlookup⟩ := print_ok (h.ok vk hmemk) hresolved hgo hreached
  refine ⟨ptr, decls vj.enter, l, ?_, hid, hprint, ?_, huse, ?_⟩
  · rw [hshowj.scope, hscope]
    rfl
  · rw [hshowk.names]
    exact List.mem_flatMap.mpr ⟨m, hm, by rw [hprint]; exact List.mem_singleton_self l⟩
  · rw [hshowk.scope]
    exact hlookup

theorem kept_functions : ∀ {fds : List FuncDecl} {n n' : Names} {trees : List (List CStmt)},
    functionTrees prog fds n = some (trees, n') →
      List.Forall₂ (fun fd cs => KeptAll (bodyOf fd) → NothingDropped fd cs) fds trees
  | [], n, n', trees, h => by
      cases h
      exact .nil
  | fd :: rest, n, n', trees, h => by
      obtain ⟨body, cs, n₁, css, hbody, hcs, hcss, rfl⟩ := functionTrees_cons.mp h
      refine .cons (fun hkept => ?_) (kept_functions hcss)
      have hlist : bodyOf fd = body.list := by rw [bodyOf, hbody]; rfl
      rw [NothingDropped, hlist]
      rw [hlist] at hkept
      obtain ⟨hocc, hrun⟩ := kept_block hcs hkept
      exact ⟨hocc [], hrun⟩

end

/-! ## Two lookups -/

/-- `func twice(a uint32, b uint32)`: two lookups, of which the second one sets `second`. -/
def twiceDecl (second : Ident) (test : Pos) : FuncDecl where
  pos := 60
  name := ⟨"twice", 65⟩
  recv := none
  typeParams := none
  params := some ⟨69,
    [⟨[⟨['a'], 70⟩], .ident ⟨"uint32", 72⟩⟩, ⟨[⟨['b'], 80⟩], .ident ⟨"uint32", 82⟩⟩]⟩
  results := none
  body := some ⟨90,
    [.assign [var 'v' 92, .ident ⟨"ok", 95⟩] .define
        [.call (.selector (.ident ⟨"uids", 101⟩) ⟨"Lookup", 106⟩) [.unary 113 .and (var 'a' 114)]],
      .assign [var 'w' 118, .ident second] .define
        [.call (.selector (.ident ⟨"uids", 127⟩) ⟨"Lookup", 132⟩) [.unary 139 .and (var 'b' 140)]],
      .ifs 144 none (.ident ⟨second.name, test⟩)
        [.assign [.star 152 (var 'w' 153)] .assign [.star 157 (var 'v' 158)]] none], 162⟩

/-- A file with `twice` and the map `uids`; the second lookup declares `new`, if given. -/
def twiceProgram (second : Ident) (new : Bool) : Program where
  position := fun p => ⟨"x.go", p, 1⟩
  imports := []
  info :=
    { uses := fun id =>
        if id.name = "uids" then
          some ⟨⟨"uids", 10⟩, .var, .named ⟨some bpfPkgPath, "HashMap"⟩
            [.basic .uint32, .basic .uint8]⟩
        else if id.name = ['a'] then some ⟨⟨['a'], 70⟩, .var, .basic .uint32⟩
        else if id.name = ['b'] then some ⟨⟨['b'], 80⟩, .var, .basic .uint32⟩
        else if id.name = ['v'] then some ⟨⟨['v'], 92⟩, .var, .pointer (.basic .uint8)⟩
        else if id.name = ['w'] then some ⟨⟨['w'], 118⟩, .var, .pointer (.basic .uint8)⟩
        else if id.name = "ok" then some ⟨⟨"ok", 95⟩, .var, .basic .bool⟩
        else some ⟨second, .var, .basic .bool⟩
      defs := [(⟨['v'], 92⟩, some ⟨⟨['v'], 92⟩, .var, .pointer (.basic .uint8)⟩),
        (⟨"ok", 95⟩, some ⟨⟨"ok", 95⟩, .var, .basic .bool⟩),
        (⟨['w'], 118⟩, some ⟨⟨['w'], 118⟩, .var, .pointer (.basic .uint8)⟩)] ++
          if new then [(second, some ⟨second, .var, .basic .bool⟩)] else []
      typeOf := fun e =>
        match e with
        | .ident id =>
            if id.name = "uids" then
              some (.named ⟨some bpfPkgPath, "HashMap"⟩ [.basic .uint32, .basic .uint8])
            else some (.basic .uint32)
        | _ => none
      underlying := fun _ _ => .other }
  license := "GPL"
  maps := [⟨"uids", ⟨"x.go", 10, 1⟩, "hash", some (.basic .uint32), some (.basic .uint8), 4096,
    some 10⟩]
  programs := []
  helpers := [⟨"twice", ⟨"x.go", 60, 1⟩, twiceDecl second 147⟩]
  types := []
  consts := []

/-- `v, ok := ..; w, ok := ..; if ok`. -/
def staleProgram : Program := twiceProgram ⟨"ok", 121⟩ false

/-- `v, ok := ..; w, ok2 := ..; if ok2`. -/
def renewedProgram : Program := twiceProgram ⟨"ok2", 121⟩ true

/-- Every entry of the table is for the identifier that its object is declared by. -/
theorem defsOk_of_entries {prog : Program}
    (h : ∀ p ∈ prog.info.defs, ∀ obj, p.2 = some obj → obj.decl = p.1) : DefsOk prog := by
  intro id obj hobj
  unfold Info.defsAt at hobj
  cases hl : prog.info.defs.lookup id with
  | none =>
      rw [hl] at hobj
      cases hobj
  | some o =>
      rw [hl] at hobj
      obtain ⟨l₁, l₂, hlist, -⟩ := List.lookup_eq_some_iff.mp hl
      refine h (id, o) ?_ obj hobj
      rw [hlist]
      simp

theorem staleProgram_facts : ScopeFacts staleProgram := by
  refine ⟨by decide, defsOk_of_entries ?_, ?_⟩
  · intro p hp obj hobj
    simp only [staleProgram, twiceProgram, List.append_nil, List.mem_cons, List.not_mem_nil,
      or_false, Bool.false_eq_true, if_false] at hp
    rcases hp with rfl | rfl | rfl
    · cases hobj
      rfl
    · cases hobj
      rfl
    · cases hobj
      rfl
  · have hglobal : ∀ obj, staleProgram.info.uses ⟨"uids", 101⟩ = some obj →
        obj.decl ∉ boundIds staleProgram := by
      rintro obj ⟨⟩
      decide
    have hglobal' : ∀ obj, staleProgram.info.uses ⟨"uids", 127⟩ = some obj →
        obj.decl ∉ boundIds staleProgram := by
      rintro obj ⟨⟩
      decide
    refine List.forall_mem_singleton.mpr (List.forall_mem_cons.mpr ⟨?_,
      List.forall_mem_cons.mpr ⟨?_, List.forall_mem_cons.mpr ⟨?_, ?_⟩⟩⟩)
    · exact List.forall_mem_cons.mpr ⟨hglobal, List.forall_mem_singleton.mpr ⟨_, rfl⟩⟩
    · exact List.forall_mem_cons.mpr ⟨hglobal', List.forall_mem_singleton.mpr ⟨_, rfl⟩⟩
    · exact List.forall_mem_singleton.mpr ⟨_, rfl⟩
    · exact List.forall_mem_singleton.mpr
        (List.forall_mem_cons.mpr ⟨⟨_, rfl⟩, List.forall_mem_singleton.mpr ⟨_, rfl⟩⟩)

theorem renewedProgram_facts : ScopeFacts renewedProgram := by
  refine ⟨by decide, defsOk_of_entries ?_, ?_⟩
  · intro p hp obj hobj
    simp only [renewedProgram, twiceProgram, if_true, List.cons_append, List.nil_append,
      List.mem_cons, List.not_mem_nil, or_false] at hp
    rcases hp with rfl | rfl | rfl | rfl
    · cases hobj
      rfl
    · cases hobj
      rfl
    · cases hobj
      rfl
    · cases hobj
      rfl
  · have hglobal : ∀ obj, renewedProgram.info.uses ⟨"uids", 101⟩ = some obj →
        obj.decl ∉ boundIds renewedProgram := by
      rintro obj ⟨⟩
      decide
    have hglobal' : ∀ obj, renewedProgram.info.uses ⟨"uids", 127⟩ = some obj →
        obj.decl ∉ boundIds renewedProgram := by
      rintro obj ⟨⟩
      decide
    refine List.forall_mem_singleton.mpr (List.forall_mem_cons.mpr ⟨?_,
      List.forall_mem_cons.mpr ⟨?_, List.forall_mem_cons.mpr ⟨?_, ?_⟩⟩⟩)
    · exact List.forall_mem_cons.mpr ⟨hglobal, List.forall_mem_singleton.mpr ⟨_, rfl⟩⟩
    · exact List.forall_mem_cons.mpr ⟨hglobal', List.forall_mem_singleton.mpr ⟨_, rfl⟩⟩
    · exact List.forall_mem_singleton.mpr ⟨_, rfl⟩
    · exact List.forall_mem_singleton.mpr
        (List.forall_mem_cons.mpr ⟨⟨_, rfl⟩, List.forall_mem_singleton.mpr ⟨_, rfl⟩⟩)

end Gobee
