/-
# Kernel and userspace constants

A package constant reaches the kernel side as the value of the type checker, which
`formatIdent` inlines, and userspace as an expression: `collectDecls` keeps the
constants that have an expression of their own, and `WriteBindings` prints these
expressions, without the declared types, in one new const block under capitalised names.

Both sides are const declarations of Go, and `evalConst` evaluates either: the
declarations of the package with implicit repetition written out (`effective`), and the
generated block (`publishedConsts`).  The interpretation of literals, operators and
conversions is a parameter (`ConstSem`).

* `publishedConsts_own` : the block mirrors the package if every constant has an expression
  of its own;
* `publishedConsts_agree` : **the constants agree if moreover each uses `iota` only where
  its place in the merged block is its own, and names only untyped constants that are
  capitalised already**.
-/
import Gobee.FormatExpr

namespace Gobee

/-! ## Parsing and bindings -/

/-- The type of a specification. -/
def ValueSpec.type : ValueSpec → Option Expr
  | .mk _ type _ => type

/-- The constants of one specification in `collectDecls`: the names that have a value of
their own. -/
def collectSpec (position : Pos → Position) (spec : ValueSpec) : List UserConstDecl :=
  (spec.names.zip spec.values).map fun p => ⟨p.1.name, position p.1.pos, spec.type, p.2⟩

/-- The `token.CONST` branch of `collectDecls`, for all const groups of the file. -/
def collectConsts (position : Pos → Position) (groups : List (List ValueSpec)) :
    List UserConstDecl :=
  groups.flatMap fun specs => specs.flatMap (collectSpec position)

/-- `pascalCase`. -/
def pascalCase : Text → Text
  | [] => []
  | c :: rest =>
      (if 'a' ≤ c ∧ c ≤ 'z' then Char.ofNat (c.toNat - ('a'.toNat - 'A'.toNat)) else c) :: rest

/-! ## Const declarations -/

/-- A constant of a declaration as Go reads it: its name, the value of `iota`, its declared
type and its expression. -/
structure ConstDecl where
  name : Text
  iota : Nat
  type : Option Expr
  value : Expr

/-- The specifications of a group from the `k`-th on, with implicit repetition of the last
type and values. -/
def effectiveSpecs (k : Nat) (last : Option Expr × List Expr) : List ValueSpec → List ConstDecl
  | [] => []
  | spec :: rest =>
      let cur :=
        if spec.type.isNone && spec.values.isEmpty then last else (spec.type, spec.values)
      (spec.names.zip cur.2).map (fun p => ⟨p.1.name, k, cur.1, p.2⟩) ++
        effectiveSpecs (k + 1) cur rest

/-- The constants of all const groups of a package. -/
def effective (groups : List (List ValueSpec)) : List ConstDecl :=
  groups.flatMap (effectiveSpecs 0 (none, []))

/-- The generated const block: one line for each constant, with the printed expression. -/
def publishedConsts (consts : List UserConstDecl) : List ConstDecl :=
  consts.mapIdx fun j c => ⟨pascalCase c.name, j, none, c.value⟩

/-! ## Evaluation -/

/-- How Go evaluates constant expressions; a value of `V` knows whether it is typed. -/
structure ConstSem (V : Type) where
  lit : LitKind → Text → Option V
  iota : Nat → V
  bool : Bool → V
  unary : UnaryOp → V → Option V
  binary : BinaryOp → V → V → Option V
  /-- conversion to a predeclared type, or a predeclared function -/
  call : Text → List V → Option V
  /-- conversion to a declared type -/
  convert : Expr → V → Option V
  /-- `Const.Val` -/
  val : V → ConstVal

/-- The predeclared types and functions of constant expressions. -/
def predeclaredNames : List Text :=
  ["bool", "string", "int", "int8", "int16", "int32", "int64", "uint", "uint8", "uint16",
    "uint32", "uint64", "uintptr", "byte", "rune", "float32", "float64", "complex64",
    "complex128", "len", "real", "imag", "complex", "min", "max"]

/-- The predeclared constants, where `iota` is `k`. -/
def predeclaredConst {V : Type} (sem : ConstSem V) (k : Nat) (w : Text) : Option V :=
  if w = "iota" then some (sem.iota k)
  else if w = "true" then some (sem.bool true)
  else if w = "false" then some (sem.bool false)
  else none

/-- A scope for constant expressions: what names and other operands stand for, and which
predeclared names are not redeclared. -/
structure ConstScope (V : Type) where
  ref : Expr → Option V
  builtin : Text → Bool

/-- The name of a callee. -/
def calleeName : Expr → Option Text
  | .ident id => some id.name
  | _ => none

mutual
/-- The value of a constant expression in a scope. -/
def evalExpr {V : Type} (sem : ConstSem V) (sc : ConstScope V) : Expr → Option V
  | .basicLit _ kind text => sem.lit kind text
  | .paren _ x => evalExpr sem sc x
  | .unary _ op x => (evalExpr sem sc x).bind (sem.unary op)
  | .binary x op y =>
      (evalExpr sem sc x).bind fun a => (evalExpr sem sc y).bind fun b => sem.binary op a b
  | .call fn args =>
      match calleeName fn with
      | some f =>
          if f ∈ predeclaredNames ∧ sc.builtin f then
            (evalExprs sem sc args).bind (sem.call f)
          else sc.ref (.call fn args)
      | none => sc.ref (.call fn args)
  | e => sc.ref e

/-- The values of some constant expressions. -/
def evalExprs {V : Type} (sem : ConstSem V) (sc : ConstScope V) : List Expr → Option (List V)
  | [] => some []
  | e :: rest =>
      (evalExpr sem sc e).bind fun v => (evalExprs sem sc rest).map fun vs => v :: vs
end

/-- The declaration of a constant. -/
def declOf (decls : List ConstDecl) (w : Text) : Option ConstDecl :=
  decls.find? fun d => d.name == w

/-- The scope of the declaration of a constant: the constants of the package, the
predeclared constants, and for all else what is declared or imported around it. -/
def constScope {V : Type} (sem : ConstSem V) (decls : List ConstDecl) (outer : ConstScope V)
    (k : Nat) (value : Text → Option V) : ConstScope V where
  ref
    | .ident id =>
        if (declOf decls id.name).isSome then value id.name
        else if outer.builtin id.name then predeclaredConst sem k id.name
        else outer.ref (.ident id)
    | e => outer.ref e
  builtin w := (declOf decls w).isNone && outer.builtin w

/-- The value of a constant, by references at most `depth` deep. -/
def evalConst {V : Type} (sem : ConstSem V) (decls : List ConstDecl) (outer : ConstScope V) :
    (depth : Nat) → Text → Option V
  | 0, _ => none
  | depth + 1, w =>
      (declOf decls w).bind fun d =>
        (evalExpr sem (constScope sem decls outer d.iota (evalConst sem decls outer depth))
          d.value).bind fun v =>
            match d.type with
            | none => some v
            | some t => sem.convert t v

/-- Around the generated block stand only the predeclared names: the bindings import none
of the packages of the kernel side and publish only its structs. -/
def bindingScope {V : Type} : ConstScope V where
  ref _ := none
  builtin _ := true

@[simp] theorem bindingScope_builtin {V : Type} (w : Text) :
    (bindingScope : ConstScope V).builtin w = true := rfl

/-! ## When the two sides agree -/

/-- The constant `w` of the package is published under its capitalised name, and with the
value that `formatIdent` inlines for it. -/
def Mirrored {V : Type} (sem : ConstSem V) (outer : ConstScope V) (decls : List ConstDecl)
    (block : List ConstDecl) (w : Text) : Prop :=
  (declOf block (pascalCase w)).isSome ∧
  ∀ depth v, evalConst sem decls outer depth w = some v →
    ∃ v', evalConst sem block bindingScope depth (pascalCase w) = some v' ∧
      sem.val v' = sem.val v ∧
      ∀ (prog : Program) (aliases : Aliases) (id : Ident) (obj : Obj),
        prog.info.uses id = some obj → obj.kind = .const (sem.val v) →
        aliases.lookup obj.decl = none →
        formatIdent prog aliases id = (sem.val v').exactString

/-- Every named constant of the package is mirrored in the bindings. -/
def ConstsAgree {V : Type} (sem : ConstSem V) (outer : ConstScope V) (position : Pos → Position)
    (groups : List (List ValueSpec)) : Prop :=
  ∀ d ∈ effective groups, d.name ≠ ['_'] →
    Mirrored sem outer (effective groups) (publishedConsts (collectConsts position groups)) d.name

/-- The specification has a value for each of its names. -/
def ownValues (spec : ValueSpec) : Bool :=
  !spec.values.isEmpty && spec.names.length ≤ spec.values.length

mutual
/-- The expression means the same in the package and in the bindings, where `iota` is `own`
and `merged`: it refers to nothing but predeclared names and untyped constants of the
package that are capitalised already, and to `iota` only if it is the same in both. -/
def steady {V : Type} (outer : ConstScope V) (decls : List ConstDecl) (own merged : Nat) :
    Expr → Bool
  | .basicLit _ _ _ => true
  | .paren _ x => steady outer decls own merged x
  | .unary _ _ x => steady outer decls own merged x
  | .binary x _ y => steady outer decls own merged x && steady outer decls own merged y
  | .call fn args =>
      match calleeName fn with
      | some f =>
          f ∈ predeclaredNames && (declOf decls f).isNone && outer.builtin f &&
            steadyAll outer decls own merged args
      | none => false
  | .ident id =>
      match declOf decls id.name with
      | some d => d.type.isNone && pascalCase id.name == id.name && id.name != ['_']
      | none =>
          outer.builtin id.name &&
            (id.name == "true".toList || id.name == "false".toList ||
              id.name == "iota".toList && own == merged)
  | _ => false

/-- All expressions of a list mean the same. -/
def steadyAll {V : Type} (outer : ConstScope V) (decls : List ConstDecl) (own merged : Nat) :
    List Expr → Bool
  | [] => true
  | e :: rest => steady outer decls own merged e && steadyAll outer decls own merged rest
end

/-- The condition on a package: every constant has an expression of its own that means the
same at its place in the merged block, no two names are capitalised to one, and converting
to a declared type does not round. -/
structure Mirrorable {V : Type} (sem : ConstSem V) (outer : ConstScope V)
    (groups : List (List ValueSpec)) : Prop where
  own : ∀ specs ∈ groups, ∀ spec ∈ specs, ownValues spec = true
  steady : ∀ p ∈ (effective groups).zipIdx,
    Gobee.steady outer (effective groups) p.1.iota p.2 p.1.value = true
  distinct : (effective groups).Pairwise fun d d' =>
    d.name ≠ ['_'] → pascalCase d.name ≠ pascalCase d'.name
  exact : ∀ d ∈ effective groups, ∀ t, d.type = some t →
    ∀ v v', sem.convert t v = some v' → sem.val v' = sem.val v

/-! ## The generated block -/

/-- The declarations of a package, untyped and under capitalised names, in one block. -/
def mirror (decls : List ConstDecl) : List ConstDecl :=
  decls.mapIdx fun j d => ⟨pascalCase d.name, j, none, d.value⟩

theorem effectiveSpecs_own (position : Pos → Position) {specs : List ValueSpec}
    (own : ∀ spec ∈ specs, ownValues spec = true) (k : Nat) (last : Option Expr × List Expr) :
    (effectiveSpecs k last specs).map (fun d => (d.name, d.value)) =
      (specs.flatMap (collectSpec position)).map fun c => (c.name, c.value) := by
  induction specs generalizing k last with
  | nil => rfl
  | cons spec rest ih =>
      have hspec := own spec List.mem_cons_self
      have hvalues : spec.values.isEmpty = false := by
        simp only [ownValues, Bool.and_eq_true, Bool.not_eq_true'] at hspec
        exact hspec.1
      simp only [effectiveSpecs, hvalues, Bool.and_false, Bool.false_eq_true, if_false,
        List.map_append, List.map_map, List.flatMap_cons, collectSpec]
      rw [ih fun s hs => own s (List.mem_cons_of_mem _ hs)]
      rfl

/-- Where every constant has its own expression, the block mirrors the package. -/
theorem publishedConsts_own (position : Pos → Position) {groups : List (List ValueSpec)}
    (own : ∀ specs ∈ groups, ∀ spec ∈ specs, ownValues spec = true) :
    publishedConsts (collectConsts position groups) = mirror (effective groups) := by
  have heq : (effective groups).map (fun d => (d.name, d.value)) =
      (collectConsts position groups).map fun c => (c.name, c.value) := by
    unfold effective collectConsts
    rw [List.map_flatMap, List.map_flatMap]
    exact List.flatMap_congr fun specs hs => effectiveSpecs_own position (own specs hs) 0 _
  refine List.ext_getElem? fun j => ?_
  have hj := congrArg (fun l => l[j]?) heq
  simp only [List.getElem?_map] at hj
  simp only [publishedConsts, mirror, List.getElem?_mapIdx]
  cases hd : (effective groups)[j]? with
  | none =>
      rw [hd, Option.map_none] at hj
      rw [Option.map_eq_none_iff.mp hj.symm]
      rfl
  | some d =>
      rw [hd, Option.map_some] at hj
      obtain ⟨c, hc, hcd⟩ := Option.map_eq_some_iff.mp hj.symm
      rw [hc]
      simp only [Prod.mk.injEq] at hcd
      simp only [Option.map_some, hcd]

/-! ## Names -/

/-- A capital letter. -/
theorem toNat_upper {c : Char} (h : 'a' ≤ c ∧ c ≤ 'z') :
    (Char.ofNat (c.toNat - ('a'.toNat - 'A'.toNat))).toNat = c.toNat - 32 := by
  have hc := (lower_iff c).mp h
  have hvalid : (c.toNat - 32).isValidChar := Or.inl (by omega)
  rw [show 'a'.toNat - 'A'.toNat = 32 from rfl, Char.ofNat, dif_pos hvalid]
  rfl

/-- No capitalised name begins with a small letter. -/
theorem pascalCase_head_not_lower {w rest : Text} {c : Char} (h : pascalCase w = c :: rest) :
    ¬('a' ≤ c ∧ c ≤ 'z') := by
  cases w with
  | nil => cases h
  | cons b tail =>
      simp only [pascalCase, List.cons.injEq] at h
      obtain ⟨hc, -⟩ := h
      split at hc
      · next hb =>
          have hlow := (lower_iff b).mp hb
          rw [lower_iff, ← hc, toNat_upper hb]
          omega
      · next hb => rwa [← hc]

theorem pascalCase_eq_blank {w : Text} (h : pascalCase w = ['_']) : w = ['_'] := by
  cases w with
  | nil => cases h
  | cons b tail =>
      simp only [pascalCase, List.cons.injEq] at h
      obtain ⟨hc, rfl⟩ := h
      split at hc
      · next hb =>
          have hlow := (lower_iff b).mp hb
          have hnat := congrArg Char.toNat hc
          rw [toNat_upper hb] at hnat
          simp at hnat
          omega
      · rw [hc]

/-- No name that begins with a small letter is declared in the block. -/
theorem declOf_mirror_lower (decls : List ConstDecl) {c : Char} {rest : Text}
    (hc : 'a' ≤ c ∧ c ≤ 'z') : declOf (mirror decls) (c :: rest) = none := by
  refine List.find?_eq_none.mpr fun d hd heq => ?_
  obtain ⟨j, hj, rfl⟩ := List.mem_mapIdx.mp hd
  exact pascalCase_head_not_lower (by simpa using heq) hc

/-- A constant is found in the block by its capitalised name. -/
theorem declOf_mirror {decls : List ConstDecl}
    (distinct : decls.Pairwise fun d d' => d.name ≠ ['_'] → pascalCase d.name ≠ pascalCase d'.name)
    {w : Text} (hw : w ≠ ['_']) {d : ConstDecl} (h : declOf decls w = some d) :
    ∃ j, decls[j]? = some d ∧
      declOf (mirror decls) (pascalCase w) = some ⟨pascalCase w, j, none, d.value⟩ := by
  obtain ⟨hname, j, hj, hd, -⟩ := List.find?_eq_some_iff_getElem.mp h
  have hname : d.name = w := by simpa using hname
  refine ⟨j, by rw [List.getElem?_eq_getElem hj, hd], ?_⟩
  refine List.find?_eq_some_iff_getElem.mpr ⟨by simp, j, by simpa [mirror] using hj, ?_, ?_⟩
  · simp only [mirror, List.getElem_mapIdx, hd, hname]
  · intro k hk
    have hpair := List.pairwise_iff_getElem.mp distinct k j (by omega) hj hk
    simp only [mirror, List.getElem_mapIdx, Bool.not_eq_true', beq_eq_false_iff_ne, ne_eq]
    rw [hd, hname] at hpair
    by_cases hblank : decls[k].name = ['_']
    · intro heq
      rw [hblank] at heq
      exact hw (pascalCase_eq_blank heq.symm)
    · exact hpair hblank

/-! ## Evaluation on both sides -/

section Evaluation
variable {V : Type} {sem : ConstSem V} {outer : ConstScope V} {decls : List ConstDecl}

/-- Callees of predeclared names begin with a small letter. -/
theorem predeclaredNames_lower {w : Text} (h : w ∈ predeclaredNames) :
    ∃ c rest, w = c :: rest ∧ 'a' ≤ c ∧ c ≤ 'z' := by
  have hall : ∀ w ∈ predeclaredNames, (w.head?.any fun c => 'a' ≤ c ∧ c ≤ 'z') = true := by
    decide
  have hw := hall w h
  cases w with
  | nil => cases hw
  | cons c rest => exact ⟨c, rest, rfl, by simpa using hw⟩

/-- No predeclared name is declared in the block. -/
theorem declOf_mirror_predeclared {w : Text} (h : w ∈ predeclaredNames) :
    declOf (mirror decls) w = none := by
  obtain ⟨c, rest, rfl, hc⟩ := predeclaredNames_lower h
  exact declOf_mirror_lower decls hc

/-- What the evaluation of an expression needs of the constants it names. -/
def SameValues (decls : List ConstDecl) (value value' : Text → Option V) : Prop :=
  ∀ w d, declOf decls w = some d → d.type = none → pascalCase w = w → w ≠ ['_'] →
    (declOf (mirror decls) w).isSome ∧ ∀ v, value w = some v → value' w = some v

theorem evalIdent_mirror {own merged : Nat} {value value' : Text → Option V}
    (same : SameValues decls value value') {id : Ident} {v : V}
    (hs : steady outer decls own merged (.ident id) = true)
    (h : evalExpr sem (constScope sem decls outer own value) (.ident id) = some v) :
    evalExpr sem (constScope sem (mirror decls) bindingScope merged value') (.ident id) =
      some v := by
  rw [steady] at hs
  simp only [evalExpr, constScope] at h ⊢
  cases hd : declOf decls id.name with
  | some d =>
      simp only [hd, Bool.and_eq_true, Option.isNone_iff_eq_none, beq_iff_eq, bne_iff_ne] at hs
      obtain ⟨⟨htype, hpascal⟩, hblank⟩ := hs
      obtain ⟨hsome, hvalue⟩ := same id.name d hd htype hpascal hblank
      rw [hd, Option.isSome_some, if_pos rfl] at h
      rw [if_pos hsome]
      exact hvalue v h
  | none =>
      simp only [hd, Bool.and_eq_true, Bool.or_eq_true, beq_iff_eq] at hs
      obtain ⟨hbuiltin, hname⟩ := hs
      rw [hd, if_neg (by simp), if_pos hbuiltin] at h
      have hnone : declOf (mirror decls) id.name = none := by
        obtain (htrue | hfalse) | ⟨hiota, -⟩ := hname
        · rw [htrue]
          exact declOf_mirror_lower decls (by decide)
        · rw [hfalse]
          exact declOf_mirror_lower decls (by decide)
        · rw [hiota]
          exact declOf_mirror_lower decls (by decide)
      rw [hnone, if_neg (by simp), if_pos (bindingScope_builtin _), ← h]
      -- `iota` is the only predeclared constant that depends on the place
      obtain (htrue | hfalse) | ⟨-, rfl⟩ := hname
      · rw [htrue]
        rfl
      · rw [hfalse]
        rfl
      · rfl

mutual
/-- A steady expression has the same value in the block. -/
theorem evalExpr_mirror {own merged : Nat} {value value' : Text → Option V}
    (same : SameValues decls value value') :
    (e : Expr) → steady outer decls own merged e = true → (v : V) →
    evalExpr sem (constScope sem decls outer own value) e = some v →
    evalExpr sem (constScope sem (mirror decls) bindingScope merged value') e = some v
  | .basicLit _ _ _, _, v, h => h
  | .ident id, hs, v, h => evalIdent_mirror same hs h
  | .paren _ x, hs, v, h => by
      rw [evalExpr] at h ⊢
      rw [steady] at hs
      exact evalExpr_mirror same x hs v h
  | .unary _ op x, hs, v, h => by
      rw [evalExpr] at h ⊢
      rw [steady] at hs
      obtain ⟨a, ha, hv⟩ := Option.bind_eq_some_iff.mp h
      rw [evalExpr_mirror same x hs a ha]
      exact hv
  | .binary x op y, hs, v, h => by
      rw [evalExpr] at h ⊢
      rw [steady, Bool.and_eq_true] at hs
      obtain ⟨a, ha, hrest⟩ := Option.bind_eq_some_iff.mp h
      obtain ⟨b, hb, hv⟩ := Option.bind_eq_some_iff.mp hrest
      rw [evalExpr_mirror same x hs.1 a ha, evalExpr_mirror same y hs.2 b hb]
      exact hv
  -- a builtin that the file does not redeclare is the same in the generated file
  | .call fn args, hs, v, h => by
      rw [steady] at hs
      rw [evalExpr] at h ⊢
      cases hf : calleeName fn with
      | none =>
          rw [hf] at hs
          cases hs
      | some f =>
          simp only [hf, Bool.and_eq_true, decide_eq_true_eq, Option.isNone_iff_eq_none] at hs
          obtain ⟨⟨⟨hmem, hdecl⟩, hbuiltin⟩, hargs⟩ := hs
          have hown : (constScope sem decls outer own value).builtin f = true := by
            simp only [constScope, hdecl, hbuiltin, Option.isNone_none, Bool.and_self]
          have hblock :
              (constScope sem (mirror decls) bindingScope merged value').builtin f = true := by
            simp only [constScope, declOf_mirror_predeclared hmem, bindingScope,
              Option.isNone_none, Bool.and_self]
          simp only [hf] at h ⊢
          rw [if_pos ⟨hmem, hown⟩] at h
          rw [if_pos ⟨hmem, hblock⟩]
          obtain ⟨vs, hvs, hv⟩ := Option.bind_eq_some_iff.mp h
          rw [evalExprs_mirror same args hargs vs hvs]
          exact hv
  | .selector _ _, hs, _, _ => by simp only [steady, Bool.false_eq_true] at hs
  | .index _ _, hs, _, _ => by simp only [steady, Bool.false_eq_true] at hs
  | .star _ _, hs, _, _ => by simp only [steady, Bool.false_eq_true] at hs
  | .other _ _ _, hs, _, _ => by simp only [steady, Bool.false_eq_true] at hs

/-- Steady expressions have the same values in the block. -/
theorem evalExprs_mirror {own merged : Nat} {value value' : Text → Option V}
    (same : SameValues decls value value') :
    (es : List Expr) → steadyAll outer decls own merged es = true → (vs : List V) →
    evalExprs sem (constScope sem decls outer own value) es = some vs →
    evalExprs sem (constScope sem (mirror decls) bindingScope merged value') es = some vs
  | [], _, vs, h => h
  | e :: rest, hs, vs, h => by
      rw [evalExprs] at h ⊢
      rw [steadyAll, Bool.and_eq_true] at hs
      obtain ⟨a, ha, hrest⟩ := Option.bind_eq_some_iff.mp h
      obtain ⟨as, has, hvs⟩ := Option.map_eq_some_iff.mp hrest
      rw [evalExpr_mirror same e hs.1 a ha, evalExprs_mirror same rest hs.2 as has]
      exact congrArg some hvs
end

/-- The value of a constant in the block: the value of its expression, before the conversion
to the declared type. -/
theorem evalConst_mirror
    (distinct : decls.Pairwise fun d d' => d.name ≠ ['_'] → pascalCase d.name ≠ pascalCase d'.name)
    (hsteady : ∀ p ∈ decls.zipIdx, steady outer decls p.1.iota p.2 p.1.value = true)
    (depth : Nat) {w : Text} (hw : w ≠ ['_']) {v : V}
    (h : evalConst sem decls outer depth w = some v) :
    ∃ d v', declOf decls w = some d ∧
      evalConst sem (mirror decls) bindingScope depth (pascalCase w) = some v' ∧
      (d.type = none → v' = v) ∧ ∀ t, d.type = some t → sem.convert t v' = some v := by
  induction depth generalizing w v with
  | zero => cases h
  | succ depth ih =>
      rw [evalConst] at h
      obtain ⟨d, hd, hrest⟩ := Option.bind_eq_some_iff.mp h
      obtain ⟨v', hv', hconv⟩ := Option.bind_eq_some_iff.mp hrest
      obtain ⟨j, hj, hblock⟩ := declOf_mirror distinct hw hd
      -- untyped constants keep their values, by induction on the depth of references
      have same : SameValues decls (evalConst sem decls outer depth)
          (evalConst sem (mirror decls) bindingScope depth) := by
        intro u du hu htype hpascal hblank
        obtain ⟨_, _, hfound⟩ := declOf_mirror distinct hblank hu
        rw [hpascal] at hfound
        refine ⟨by rw [hfound]; rfl, fun a ha => ?_⟩
        obtain ⟨d', a', hd', ha', hnone, -⟩ := ih hblank ha
        rw [hu, Option.some.injEq] at hd'
        rw [hpascal, hnone (hd' ▸ htype)] at ha'
        exact ha'
      refine ⟨d, v', hd, ?_, fun htype => ?_, fun t htype => ?_⟩
      · have hplace := hsteady (d, j) (List.mem_zipIdx_iff_getElem?.mpr hj)
        rw [evalConst, hblock, Option.bind_some, evalExpr_mirror same d.value hplace v' hv']
        rfl
      · rw [htype] at hconv
        exact Option.some.inj hconv
      · rw [htype] at hconv
        exact hconv

end Evaluation

/-- `formatIdent` inlines the value of a constant. -/
theorem formatIdent_const {prog : Program} {aliases : Aliases} {id : Ident} {obj : Obj}
    {val : ConstVal} (huses : prog.info.uses id = some obj) (hkind : obj.kind = .const val)
    (halias : aliases.lookup obj.decl = none) :
    formatIdent prog aliases id = val.exactString := by
  simp only [formatIdent, huses, halias, hkind]

/-- **The kernel and the userspace constants agree** in a package where every constant has
an expression of its own that means the same in the merged block, the capitalised names are
distinct and no declared type rounds. -/
theorem publishedConsts_agree {V : Type} (sem : ConstSem V) (outer : ConstScope V)
    (position : Pos → Position) (groups : List (List ValueSpec))
    (h : Mirrorable sem outer groups) : ConstsAgree sem outer position groups := by
  intro d hmem hname
  rw [publishedConsts_own position h.own]
  obtain ⟨d₀, hd₀⟩ : ∃ d₀, declOf (effective groups) d.name = some d₀ :=
    Option.isSome_iff_exists.mp (List.find?_isSome.mpr ⟨d, hmem, beq_self_eq_true _⟩)
  obtain ⟨_, _, hfound⟩ := declOf_mirror h.distinct hname hd₀
  refine ⟨by rw [hfound]; rfl, fun depth v hv => ?_⟩
  obtain ⟨d', v', hd', hv', hnone, hsome⟩ :=
    evalConst_mirror h.distinct h.steady depth hname hv
  have hval : sem.val v' = sem.val v := by
    cases htype : d'.type with
    | none => rw [hnone htype]
    | some t => exact (h.exact d' (List.mem_of_find?_eq_some hd') t htype v' v (hsome t htype)).symm
  refine ⟨v', hv', hval, fun prog aliases id obj huses hkind halias => ?_⟩
  rw [formatIdent_const huses hkind halias, hval]

/-! ## Integer constants -/

/-- The decimal number of a literal. -/
def decimal (text : Text) : Int :=
  text.foldl (fun n c => 10 * n + (c.toNat - '0'.toNat : Nat)) 0

/-- The integer types a constant can be converted to, with their ranges. -/
def intRanges : List (Text × Int × Int) :=
  [("int8", -128, 127), ("int16", -32768, 32767), ("int32", -2147483648, 2147483647),
    ("uint8", 0, 255), ("uint16", 0, 65535), ("uint32", 0, 4294967295)]

/-- Conversion of an integer constant, an error if it does not fit. -/
def convertInt (type : Text) : ConstVal → Option ConstVal
  | .int n =>
      match intRanges.lookup type with
      | some (lo, hi) => if lo ≤ n ∧ n ≤ hi then some (.int n) else none
      | none => none
  | _ => none

/-- Integer constants with sums, products, shifts and conversions. -/
def intSem : ConstSem ConstVal where
  lit
    | .int, text => some (.int (decimal text))
    | .string, text => some (.string text)
    | _, _ => none
  iota k := .int k
  bool := .bool
  unary
    | .sub, .int n => some (.int (-n))
    | .not, .bool b => some (.bool !b)
    | _, _ => none
  binary
    | .add, .int a, .int b => some (.int (a + b))
    | .sub, .int a, .int b => some (.int (a - b))
    | .mul, .int a, .int b => some (.int (a * b))
    | .shl, .int a, .int b => some (.int (a * 2 ^ b.toNat))
    | _, _, _ => none
  call
    | f, [v] => convertInt f v
    | _, _ => none
  convert
    | .ident id, v => convertInt id.name v
    | _, _ => none
  val v := v

/-- The positions of a file. -/
def constPosition (pos : Pos) : Position := ⟨"kinds.go", 1, pos⟩

/-- A file that declares and imports nothing but constants. -/
def constFile : ConstScope ConstVal where
  ref _ := none
  builtin _ := true

/-- No conversion of an integer constant changes its value. -/
theorem intSem_convert {t : Expr} {v v' : ConstVal} (h : intSem.convert t v = some v') :
    intSem.val v' = intSem.val v := by
  simp only [intSem, convertInt] at h
  split at h
  · split at h
    · split at h
      · split at h
        · exact (Option.some.inj h).symm
        · cases h
      · cases h
    · cases h
  · cases h

/-- The groups of
`const ( KindExec = iota; KindExit = KindExec + 1 )` and `const maxLen uint32 = 16`. -/
def kindGroups : List (List ValueSpec) :=
  [[.mk [⟨"KindExec", 1⟩] none [.ident ⟨"iota", 2⟩],
      .mk [⟨"KindExit", 3⟩] none
        [.binary (.ident ⟨"KindExec", 4⟩) .add (.basicLit 5 .int "1")]],
    [.mk [⟨"maxLen", 6⟩] (some (.ident ⟨"uint32", 7⟩)) [.basicLit 8 .int "16"]]]

theorem kindGroups_agree :
    Mirrorable intSem constFile kindGroups ∧
      ConstsAgree intSem constFile constPosition kindGroups := by
  have h : Mirrorable intSem constFile kindGroups := by
    exact ⟨by decide, by decide, by decide, fun _ _ _ _ _ _ hv => intSem_convert hv⟩
  exact ⟨h, publishedConsts_agree intSem constFile constPosition kindGroups h⟩

/-- The group `const ( KindExec = iota; KindExit )`. -/
def repeatedGroups : List (List ValueSpec) :=
  [[.mk [⟨"KindExec", 1⟩] none [.ident ⟨"iota", 2⟩], .mk [⟨"KindExit", 3⟩] none []]]

/-- The type checker gives the second constant the value 1, and the bindings do not have
it. -/
theorem repeatedGroups_disagree :
    evalConst intSem (effective repeatedGroups) constFile 1 "KindExit" = some (.int 1) ∧
      ¬ConstsAgree intSem constFile constPosition repeatedGroups := by
  refine ⟨by decide, fun h => ?_⟩
  have hmirror := h ⟨"KindExit", 1, none, .ident ⟨"iota", 2⟩⟩
    (List.mem_cons_of_mem _ List.mem_cons_self) (by decide)
  have hlost : (declOf (publishedConsts (collectConsts constPosition repeatedGroups))
      (pascalCase "KindExit")).isSome = false := rfl
  cases hlost.symm.trans hmirror.1

end Gobee
