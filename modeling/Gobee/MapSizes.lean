/-
# Map sizes

The size of a map is read off the spelling of the literal with `strconv.Atoi`, which knows
decimal numbers only; Go reads digits behind a leading zero as octal.

* `decimal_eq_octal_iff` : when the two readings agree;
* `sizeDeclared_iff` : **which literals give a map the size that Go gives them**.
-/
import Gobee.Literals
import Gobee.Parse
import Gobee.SourceMap

namespace Gobee

open CSyntax EmitM

/-! ## Decimal and octal -/

/-- From larger accumulators on, the decimal number is larger. -/
theorem octal_lt_decimal {ds : Text} : ∀ {a b u v : Nat}, digitsFrom 10 a ds = some u →
    digitsFrom 8 b ds = some v → b ≤ a → v ≤ u ∧ b ≤ v ∧ (b < a → v < u) := by
  induction ds with
  | nil =>
      intro a b u v hu hv hle
      cases hu
      cases hv
      exact ⟨hle, Nat.le_refl _, id⟩
  | cons c ds ih =>
      intro a b u v hu hv hle
      rw [digitsFrom] at hu hv
      cases hd : digitValue c with
      | none =>
          rw [hd] at hu
          cases hu
      | some d =>
          rw [hd] at hu hv
          simp only at hu hv
          split_ifs at hu hv
          obtain ⟨h₁, h₂, h₃⟩ := ih hu hv (by omega)
          exact ⟨h₁, by omega, fun hlt => h₃ (by omega)⟩

/-- **The readings agree exactly on numbers of one digit.** -/
theorem decimal_eq_octal_iff {ds : Text} {u v : Nat} (hu : digitsFrom 10 0 ds = some u)
    (hv : digitsFrom 8 0 ds = some v) : u = v ↔ v < 8 := by
  induction ds with
  | nil =>
      cases hu
      cases hv
      exact iff_of_true rfl (by decide)
  | cons c ds ih =>
      rw [digitsFrom] at hu hv
      cases hd : digitValue c with
      | none =>
          rw [hd] at hu
          cases hu
      | some d =>
          rw [hd] at hu hv
          simp only [Nat.mul_zero, Nat.zero_add] at hu hv
          split_ifs at hu hv with h₁₀ h₈
          by_cases hzero : d = 0
          · rw [hzero] at hu hv
            exact ih hu hv
          · cases ds with
            | nil =>
                cases hu
                cases hv
                exact iff_of_true rfl h₈
            | cons e es =>
                -- two digits, the first of them not zero
                rw [digitsFrom] at hu hv
                cases he : digitValue e with
                | none =>
                    rw [he] at hu
                    cases hu
                | some n =>
                    rw [he] at hu hv
                    simp only at hu hv
                    split_ifs at hu hv
                    obtain ⟨-, hlow, hlt⟩ := octal_lt_decimal hu hv (by omega)
                    have hne := hlt (by omega)
                    exact iff_of_false (by omega) (by omega)

/-! ## `strconv.Atoi` -/

/-- The value of a decimal digit. -/
theorem digitValue_isDigit {c : Char} (h : c.isDigit = true) :
    digitValue c = some (c.toNat - '0'.toNat) ∧ c.toNat - '0'.toNat < 10 := by
  obtain ⟨hlow, hhigh⟩ := Char.isDigit_iff_toNat.mp h
  refine ⟨by rw [digitValue, if_pos h], ?_⟩
  have hzero : '0'.toNat = 48 := rfl
  have hnine : '9'.toNat = 57 := rfl
  omega

theorem digitsFrom_decimal {w : Text} (h : ∀ c ∈ w, c.isDigit = true) (a : Nat) :
    digitsFrom 10 a w = some (w.foldl (fun n c => 10 * n + (c.toNat - '0'.toNat)) a) := by
  induction w generalizing a with
  | nil => rfl
  | cons c w ih =>
      rw [List.forall_mem_cons] at h
      obtain ⟨hvalue, hlt⟩ := digitValue_isDigit h.1
      rw [digitsFrom, hvalue, List.foldl_cons]
      simp only
      rw [if_pos hlt, ih h.2]

/-- What `Atoi` accepts are decimal digits. -/
theorem atoi_ok {w : Text} {n : Nat} (h : atoi w = .ok n) :
    w ≠ [] ∧ (∀ c ∈ w, c.isDigit = true) ∧ digitsFrom 10 0 w = some n := by
  rw [atoi] at h
  split_ifs at h with hdigit hrange
  · cases h
  · cases h
  · simp only [Bool.or_eq_true, List.isEmpty_iff, Bool.not_eq_true', not_or,
      Bool.not_eq_false] at hdigit
    have hdigits := List.all_eq_true.mp hdigit.2
    refine ⟨hdigit.1, hdigits, ?_⟩
    rw [digitsFrom_decimal hdigits]
    cases h
    rfl

/-- The literal is octal without a prefix, of two digits at least. -/
def LegacyOctal (w : Text) : Prop := w.head? = some '0' ∧ 8 ≤ (goInteger w).getD 0

/-- **`Atoi` finds the value of the literal, unless it is octal.** -/
theorem atoi_eq_goInteger_iff {w : Text} {n v : Nat} (hn : atoi w = .ok n)
    (hv : goInteger w = some v) : n = v ↔ ¬ LegacyOctal w := by
  obtain ⟨hne, hdigits, hdecimal⟩ := atoi_ok hn
  have hplain : '_' ∉ w := fun hmem => absurd (hdigits _ hmem) (by decide)
  have hlegacy : LegacyOctal w ↔ w.head? = some '0' ∧ 8 ≤ v := by
    rw [LegacyOctal, hv, Option.getD_some]
  obtain ⟨c, rest, rfl⟩ := List.exists_cons_of_ne_nil hne
  have hdigit : ∀ d : Char, d.isDigit = false → d ∉ c :: rest := by
    intro d hd hmem
    rw [hdigits d hmem] at hd
    cases hd
  by_cases hc : c = '0'
  · subst hc
    cases rest with
    | nil =>
        cases hv
        cases hdecimal
        exact iff_of_true rfl fun h => absurd (hlegacy.mp h).2 (by decide)
    | cons p ds =>
        have hp : ∀ d : Char, d.isDigit = false → p ≠ d := by
          rintro d hd rfl
          exact hdigit p hd (List.mem_cons_of_mem _ List.mem_cons_self)
        -- the digits are read in base 8
        have hoctal : digitsFrom 8 0 ('0' :: p :: ds) = some v := by
          have hno : '_' ∉ p :: ds := fun hmem => hplain (List.mem_cons_of_mem _ hmem)
          have hgo : goInteger ('0' :: p :: ds) = goDigits 8 (p :: ds) := by
            rw [goInteger, if_neg (not_or.mpr ⟨hp 'x' rfl, hp 'X' rfl⟩),
              if_neg (not_or.mpr ⟨hp 'b' rfl, hp 'B' rfl⟩),
              if_neg (not_or.mpr ⟨hp 'o' rfl, hp 'O' rfl⟩)]
          rw [hgo] at hv
          have hvalue := goDigits_plain hno hv
          rw [digitsValue, if_neg (List.cons_ne_nil _ _)] at hvalue
          rw [digitsFrom]
          exact hvalue
        rw [decimal_eq_octal_iff hdecimal hoctal, hlegacy]
        simp
  · have hc' : c ≠ '_' := fun heq => hplain (heq ▸ List.mem_cons_self)
    have hgo : goInteger (c :: rest) = goDigits 10 (c :: rest) := by
      unfold goInteger
      split
      · next heq => exact absurd (List.cons.inj heq).1 hc
      · next heq => exact absurd (List.cons.inj heq).1 hc
      · next heq => cases heq
      · next heq =>
          cases heq
          rw [if_neg hc']
    rw [hgo] at hv
    have hvalue := goDigits_plain hplain hv
    rw [digitsValue, if_neg (List.cons_ne_nil _ _), hdecimal] at hvalue
    refine iff_of_true (Option.some.inj hvalue) fun h => hc ?_
    simpa using (hlegacy.mp h).1

/-! ## The declaration -/

/-- The value of an element for the key `MaxEntries`. -/
def entriesValue : Node → Option Node
  | .expr (.other .keyValue _ [.expr (.ident key), value]) =>
      if key.name = "MaxEntries" then some value else none
  | _ => none

/-- What the source gives for `MaxEntries`. -/
def entriesGiven : Option Expr → List Node
  | some (.other .compositeLit _ (_ :: elts)) => elts.filterMap entriesValue
  | _ => []

theorem entriesValue_of_shape {pos : Pos} {children : List Node}
    (h : ∀ key value, children = [.expr (.ident key), value] → False) :
    entriesValue (.expr (.other .keyValue pos children)) = none := by
  unfold entriesValue
  split
  · next key value heq =>
      cases heq
      exact absurd rfl (h key value)
  · rfl

theorem literalEntries_ok {pos name : Text} {elts : List Node} :
    ∀ {m n : Nat}, literalEntries pos name elts m = .ok n →
      (elts.filterMap entriesValue = [] ∧ n = m) ∨
        ∃ v ∈ elts.filterMap entriesValue, maxEntriesOf pos v = .ok n := by
  induction elts with
  | nil =>
      intro m n h
      cases h
      exact .inl ⟨rfl, rfl⟩
  | cons elt elts ih =>
      intro m n h
      unfold literalEntries at h
      split at h
      · next heq => cases heq
      · next key value rest heq =>
          cases heq
          by_cases hkey : key.name = "MaxEntries"
          · rw [if_pos hkey] at h
            obtain ⟨m', hm', h⟩ := bind_ok h
            have hvalue : ∀ i, entriesValue
                (.expr (.other .keyValue i [.expr (.ident key), value])) = some value :=
              fun i => if_pos hkey
            rw [List.filterMap_cons, hvalue]
            rcases ih h with ⟨-, rfl⟩ | ⟨v, hv, hn⟩
            · exact .inr ⟨value, List.mem_cons_self, hm'⟩
            · exact .inr ⟨v, List.mem_cons_of_mem _ hv, hn⟩
          · rw [if_neg hkey] at h
            have hvalue : ∀ i, entriesValue
                (.expr (.other .keyValue i [.expr (.ident key), value])) = none :=
              fun i => if_neg hkey
            rw [List.filterMap_cons, hvalue]
            exact ih h
      · next hshape heq =>
          cases heq
          rw [List.filterMap_cons, entriesValue_of_shape hshape]
          exact ih h
      · cases h

theorem mapMaxEntries_ok {pos name goType : Text} {optional : Bool} {value : Option Expr} {n : Nat}
    (h : mapMaxEntries pos name goType optional value = .ok n) :
    (entriesGiven value = [] ∧ n = 0) ∨
      ∃ v ∈ entriesGiven value, maxEntriesOf pos v = .ok n := by
  unfold mapMaxEntries at h
  split at h
  · split_ifs at h
    · cases h
      exact .inl ⟨rfl, rfl⟩
    · cases h
  · obtain ⟨m, hm, h⟩ := bind_ok h
    split_ifs at h
    · cases h
    · cases h
      exact literalEntries_ok hm
  · cases h

theorem maxEntriesOf_ok {pos : Text} {v : Node} {n : Nat} (h : maxEntriesOf pos v = .ok n) :
    ∃ at' w, v = .expr (.basicLit at' .int w) ∧ atoi w = .ok n ∧ n ≠ 0 := by
  unfold maxEntriesOf at h
  split at h
  · obtain ⟨m, hm, h⟩ := bind_ok h
    split_ifs at h with hzero
    · cases h
    · cases h
      exact ⟨_, _, rfl, wrapError_ok hm, hzero⟩
  · cases h

theorem tryBuildMapDecl_ok {file : File} {id : Ident} {value : Option Expr} {spec : Pos}
    {md : MapDecl} (h : tryBuildMapDecl file id value spec = .ok (some md)) :
    ∃ goType optional, mapMaxEntries (file.posText id.pos) id.name goType optional value =
      .ok md.maxEntries := by
  unfold tryBuildMapDecl at h
  simp only at h
  split at h
  · split_ifs at h
    · split at h
      · cases h
      · obtain ⟨⟨keyType, valType⟩, -, h⟩ := bind_ok h
        obtain ⟨n, hn, h⟩ := bind_ok h
        cases h
        exact ⟨_, _, hn⟩
    · cases h
  · cases h

/-! ## The `max_entries` line -/

/-- The line that gives a size. -/
def sizeLine (n : Nat) : Text := "\t__uint(max_entries, " ++ itoa n ++ ");\n"

/-- An action that writes such a line. -/
def isSizeLine : Act → Bool
  | .writef s => ("\t__uint(max_entries, " : Text).isPrefixOf s
  | _ => false

/-- The size lines among the actions are these. -/
def Sizes (lines as : List Act) : Prop := as.filter isSizeLine = lines

/-- The storage maps, whose Go types have no fields. -/
def objectStorage : List Text := ["task_storage", "sk_storage", "inode_storage"]

/-- The size lines of a map. -/
def sizeLines (m : MapDecl) : List Act :=
  if m.type ∈ objectStorage ∨ m.maxEntries = 0 then [] else [.writef (sizeLine m.maxEntries)]

section

variable {α β : Type} {lines : List Act}

theorem sizes_then {a : Act} {f : Unit → EmitM β} (ha : isSizeLine a = false)
    (hf : ∀ u, Emits (Sizes lines) (f u)) : Emits (Sizes lines) (perform a >>= f) :=
  Emits.bind (Emits.perform (show Sizes [] [a] from List.filter_cons_of_neg (by simp [ha]))) hf
    fun as bs has hbs => by rw [Sizes, List.filter_append, has, hbs, List.nil_append]

theorem sizes_lift_then {x : Result α} {f : α → EmitM β} (hf : ∀ a, Emits (Sizes lines) (f a)) :
    Emits (Sizes lines) (lift x >>= f) := Silent.bind (silent_lift x) hf

end

theorem sizes_writeMapEnd (m : MapDecl) :
    Emits (Sizes (if m.maxEntries = 0 then [] else [.writef (sizeLine m.maxEntries)]))
      (writeMapEnd m) := by
  have hend : Emits (Sizes []) (writef ("\x7d " ++ m.name ++ " SEC(\".maps\");\n\n")) :=
    Emits.perform rfl
  unfold writeMapEnd
  by_cases hmax : 0 < m.maxEntries
  · rw [if_neg (Nat.ne_of_gt hmax)]
    simp only [hmax, if_true]
    have hline : Emits (Sizes [.writef (sizeLine m.maxEntries)])
        (writef (sizeLine m.maxEntries)) := Emits.perform (List.filter_cons_of_pos rfl)
    exact Emits.bind hline (fun _ => hend) fun as bs has hbs => by
      rw [Sizes, List.filter_append, has, hbs]
      rfl
  · rw [if_pos (Nat.eq_zero_of_not_pos hmax)]
    simp only [hmax, if_false]
    exact hend

theorem sizes_writeMapTypes (m : MapDecl) : Emits (Sizes (sizeLines m)) (writeMapTypes m) := by
  have hother : m.type ∉ objectStorage → Emits (Sizes (sizeLines m)) (writeMapEnd m) := by
    intro h
    have hlines : sizeLines m =
        if m.maxEntries = 0 then [] else [.writef (sizeLine m.maxEntries)] := by
      rw [sizeLines]
      simp only [h, false_or]
    rw [hlines]
    exact sizes_writeMapEnd m
  unfold writeMapTypes
  split_ifs with h₁ h₂ h₃ h₄ h₅
  · refine hother ?_
    rw [h₁]
    decide
  · refine sizes_lift_then fun _ => sizes_then rfl fun _ => hother ?_
    rcases h₂ with h | h | h <;> rw [h] <;> decide
  · refine sizes_then rfl fun _ => sizes_then rfl fun _ => hother ?_
    rcases h₃ with h | h | h | h <;> rw [h] <;> decide
  · refine sizes_then rfl fun _ => sizes_then rfl fun _ => hother ?_
    rw [h₄]
    decide
  · have hnone : sizeLines m = [] := by
      refine if_pos (.inl ?_)
      simpa [objectStorage] using h₅
    rw [hnone]
    refine sizes_lift_then fun _ => sizes_then rfl fun _ => sizes_then rfl fun _ => ?_
    exact sizes_then rfl fun _ => Emits.perform rfl
  · have hstorage : m.type ∉ objectStorage := by simpa [objectStorage] using h₅
    split
    · exact Emits.fail _
    · exact sizes_lift_then fun _ => sizes_lift_then fun _ => sizes_then rfl fun _ =>
        sizes_then rfl fun _ => hother hstorage

/-- **The size lines of `writeMap`.** -/
theorem sizes_writeMap (m : MapDecl) : Emits (Sizes (sizeLines m)) (writeMap m) := by
  have hdef : Emits (Sizes (sizeLines m)) (writeMapDef m) :=
    sizes_lift_then fun _ => sizes_then rfl fun _ => sizes_then rfl fun _ => sizes_writeMapTypes m
  unfold writeMap
  split
  · exact sizes_then rfl fun _ => hdef
  · exact hdef

/-! ## Declared sizes -/

/-- What the scanner, the type checker and the map types of the `bpf` package promise about a
literal that was accepted. -/
structure SizeFacts (value : Option Expr) (md : MapDecl) : Prop where
  literals : ∀ pos w, .expr (.basicLit pos .int w) ∈ entriesGiven value →
    (goInteger w).isSome = true
  once : (entriesGiven value).length ≤ 1
  storage : md.type ∈ objectStorage → entriesGiven value = []

/-- The map has the declared size: a literal for `MaxEntries` gives its value, which is printed
on the one line for it, and without the line the source gives none. -/
structure SizeDeclared (value : Option Expr) (md : MapDecl) : Prop where
  given : ∀ pos w, .expr (.basicLit pos .int w) ∈ entriesGiven value →
    ∃ v, goInteger w = some v ∧ md.maxEntries = v ∧ ∀ n n' acts,
      writeMap md n = .ok ((), n', acts) → acts.filter isSizeLine = [.writef (sizeLine v)]
  omitted : ∀ n n' acts, writeMap md n = .ok ((), n', acts) → acts.filter isSizeLine = [] →
    entriesGiven value = []

section

variable {file : File} {id : Ident} {value : Option Expr} {spec : Pos} {md : MapDecl}

/-- What an accepted declaration gives, and the size that is kept. -/
theorem entriesGiven_cases (h : tryBuildMapDecl file id value spec = .ok (some md))
    (hfacts : SizeFacts value md) :
    (entriesGiven value = [] ∧ md.maxEntries = 0) ∨
      ∃ pos w v, entriesGiven value = [.expr (.basicLit pos .int w)] ∧
        atoi w = .ok md.maxEntries ∧ md.maxEntries ≠ 0 ∧ goInteger w = some v ∧
        md.type ∉ objectStorage := by
  obtain ⟨goType, optional, hsize⟩ := tryBuildMapDecl_ok h
  rcases mapMaxEntries_ok hsize with ⟨hnone, hzero⟩ | ⟨node, hmem, hnode⟩
  · exact .inl ⟨hnone, hzero⟩
  · obtain ⟨pos, w, rfl, hatoi, hne⟩ := maxEntriesOf_ok hnode
    obtain ⟨v, hv⟩ := Option.isSome_iff_exists.mp (hfacts.literals pos w hmem)
    refine .inr ⟨pos, w, v, ?_, hatoi, hne, hv, fun hstorage => ?_⟩
    · cases hgiven : entriesGiven value with
      | nil =>
          rw [hgiven] at hmem
          cases hmem
      | cons a rest =>
          have honce := hfacts.once
          rw [hgiven] at hmem honce
          obtain rfl : rest = [] := by simpa using honce
          rw [List.mem_singleton.mp hmem]
    · rw [hfacts.storage hstorage] at hmem
      cases hmem

/-- **When a map has its declared size**: unless the literal is octal without a prefix. -/
theorem sizeDeclared_iff (h : tryBuildMapDecl file id value spec = .ok (some md))
    (hfacts : SizeFacts value md) :
    SizeDeclared value md ↔
      ∀ pos w, .expr (.basicLit pos .int w) ∈ entriesGiven value → ¬ LegacyOctal w := by
  have hlines : ∀ {n n' acts}, writeMap md n = .ok ((), n', acts) →
      acts.filter isSizeLine = sizeLines md :=
    fun hwrite => sizes_writeMap md _ _ (out_eq_some.mpr hwrite)
  rcases entriesGiven_cases h hfacts with ⟨hnone, -⟩ | ⟨pos, w, v, hgiven, hatoi, hne, hv, hkind⟩
  · refine iff_of_true ⟨?_, fun _ _ _ _ _ => hnone⟩ ?_
    · intro pos w hmem
      rw [hnone] at hmem
      cases hmem
    · intro pos w hmem
      rw [hnone] at hmem
      cases hmem
  · have hsizes : sizeLines md = [.writef (sizeLine md.maxEntries)] :=
      if_neg (not_or.mpr ⟨hkind, hne⟩)
    have hmem : .expr (.basicLit pos .int w) ∈ entriesGiven value := by
      rw [hgiven]
      exact List.mem_singleton_self _
    constructor
    · intro hsize pos' w' hmem'
      obtain ⟨v', hv', hmax, -⟩ := hsize.given pos' w' hmem'
      rw [hgiven, List.mem_singleton] at hmem'
      cases hmem'
      exact (atoi_eq_goInteger_iff hatoi hv').mp hmax
    · intro hliteral
      have hmax : md.maxEntries = v := (atoi_eq_goInteger_iff hatoi hv).mpr (hliteral pos w hmem)
      refine ⟨?_, ?_⟩
      · intro pos' w' hmem'
        rw [hgiven, List.mem_singleton] at hmem'
        cases hmem'
        refine ⟨v, hv, hmax, fun n n' acts hwrite => ?_⟩
        rw [hlines hwrite, hsizes, hmax]
      · intro n n' acts hwrite hno
        rw [hlines hwrite, hsizes] at hno
        cases hno

end

/-! ## Two declarations -/

/-- `bpf.ArrayMap[uint32, uint32]{MaxEntries: w}`. -/
def arrayLiteral (w : Text) : Option Expr :=
  some (.other .compositeLit 40 [.expr (.other .indexList 40
      [.expr (.selector (.ident ⟨"bpf", 40⟩) ⟨"ArrayMap", 44⟩), .expr (.ident ⟨"uint32", 53⟩),
        .expr (.ident ⟨"uint32", 61⟩)]),
    .expr (.other .keyValue 69 [.expr (.ident ⟨"MaxEntries", 69⟩), .expr (.basicLit 81 .int w)])])

/-- A file whose only variable has the type of the literal. -/
def arrayFile : File where
  pos := 1
  comments := []
  imports := []
  decls := []
  position := fun p => ⟨"x.go", p, 1⟩
  info :=
    { uses := fun _ => none
      defs := [(⟨"slots", 30⟩, some ⟨⟨"slots", 30⟩, .var, .named ⟨some bpfPkgPath, "ArrayMap"⟩
        [.basic .uint32, .basic .uint32]⟩)]
      typeOf := fun _ => none
      underlying := fun _ _ => .other }

/-- The map `slots` of the given size. -/
def slotsMap (n : Nat) : MapDecl :=
  ⟨"slots", ⟨"x.go", 30, 1⟩, "array", some (.basic .uint32), some (.basic .uint32), n, some 30⟩

theorem entriesGiven_arrayLiteral (w : Text) :
    entriesGiven (arrayLiteral w) = [.expr (.basicLit 81 .int w)] := rfl

theorem arrayLiteral_facts {w : Text} (n : Nat) (h : (goInteger w).isSome = true) :
    SizeFacts (arrayLiteral w) (slotsMap n) := by
  refine ⟨?_, Nat.le_refl 1, fun hstorage => absurd hstorage ?_⟩
  · intro pos w' hmem
    rw [entriesGiven_arrayLiteral, List.mem_singleton] at hmem
    cases hmem
    exact h
  · have hkind : ("array" : Text) ∉ objectStorage := by decide
    exact hkind

/-- `MaxEntries: 16` is 16. -/
theorem slots_declared :
    tryBuildMapDecl arrayFile ⟨"slots", 30⟩ (arrayLiteral "16") 30 = .ok (some (slotsMap 16)) ∧
      SizeDeclared (arrayLiteral "16") (slotsMap 16) := by
  have hbuild : tryBuildMapDecl arrayFile ⟨"slots", 30⟩ (arrayLiteral "16") 30 =
      .ok (some (slotsMap 16)) := rfl
  refine ⟨hbuild, (sizeDeclared_iff hbuild (arrayLiteral_facts 16 (by decide))).mpr ?_⟩
  intro pos w hmem
  rw [entriesGiven_arrayLiteral, List.mem_singleton] at hmem
  cases hmem
  rintro ⟨hhead, -⟩
  revert hhead
  decide

/-- `MaxEntries: 010` is 8 for Go and 10 in C. -/
theorem octalSlots_misread :
    tryBuildMapDecl arrayFile ⟨"slots", 30⟩ (arrayLiteral "010") 30 = .ok (some (slotsMap 10)) ∧
      goInteger "010" = some 8 ∧ ¬ SizeDeclared (arrayLiteral "010") (slotsMap 10) := by
  have hvalue : goInteger "010" = some 8 := by decide
  refine ⟨rfl, hvalue, fun h => ?_⟩
  obtain ⟨v, hv, hmax, -⟩ := h.given 81 "010" (List.mem_singleton_self _)
  rw [hvalue] at hv
  cases hv
  exact absurd hmax (by decide)

end Gobee
