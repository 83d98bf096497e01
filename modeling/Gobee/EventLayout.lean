/-
# The layout of user structs

A user struct is emitted as a C struct, and the bindings publish the Go struct as it
stands, for `encoding/binary` to read.  The C struct is read here from the text of its
member declarations (`readCType`), its nested structs by their tags; the Go struct from
the types of its fields.  Both have the same shape (`cStruct_of_goStruct`), but clang
lays it out with padding and `encoding/binary` without.

`writeUserType_layout_iff` : **the layouts agree exactly for structs without pointers in
which every packed offset is aligned and every packed size a multiple of the
alignment.**
-/
import Gobee.EmitProgram
import Gobee.StmtTree
import Gobee.Layout

namespace Gobee

open EmitM Layout

variable {prog : Program}

/-! ## Emitted members -/

/-- A member declaration: its C type, its name, and its length if it is an array. -/
structure Member where
  cType : Text
  name : Text
  len : Option Nat

/-- The text of a member declaration. -/
def Member.text (m : Member) : Text :=
  match m.len with
  | some len => m.cType ++ " " ++ m.name ++ "[" ++ itoa len ++ "];\n"
  | none => declString m.cType m.name ++ ";\n"

/-- The member a field is emitted as. -/
def memberOf (f : StructField) : Option Member :=
  match f.type with
  | .array elem len => (goTypeToC elem).toOption.map fun c => ⟨c, f.name, some len⟩
  | t => (goTypeToC t).toOption.map fun c => ⟨c, f.name, none⟩

theorem toOption_memberDecl (f : StructField) :
    (memberDecl f).toOption = (memberOf f).map Member.text := by
  have hmap : ∀ (r : Result Text) (g : Text → Text),
      (do let c ← r; return g c : Result Text).toOption = r.toOption.map g := by
    intro r g
    cases r <;> rfl
  obtain ⟨fname, type, tag⟩ := f
  cases type <;> exact (hmap _ _).trans (by rw [memberOf, Option.map_map]; rfl)

/-- The members of a struct. -/
def membersOf : List StructField → Option (List Member)
  | [] => some []
  | f :: fields => do
      let m ← memberOf f
      let ms ← membersOf fields
      return m :: ms

/-- The members of a user type. -/
def members (prog : Program) (t : UserTypeDecl) : Option (List Member) :=
  match prog.info.underlying t.type [] with
  | .struct fields => membersOf fields
  | _ => none

/-- The actions that write the members. -/
def memberActs (ms : List Member) : List Act :=
  ms.flatMap fun m => [.writeIndent, .writef m.text]

/-- The actions of `writeUserType`. -/
def userTypeActs (t : UserTypeDecl) (ms : List Member) : List Act :=
  .recordPos t.specPos :: .writef ("struct " ++ t.name ++ " \x7b\n") :: .indent ::
    (memberActs ms ++ [.dedent, .writeln "\x7d;", .writeln []])

theorem out_writeFields (t : UserTypeDecl) (fields : List StructField) (n : Names) :
    out (writeFields t fields) n = (membersOf fields).map fun ms => ((), n, memberActs ms) := by
  induction fields with
  | nil => rfl
  | cons f fields ih =>
      rw [writeFields, membersOf, out_bind, writeIndent, out_perform, Option.bind_some, out_bind,
        out_lift, toOption_wrapError, toOption_memberDecl]
      cases memberOf f with
      | none => rfl
      | some m =>
          simp only [Option.map_some, Option.bind_some, Option.bind_eq_bind]
          rw [out_bind, writef, out_perform, Option.bind_some, ih]
          cases membersOf fields with
          | none => rfl
          | some ms => rfl

/-- **`writeUserType` writes the members of the struct.** -/
theorem out_writeUserType (t : UserTypeDecl) (n : Names) :
    out (writeUserType prog t) n = (members prog t).map fun ms => ((), n, userTypeActs t ms) := by
  rw [writeUserType, out_bind, recordPos, out_perform, Option.bind_some]
  unfold writeStruct members
  cases prog.info.underlying t.type [] with
  | struct fields =>
      simp only
      rw [out_bind, writef, out_perform, Option.bind_some, out_bind, out_indented, out_writeFields]
      cases membersOf fields with
      | none => rfl
      | some ms => simp [userTypeActs, out_bind, writeln]
  | basic kind => rfl
  | other => rfl

/-! ## Reading the C struct -/

/-- What a C type is to the compiler. -/
inductive CTypeRef where
  | scalar (size : Nat)
  | pointer
  | struct (tag : Text)

/-- The sizes of the kernel's scalar types, which are also their alignments. -/
def cScalarSizes : List (Text × Nat) :=
  [("bool", 1), ("__s8", 1), ("__s16", 2), ("__s32", 4), ("__s64", 8), ("__u8", 1),
    ("__u16", 2), ("__u32", 4), ("__u64", 8)]

/-- Read the text of a C type. -/
def readCType (c : Text) : Option CTypeRef :=
  if c.getLast? = some '*' then some .pointer
  else
    match cScalarSizes.lookup c with
    | some size => some (.scalar size)
    | none =>
        if List.isPrefixOf "struct ".toList c then some (.struct (c.drop 7)) else none

/-- The members of the emitted struct with a tag. -/
def taggedMembers (prog : Program) (tag : Text) : Option (List Member) :=
  (prog.types.find? fun t => t.name == tag).bind (members prog)

/-- An array of a shape, if it is one. -/
def arrayOf : Option Nat → Shape → Shape
  | none, s => s
  | some len, s => .array s len

/-- The shapes of some members, given the shapes of their types. -/
def memberShapes (shape : Text → Option Shape) : List Member → Option (List Shape)
  | [] => some []
  | m :: ms => do
      let s ← shape m.cType
      let ss ← memberShapes shape ms
      return arrayOf m.len s :: ss

/-- The shape of a C type whose structs are nested at most `depth` deep. -/
def cShape (prog : Program) : (depth : Nat) → Text → Option Shape
  | 0, _ => none
  | depth + 1, c =>
      match readCType c with
      | none => none
      | some (.scalar size) => some (.scalar size size)
      | some .pointer => some (.pointer 8 8)
      | some (.struct tag) =>
          (taggedMembers prog tag).bind fun ms =>
            (memberShapes (cShape prog depth) ms).map .struct

/-! ## Reading the Go struct -/

/-- The shape of a basic Go type. -/
def basicShape : Basic → Option Shape
  | .bool | .int8 | .uint8 | .byte => some (.scalar 1 1)
  | .int16 | .uint16 => some (.scalar 2 2)
  | .int32 | .uint32 | .rune => some (.scalar 4 4)
  | .int64 | .uint64 => some (.scalar 8 8)
  | .unsafePointer => some (.pointer 8 8)
  | _ => none

/-- The named type is a struct that the file declares; its name is an identifier. -/
def isUserStruct (prog : Program) (n : TypeName) : Bool :=
  (bpfPackageTypeInfo n).isNone && n.name.getLast? ≠ some '*' &&
    (prog.types.find? fun t => t.name == n.name).any fun t => t.type = n

/-- The shape of a field, given the shapes of the types other than arrays. -/
def fieldShape (shape : GoType → Option Shape) (f : StructField) : Option Shape :=
  match f.type with
  | .array elem len => (shape elem).map fun s => .array s len
  | t => shape t

/-- The shapes of some fields. -/
def fieldShapes (shape : GoType → Option Shape) : List StructField → Option (List Shape)
  | [] => some []
  | f :: fields => do
      let s ← fieldShape shape f
      let ss ← fieldShapes shape fields
      return s :: ss

/-- The shape of a Go type whose structs are nested at most `depth` deep: integers, `bool`,
pointers and structs of the file.  Arrays occur as fields only and aliases nowhere, because
`goTypeToC` has no case for them. -/
def goShape (prog : Program) : (depth : Nat) → GoType → Option Shape
  | 0, _ => none
  | _ + 1, .basic b => basicShape b
  | _ + 1, .pointer elem => if (goTypeToC elem).isOk then some (.pointer 8 8) else none
  | depth + 1, .named n targs =>
      if isUserStruct prog n ∧ targs.isEmpty then
        match prog.info.underlying n [] with
        | .struct fields => (fieldShapes (goShape prog depth) fields).map .struct
        | _ => none
      else none
  | _ + 1, .array _ _ => none
  | _ + 1, .typeAlias _ _ _ => none
  | _ + 1, .other _ => none

/-- The shape of the Go struct of a user type. -/
def goStruct (prog : Program) (depth : Nat) (t : UserTypeDecl) : Option Shape :=
  match prog.info.underlying t.type [] with
  | .struct fields => (fieldShapes (goShape prog depth) fields).map .struct
  | _ => none

/-! ## Both structs have the same shape -/

theorem memberOf_of_fieldShape {gs : GoType → Option Shape} {cs : Text → Option Shape}
    (h : ∀ t s, gs t = some s → ∃ c, goTypeToC t = .ok c ∧ cs c = some s)
    {f : StructField} {s : Shape} (hs : fieldShape gs f = some s) :
    ∃ m s', memberOf f = some m ∧ cs m.cType = some s' ∧ arrayOf m.len s' = s := by
  obtain ⟨fname, type, tag⟩ := f
  -- a field that is no array has the shape of its type
  have hplain : ∀ t, gs t = some s → ∃ c, (goTypeToC t).toOption = some c ∧ cs c = some s := by
    intro t ht
    obtain ⟨c, hc, hcs⟩ := h t s ht
    exact ⟨c, by rw [hc]; rfl, hcs⟩
  cases type with
  | array elem len =>
      obtain ⟨e, he, rfl⟩ := Option.map_eq_some_iff.mp hs
      obtain ⟨c, hc, hcs⟩ := h elem e he
      exact ⟨⟨c, fname, some len⟩, e, by simp [memberOf, hc, Except.toOption], hcs, rfl⟩
  | basic b =>
      obtain ⟨c, hc, hcs⟩ := hplain (.basic b) hs
      exact ⟨⟨c, fname, none⟩, s, by simp only [memberOf, hc, Option.map_some], hcs, rfl⟩
  | pointer elem =>
      obtain ⟨c, hc, hcs⟩ := hplain (.pointer elem) hs
      exact ⟨⟨c, fname, none⟩, s, by simp only [memberOf, hc, Option.map_some], hcs, rfl⟩
  | named n targs =>
      obtain ⟨c, hc, hcs⟩ := hplain (.named n targs) hs
      exact ⟨⟨c, fname, none⟩, s, by simp only [memberOf, hc, Option.map_some], hcs, rfl⟩
  | typeAlias name targs actual =>
      obtain ⟨c, hc, hcs⟩ := hplain (.typeAlias name targs actual) hs
      exact ⟨⟨c, fname, none⟩, s, by simp only [memberOf, hc, Option.map_some], hcs, rfl⟩
  | other text =>
      obtain ⟨c, hc, hcs⟩ := hplain (.other text) hs
      exact ⟨⟨c, fname, none⟩, s, by simp only [memberOf, hc, Option.map_some], hcs, rfl⟩

/-- The fields and the members they are emitted as have the same shapes. -/
theorem memberShapes_of_fieldShapes {gs : GoType → Option Shape} {cs : Text → Option Shape}
    (h : ∀ t s, gs t = some s → ∃ c, goTypeToC t = .ok c ∧ cs c = some s)
    {fields : List StructField} : ∀ {ss : List Shape}, fieldShapes gs fields = some ss →
      ∃ ms, membersOf fields = some ms ∧ memberShapes cs ms = some ss := by
  induction fields with
  | nil =>
      intro ss hss
      cases hss
      exact ⟨[], rfl, rfl⟩
  | cons f fields ih =>
      intro ss hss
      rw [fieldShapes] at hss
      obtain ⟨s, hs, hss⟩ := Option.bind_eq_some_iff.mp hss
      obtain ⟨ss', hss', heq⟩ := Option.bind_eq_some_iff.mp hss
      cases heq
      obtain ⟨ms, hms, hshapes⟩ := ih hss'
      obtain ⟨m, s', hm, hs', harr⟩ := memberOf_of_fieldShape h hs
      refine ⟨m :: ms, ?_, ?_⟩
      · rw [membersOf, hm, hms]
        rfl
      · rw [memberShapes, hs', hshapes, ← harr]
        rfl

theorem readCType_basic {b : Basic} {s : Shape} (h : basicShape b = some s) :
    ∃ c, basicToC b = .ok c ∧ ((∃ size, readCType c = some (.scalar size) ∧
      s = .scalar size size) ∨ readCType c = some .pointer ∧ s = .pointer 8 8) := by
  cases b <;> simp only [basicShape, reduceCtorEq, Option.some.injEq] at h <;> subst h
  case unsafePointer => exact ⟨_, rfl, Or.inr ⟨rfl, rfl⟩⟩
  all_goals exact ⟨_, rfl, Or.inl ⟨_, rfl, rfl⟩⟩

theorem readCType_pointer (c : Text) : readCType (c ++ " *") = some .pointer := by
  have hlast : (c ++ (" *" : Text)).getLast? = some '*' := by
    rw [List.getLast?_append]
    rfl
  rw [readCType, if_pos hlast]

theorem readCType_struct {w : Text} (hw : w.getLast? ≠ some '*') :
    readCType ("struct " ++ w) = some (.struct w) := by
  have hlast : (("struct " : Text) ++ w).getLast? ≠ some '*' := by
    rw [List.getLast?_append]
    cases hl : w.getLast? with
    | none => simp
    | some x => simpa [hl] using hw
  have hlookup : cScalarSizes.lookup ("struct " ++ w) = none := rfl
  rw [readCType, if_neg hlast, hlookup]
  rfl

/-- **A Go type and the C type it is emitted as have the same shape.** -/
theorem cShape_of_goShape : ∀ (depth : Nat) (t : GoType) (s : Shape),
    goShape prog depth t = some s → ∃ c, goTypeToC t = .ok c ∧ cShape prog depth c = some s := by
  intro depth
  induction depth with
  | zero => intro t s h; cases h
  | succ depth ih =>
      intro t s h
      cases t with
      | basic b =>
          obtain ⟨c, hc, hread⟩ := readCType_basic (b := b) h
          refine ⟨c, hc, ?_⟩
          rcases hread with ⟨size, hread, rfl⟩ | ⟨hread, rfl⟩
          · rw [cShape, hread]
          · rw [cShape, hread]
      | pointer elem =>
          rw [goShape] at h
          split_ifs at h with hok
          cases h
          cases hc : goTypeToC elem with
          | error e => simp [hc, Except.isOk, Except.toBool] at hok
          | ok base =>
              refine ⟨base ++ " *", ?_, ?_⟩
              · rw [goTypeToC, hc]
                rfl
              · rw [cShape, readCType_pointer]
      | named n targs =>
          rw [goShape] at h
          split_ifs at h with huser
          obtain ⟨huser, -⟩ := huser
          rw [isUserStruct, Bool.and_eq_true, Bool.and_eq_true] at huser
          obtain ⟨⟨hbpf, hname⟩, hfind⟩ := huser
          refine ⟨"struct " ++ n.name, ?_, ?_⟩
          · rw [goTypeToC, namedToC, Option.isNone_iff_eq_none.mp hbpf]
          · rw [cShape, readCType_struct (by simpa using hname)]
            obtain ⟨t, ht, htype⟩ := (Option.any_eq_true _ _).mp hfind
            obtain rfl : t.type = n := by simpa using htype
            split at h
            · rename_i fields hfields
              obtain ⟨ss, hss, rfl⟩ := Option.map_eq_some_iff.mp h
              obtain ⟨ms, hms, hshapes⟩ := memberShapes_of_fieldShapes ih hss
              have htagged : taggedMembers prog t.type.name = some ms := by
                rw [taggedMembers, ht, Option.bind_some, members, hfields]
                exact hms
              simp only [htagged, Option.bind_some, hshapes, Option.map_some]
            · cases h
      | array elem len => cases h
      | typeAlias name targs actual => cases h
      | other text => cases h

/-- The shape of an emitted struct. -/
def cStruct (prog : Program) (depth : Nat) (ms : List Member) : Option Shape :=
  (memberShapes (cShape prog depth) ms).map .struct

theorem cStruct_of_goStruct {depth : Nat} {t : UserTypeDecl} {s : Shape}
    (h : goStruct prog depth t = some s) :
    ∃ ms, members prog t = some ms ∧ cStruct prog depth ms = some s := by
  unfold goStruct at h
  split at h
  · rename_i fields hfields
    obtain ⟨ss, hss, rfl⟩ := Option.map_eq_some_iff.mp h
    obtain ⟨ms, hms, hshapes⟩ := memberShapes_of_fieldShapes (cShape_of_goShape depth) hss
    refine ⟨ms, ?_, ?_⟩
    · rw [members, hfields]
      exact hms
    · rw [cStruct, hshapes]
      rfl
  · cases h

/-! ## Alignments are positive -/

theorem aligned_fieldShapes {gs : GoType → Option Shape}
    (h : ∀ t s, gs t = some s → Aligned s) {fields : List StructField} :
    ∀ {ss : List Shape}, fieldShapes gs fields = some ss → AllAligned ss := by
  induction fields with
  | nil =>
      intro ss hss
      cases hss
      exact trivial
  | cons f fields ih =>
      intro ss hss
      rw [fieldShapes] at hss
      obtain ⟨s, hs, hss⟩ := Option.bind_eq_some_iff.mp hss
      obtain ⟨ss', hss', heq⟩ := Option.bind_eq_some_iff.mp hss
      cases heq
      refine ⟨?_, ih hss'⟩
      unfold fieldShape at hs
      split at hs
      · obtain ⟨e, he, rfl⟩ := Option.map_eq_some_iff.mp hs
        exact h _ e he
      · exact h _ s hs

theorem aligned_goShape : ∀ (depth : Nat) (t : GoType) (s : Shape),
    goShape prog depth t = some s → Aligned s := by
  intro depth
  induction depth with
  | zero => intro t s h; cases h
  | succ depth ih =>
      intro t s h
      cases t with
      | basic b =>
          rw [goShape] at h
          cases b <;> simp only [basicShape, reduceCtorEq, Option.some.injEq] at h <;> subst h <;>
            exact Nat.succ_pos _
      | pointer elem =>
          rw [goShape] at h
          split_ifs at h
          cases h
          exact Nat.succ_pos _
      | named n targs =>
          rw [goShape] at h
          split_ifs at h
          split at h
          · obtain ⟨ss, hss, rfl⟩ := Option.map_eq_some_iff.mp h
            exact aligned_fieldShapes ih hss
          · cases h
      | array elem len => cases h
      | typeAlias name targs actual => cases h
      | other text => cases h

theorem aligned_goStruct {depth : Nat} {t : UserTypeDecl} {s : Shape}
    (h : goStruct prog depth t = some s) : Aligned s := by
  unfold goStruct at h
  split at h
  · obtain ⟨ss, hss, rfl⟩ := Option.map_eq_some_iff.mp h
    exact aligned_fieldShapes (aligned_goShape depth) hss
  · cases h

/-! ## Layouts -/

/-- **When the layouts agree.**  For a user struct of integers, `bool`, pointers, arrays of
these and structs of the file, nested to any depth, that `writeUserType` emits as the members
`ms`: the placement `encoding/binary` gives the Go struct is the one clang gives the emitted
struct exactly when there is no pointer in it and no padding between its fields, at its end or
in a nested struct. -/
theorem writeUserType_layout_iff (prog : Program) (t : UserTypeDecl) (n n' : Names)
    (acts : List Act) (h : writeUserType prog t n = .ok ((), n', acts)) (depth : Nat) (g : Shape)
    (hg : goStruct prog depth t = some g) :
    ∃ ms c, acts = userTypeActs t ms ∧ cStruct prog depth ms = some c ∧
      (serialised g = some (natural c) ↔ encodable g = true ∧ Tight g) := by
  obtain ⟨ms, hms, hc⟩ := cStruct_of_goStruct hg
  have hout := out_eq_some.mpr h
  rw [out_writeUserType, hms, Option.map_some] at hout
  cases hout
  exact ⟨ms, g, rfl, hc, serialised_eq_natural_iff (aligned_goStruct hg)⟩

/-- A program with one user type `Event`. -/
def eventProgram (fields : List StructField) : Program :=
  { emptyProgram (paramInfo (.basic .uint32)) with
    info := { paramInfo (.basic .uint32) with underlying := fun _ _ => .struct fields }
    types := [⟨"Event", ⟨"x.go", 5, 6⟩, ⟨some "main", "Event"⟩, 40⟩] }

/-- The declaration of `Event`. -/
def eventDecl : UserTypeDecl := ⟨"Event", ⟨"x.go", 5, 6⟩, ⟨some "main", "Event"⟩, 40⟩

/-- `struct { Kind uint8; Pid uint32 }`. -/
def paddedFields : List StructField :=
  [⟨"Kind", .basic .uint8, []⟩, ⟨"Pid", .basic .uint32, []⟩]

/-- clang puts `Pid` at offset 4 of 8 bytes, `encoding/binary` at offset 1 of 5. -/
theorem paddedFields_differ :
    ∃ n' acts ms c g, writeUserType (eventProgram paddedFields) eventDecl ⟨[], 0⟩ =
        .ok ((), n', acts) ∧
      acts = userTypeActs eventDecl ms ∧ cStruct (eventProgram paddedFields) 1 ms = some c ∧
      goStruct (eventProgram paddedFields) 1 eventDecl = some g ∧
      natural c = ⟨8, [0, 0, 4]⟩ ∧ serialised g = some ⟨5, [0, 0, 1]⟩ ∧
      serialised g ≠ some (natural c) :=
  ⟨_, _, [⟨"__u8", "Kind", none⟩, ⟨"__u32", "Pid", none⟩],
    .struct [.scalar 1 1, .scalar 4 4], .struct [.scalar 1 1, .scalar 4 4],
    rfl, rfl, rfl, rfl, rfl, rfl, by decide⟩

/-- `struct { Pid uint32; Kind uint16; Flags [2]uint8 }`. -/
def tightFields : List StructField :=
  [⟨"Pid", .basic .uint32, []⟩, ⟨"Kind", .basic .uint16, []⟩,
    ⟨"Flags", .array (.basic .uint8) 2, []⟩]

/-- The packed fields are aligned, so the layouts agree. -/
theorem tightFields_layout :
    ∃ n' acts g, writeUserType (eventProgram tightFields) eventDecl ⟨[], 0⟩ =
        .ok ((), n', acts) ∧
      goStruct (eventProgram tightFields) 1 eventDecl = some g ∧
      ∃ ms c, acts = userTypeActs eventDecl ms ∧
        cStruct (eventProgram tightFields) 1 ms = some c ∧ serialised g = some (natural c) := by
  obtain ⟨ms, c, hacts, hc, hiff⟩ :=
    writeUserType_layout_iff (eventProgram tightFields) eventDecl ⟨[], 0⟩ _ _ rfl 1
      (.struct [.scalar 4 4, .scalar 2 2, .array (.scalar 1 1) 2]) rfl
  refine ⟨_, _, _, rfl, rfl, ms, c, hacts, hc, hiff.mpr ⟨rfl, ?_⟩⟩
  simp [Tight, TightFrom, align, packed, packedSum, alignAll]

end Gobee
