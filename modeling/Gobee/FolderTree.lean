/-
# Trees of directories

A tree of directories, each at its place: the names from it up to the root.  A place has a
directory exactly if its name stands for one in the directory above it.

* `entryAt_write`, `entryAt_makeDir` : what stands at a place after a change;
* `Grows` : only some files are written, and only some directories are made;
* `Grows.hasDir` : no directory disappears.
-/
import Mathlib.Data.List.Infix
import Gobee.Folders

namespace Folders

/-! ## Trees -/

/-- What a name of a directory stands for. -/
inductive Entry (ν : Type) where
  | file (contents : ν)
  | dir
  deriving DecidableEq, Repr

instance {ν : Type} (e : Option (Entry ν)) : Decidable (e = some .dir) :=
  match e with
  | some .dir => isTrue rfl
  | some (.file _) => isFalse (by rintro ⟨⟩)
  | none => isFalse (by rintro ⟨⟩)

/-- The place of a directory: the names from it up to the root. -/
abbrev Place (κ : Type) := List κ

/-- The place of a file: its directory and its name there. -/
abbrev Spot (κ : Type) := Place κ × κ

/-- The place of the directory that a name stands for. -/
def below {κ : Type} (x : Spot κ) : Place κ := x.2 :: x.1

/-- A tree of directories. -/
structure FolderTree (κ ν : Type) [DecidableEq κ] where
  folder : Place κ → Option (Folder κ (Entry ν))
  root : (folder []).isSome = true
  nodup : ∀ d f, folder d = some f → (f.map Prod.fst).Nodup
  linked : ∀ x : Spot κ, (folder (below x)).isSome = true ↔
    (folder x.1).bind (find x.2) = some .dir

variable {κ ν : Type} [DecidableEq κ]

namespace FolderTree

/-- The tree with an empty root. -/
def empty : FolderTree κ ν where
  folder d := if d = [] then some [] else none
  root := rfl
  nodup d f hf := by
    split_ifs at hf
    cases hf
    exact List.nodup_nil
  linked x := by
    have hbelow : below x ≠ [] := List.cons_ne_nil _ _
    rw [if_neg hbelow]
    split_ifs <;> simp [find]

/-- What stands at a spot. -/
def entryAt (t : FolderTree κ ν) (x : Spot κ) : Option (Entry ν) := (t.folder x.1).bind (find x.2)

/-- There is a directory at a place. -/
def HasDir (t : FolderTree κ ν) (d : Place κ) : Prop := (t.folder d).isSome = true

instance (t : FolderTree κ ν) (d : Place κ) : Decidable (t.HasDir d) :=
  inferInstanceAs (Decidable (_ = _))

theorem hasDir_below {t : FolderTree κ ν} {x : Spot κ} :
    t.HasDir (below x) ↔ t.entryAt x = some .dir :=
  t.linked x

/-- Where nothing stands, there is no directory. -/
theorem folder_below {t : FolderTree κ ν} {x : Spot κ} (h : t.entryAt x = none) :
    t.folder (below x) = none := by
  have hdir : ¬ t.HasDir (below x) := fun hdir => by
    rw [hasDir_below, h] at hdir
    cases hdir
  simpa [HasDir] using hdir

theorem hasDir_of_entryAt {t : FolderTree κ ν} {x : Spot κ} {e : Entry ν}
    (h : t.entryAt x = some e) : t.HasDir x.1 := by
  rw [HasDir]
  cases hf : t.folder x.1 with
  | none =>
      rw [entryAt, hf] at h
      cases h
  | some f => rfl

end FolderTree

open FolderTree

/-- The spot is on the way from the root to a place. -/
def OnWay (d : Place κ) (x : Spot κ) : Prop := below x <:+ d

omit [DecidableEq κ] in
theorem onWay_cons {n : κ} {d : Place κ} {x : Spot κ} :
    OnWay (n :: d) x ↔ x = (d, n) ∨ OnWay d x := by
  rw [OnWay, List.suffix_cons_iff, OnWay, below]
  obtain ⟨e, m⟩ := x
  simp [and_comm]

omit [DecidableEq κ] in
theorem not_onWay_nil (x : Spot κ) : ¬ OnWay [] x := by
  rw [OnWay, List.suffix_nil]
  exact List.cons_ne_nil _ _

omit [DecidableEq κ] in
theorem not_onWay_self (d : Place κ) (n : κ) : ¬ OnWay d (d, n) := by
  intro h
  have hlength : (n :: d).length ≤ d.length := h.length_le
  rw [List.length_cons] at hlength
  omega

omit [DecidableEq κ] in
theorem mem_of_onWay {d : Place κ} {x : Spot κ} (h : OnWay d x) : x.2 ∈ d :=
  h.subset List.mem_cons_self

/-- There is a directory exactly if there are directories all the way. -/
theorem FolderTree.hasDir_iff {t : FolderTree κ ν} {d : Place κ} :
    t.HasDir d ↔ ∀ x, OnWay d x → t.entryAt x = some .dir := by
  induction d with
  | nil => exact ⟨fun _ x hx => absurd hx (not_onWay_nil x), fun _ => t.root⟩
  | cons n d ih =>
      have hbelow : t.HasDir (n :: d) ↔ t.entryAt (d, n) = some .dir := hasDir_below (x := (d, n))
      constructor
      · rintro h x hx
        rcases onWay_cons.mp hx with rfl | hx
        · exact hbelow.mp h
        · exact ih.mp (hasDir_of_entryAt (hbelow.mp h)) x hx
      · exact fun h => hbelow.mpr (h (d, n) (onWay_cons.mpr (.inl rfl)))

/-! ## Changes -/

section

variable [LT κ] [DecidableLT κ]

/-- The directories with one name set. -/
def setName (x : Spot κ) (e : Entry ν) (folder : Place κ → Option (Folder κ (Entry ν)))
    (d : Place κ) : Option (Folder κ (Entry ν)) :=
  if d = x.1 then (folder d).map (put x.2 e) else folder d

variable {folder : Place κ → Option (Folder κ (Entry ν))} {x : Spot κ} {e : Entry ν}

@[simp] theorem isSome_setName (d : Place κ) :
    (setName x e folder d).isSome = (folder d).isSome := by
  rw [setName]
  split_ifs
  · rw [Option.isSome_map]
  · rfl

theorem find_setName (y : Spot κ) :
    (setName x e folder y.1).bind (find y.2) =
      if y = x ∧ (folder x.1).isSome = true then some e else (folder y.1).bind (find y.2) := by
  obtain ⟨d, n⟩ := y
  rw [setName]
  by_cases hd : d = x.1
  · rw [if_pos hd, hd]
    cases hf : folder x.1 with
    | none => simp
    | some f =>
        rw [Option.map_some, Option.bind_some, find_put]
        by_cases hn : n = x.2
        · rw [if_pos hn, if_pos ⟨by rw [hn], rfl⟩]
        · rw [if_neg hn, if_neg fun h => hn (congrArg Prod.snd h.1)]
          rfl
  · rw [if_neg hd, if_neg fun h => hd (congrArg Prod.fst h.1)]

theorem nodup_setName (h : ∀ d f, folder d = some f → (f.map Prod.fst).Nodup) (d : Place κ)
    (f : Folder κ (Entry ν)) (hf : setName x e folder d = some f) : (f.map Prod.fst).Nodup := by
  rw [setName] at hf
  split_ifs at hf
  · obtain ⟨g, hg, rfl⟩ := Option.map_eq_some_iff.mp hf
    rw [(names_put x.2 e g).nodup_iff]
    split_ifs with hmem
    · exact h d g hg
    · exact List.nodup_cons.mpr ⟨hmem, h d g hg⟩
  · exact h d f hf

/-- The tree with a file; no file is put where a directory is, or where none is above it. -/
def FolderTree.write (x : Spot κ) (contents : ν) (t : FolderTree κ ν) : FolderTree κ ν :=
  if hdir : t.entryAt x = some .dir then t
  else
    { folder := setName x (.file contents) t.folder
      root := (isSome_setName _).trans t.root
      nodup := nodup_setName t.nodup
      linked := fun y => by
        rw [isSome_setName, find_setName, t.linked y]
        split_ifs with hy
        · rw [hy.1]
          exact iff_of_false hdir (by rintro ⟨⟩)
        · rfl }

/-- The tree with a new directory, where nothing stands and there is a directory above it. -/
def FolderTree.makeDir (x : Spot κ) (t : FolderTree κ ν) : FolderTree κ ν :=
  if hfree : t.entryAt x = none ∧ t.HasDir x.1 then
    { folder := fun d => if d = below x then some [] else setName x .dir t.folder d
      root := by
        rw [if_neg (show [] ≠ below x from (List.cons_ne_nil _ _).symm), isSome_setName]
        exact t.root
      nodup := fun d f hf => by
        split_ifs at hf
        · cases hf
          exact List.nodup_nil
        · exact nodup_setName t.nodup d f hf
      linked := fun y => by
        have hlength : x.1 ≠ below x := fun h => List.cons_ne_self _ _ h.symm
        have hbelow : below y = below x ↔ y = x :=
          ⟨fun h => Prod.ext (List.cons.inj h).2 (List.cons.inj h).1, congrArg below⟩
        by_cases hy : y = x
        · rw [hy, if_pos rfl, if_neg hlength, find_setName, if_pos ⟨rfl, hfree.2⟩]
          simp
        · rw [if_neg fun h => hy (hbelow.mp h), isSome_setName, t.linked y]
          by_cases hd : y.1 = below x
          · -- the new directory is empty, and there was none before
            rw [if_pos hd, hd, folder_below hfree.1]
            simp [find]
          · rw [if_neg hd, find_setName, if_neg fun h => hy h.1] }
  else t

theorem entryAt_write (contents : ν) (t : FolderTree κ ν) (y : Spot κ) :
    (t.write x contents).entryAt y =
      if y = x ∧ t.HasDir x.1 ∧ t.entryAt x ≠ some .dir then some (.file contents)
      else t.entryAt y := by
  rw [FolderTree.write]
  split_ifs with hdir h h
  · exact absurd hdir h.2.2
  · rfl
  · exact (find_setName y).trans (if_pos ⟨h.1, h.2.1⟩)
  · exact (find_setName y).trans (if_neg fun hy => h ⟨hy.1, hy.2, hdir⟩)

/-- A file can be written at the spot. -/
def FolderTree.Writable (t : FolderTree κ ν) (x : Spot κ) : Prop :=
  t.HasDir x.1 ∧ t.entryAt x ≠ some .dir

theorem entryAt_write_self {t : FolderTree κ ν} (h : t.Writable x) (contents : ν) :
    (t.write x contents).entryAt x = some (.file contents) := by
  rw [entryAt_write, if_pos ⟨rfl, h⟩]

theorem entryAt_write_of_ne {y : Spot κ} (h : y ≠ x) (contents : ν) (t : FolderTree κ ν) :
    (t.write x contents).entryAt y = t.entryAt y := by
  rw [entryAt_write, if_neg fun hy => h hy.1]

theorem entryAt_makeDir (t : FolderTree κ ν) (y : Spot κ) :
    (t.makeDir x).entryAt y =
      if y = x ∧ t.entryAt x = none ∧ t.HasDir x.1 then some .dir else t.entryAt y := by
  rw [FolderTree.makeDir]
  split_ifs with hfree h h
  · rw [h.1, ← hasDir_below, HasDir]
    simp
  · rw [entryAt]
    show (if y.1 = below x then some [] else setName x .dir t.folder y.1).bind (find y.2) = _
    by_cases hd : y.1 = below x
    · rw [if_pos hd, entryAt, hd, folder_below hfree.1]
      rfl
    · rw [if_neg hd]
      exact (find_setName y).trans (if_neg fun hy => h ⟨hy.1, hfree⟩)
  · exact absurd h.2 hfree
  · rfl

theorem FolderTree.Writable.write {t : FolderTree κ ν} {y : Spot κ} (h : t.Writable y) (x : Spot κ)
    (contents : ν) : (t.write x contents).Writable y := by
  refine ⟨?_, ?_⟩
  · rw [HasDir, FolderTree.write]
    split_ifs
    · exact h.1
    · exact (isSome_setName _).trans h.1
  · rw [entryAt_write]
    split_ifs
    · rintro ⟨⟩
    · exact h.2

/-- What a write does to a directory. -/
theorem folder_write (x : Spot κ) (contents : ν) (t : FolderTree κ ν) (d : Place κ) :
    (t.write x contents).folder d = t.folder d ∨
      d = x.1 ∧ ∃ f, t.folder d = some f ∧
        (t.write x contents).folder d = some (put x.2 (.file contents) f) := by
  rw [FolderTree.write]
  split_ifs with hdir
  · exact .inl rfl
  · by_cases hd : d = x.1
    · cases hf : t.folder d with
      | none => exact .inl (by simp only [setName, if_pos hd, hf, Option.map_none])
      | some f =>
          exact .inr ⟨hd, f, rfl, by simp only [setName, if_pos hd, hf, Option.map_some]⟩
    · exact .inl (if_neg hd)

/-- What a new directory does to a directory. -/
theorem folder_makeDir (x : Spot κ) (t : FolderTree κ ν) (d : Place κ) :
    (t.makeDir x).folder d = t.folder d ∨
      (t.folder d = none ∧ (t.makeDir x).folder d = some []) ∨
      ∃ f, t.folder d = some f ∧ find x.2 f = none ∧
        (t.makeDir x).folder d = some (put x.2 .dir f) := by
  rw [FolderTree.makeDir]
  split_ifs with hfree
  · by_cases hbelow : d = below x
    · exact .inr (.inl ⟨by rw [hbelow, folder_below hfree.1], if_pos hbelow⟩)
    · by_cases hd : d = x.1
      · obtain ⟨f, hf⟩ := Option.isSome_iff_exists.mp hfree.2
        refine .inr (.inr ⟨f, hd ▸ hf, ?_, ?_⟩)
        · have hnone := hfree.1
          rwa [entryAt, hf] at hnone
        · show (if d = below x then _ else _) = _
          rw [if_neg hbelow, setName, if_pos hd, hd, hf]
          rfl
      · exact .inl ((if_neg hbelow).trans (if_neg hd))
  · exact .inl rfl

end

/-- No file stands on the way to a place. -/
def FolderTree.Passable (t : FolderTree κ ν) (d : Place κ) : Prop :=
  ∀ x, OnWay d x → t.entryAt x = none ∨ t.entryAt x = some .dir

/-! ## Growth -/

/-- How a spot may change: a file is written, or a directory is made where nothing stands. -/
inductive Grown (files dirs : Spot κ → Prop) (before after : FolderTree κ ν) (x : Spot κ) :
    Prop where
  | same (h : after.entryAt x = before.entryAt x)
  | written (c : ν) (hx : files x) (h : before.entryAt x ≠ some .dir)
      (h' : after.entryAt x = some (.file c))
  | made (hx : dirs x) (h : before.entryAt x = none) (h' : after.entryAt x = some .dir)

/-- Only some files are written, and only some directories are made. -/
def Grows (files dirs : Spot κ → Prop) (before after : FolderTree κ ν) : Prop :=
  ∀ x, Grown files dirs before after x

namespace Grows

variable {files dirs : Spot κ → Prop} {t t' t'' : FolderTree κ ν} {x : Spot κ}

theorem refl (t : FolderTree κ ν) : Grows files dirs t t := fun _ => .same rfl

theorem trans (h : Grows files dirs t t') (h' : Grows files dirs t' t'') :
    Grows files dirs t t'' := by
  intro x
  cases h' x with
  | same heq' =>
      cases h x with
      | same heq => exact .same (heq'.trans heq)
      | written c hx hdir hfile => exact .written c hx hdir (heq'.trans hfile)
      | made hx hnone hdir => exact .made hx hnone (heq'.trans hdir)
  | written c hx hdir' hfile' =>
      refine .written c hx (fun hdir => hdir' ?_) hfile'
      cases h x with
      | same heq => rw [heq, hdir]
      | written c' hx' hdir'' hfile'' => exact absurd hdir hdir''
      | made hx' hnone hdir'' =>
          rw [hnone] at hdir
          cases hdir
  | made hx hnone' hdir' =>
      refine .made hx ?_ hdir'
      cases h x with
      | same heq => rw [← heq, hnone']
      | written c hx' hdir hfile =>
          rw [hnone'] at hfile
          cases hfile
      | made hx' hnone hdir => exact hnone

theorem mono {files' dirs' : Spot κ → Prop} (h : Grows files dirs t t')
    (hfiles : ∀ x, files x → files' x) (hdirs : ∀ x, dirs x → dirs' x) :
    Grows files' dirs' t t' := by
  intro x
  cases h x with
  | same heq => exact .same heq
  | written c hx hdir hfile => exact .written c (hfiles x hx) hdir hfile
  | made hx hnone hdir => exact .made (hdirs x hx) hnone hdir

theorem entryAt_eq (h : Grows files dirs t t') (hf : ¬ files x) (hd : ¬ dirs x) :
    t'.entryAt x = t.entryAt x := by
  cases h x with
  | same heq => exact heq
  | written c hx => exact absurd hx hf
  | made hx => exact absurd hx hd

/-- A file that is not written is as it was. -/
theorem entryAt_file (h : Grows files dirs t t') (hf : ¬ files x) {c : ν} :
    t'.entryAt x = some (.file c) ↔ t.entryAt x = some (.file c) := by
  cases h x with
  | same heq => rw [heq]
  | written c hx' => exact absurd hx' hf
  | made hx' hnone hdir =>
      rw [hnone, hdir]
      exact iff_of_false (by rintro ⟨⟩) (by rintro ⟨⟩)

/-- No directory disappears. -/
theorem entryAt_dir (h : Grows files dirs t t') (hx : t.entryAt x = some .dir) :
    t'.entryAt x = some .dir := by
  cases h x with
  | same heq => rw [heq, hx]
  | written c hx' hdir => exact absurd hx hdir
  | made hx' hnone hdir => exact hdir

theorem hasDir (h : Grows files dirs t t') {d : Place κ} (hd : t.HasDir d) : t'.HasDir d :=
  hasDir_iff.mpr fun x hx => h.entryAt_dir (hasDir_iff.mp hd x hx)

/-- What is a directory was none before only if it was made. -/
theorem ne_dir (h : Grows files dirs t t') (hd : ¬ dirs x) (hx : t.entryAt x ≠ some .dir) :
    t'.entryAt x ≠ some .dir := by
  cases h x with
  | same heq => rwa [heq]
  | written c hx' hdir hfile =>
      rw [hfile]
      rintro ⟨⟩
  | made hx' => exact absurd hx' hd

/-- The way to a place stays free if no file is written on it. -/
theorem passable_of_files (h : Grows files dirs t t') {d : Place κ} (hd : t.Passable d)
    (hfiles : ∀ x, OnWay d x → ¬ files x) : t'.Passable d := by
  intro x hx
  cases h x with
  | same heq => rw [heq]; exact hd x hx
  | written c hx' => exact absurd hx' (hfiles x hx)
  | made hx' hnone hdir => exact .inr hdir

section

variable [LT κ] [DecidableLT κ]

theorem write (hx : files x) (contents : ν) (t : FolderTree κ ν) :
    Grows files dirs t (t.write x contents) := by
  intro y
  by_cases hy : y = x ∧ t.HasDir x.1 ∧ t.entryAt x ≠ some .dir
  · refine .written contents (hy.1 ▸ hx) (hy.1 ▸ hy.2.2) ?_
    rw [entryAt_write, if_pos hy]
  · exact .same (by rw [entryAt_write, if_neg hy])

theorem makeDir (hx : dirs x) (t : FolderTree κ ν) : Grows files dirs t (t.makeDir x) := by
  intro y
  by_cases hy : y = x ∧ t.entryAt x = none ∧ t.HasDir x.1
  · refine .made (hy.1 ▸ hx) (hy.1 ▸ hy.2.1) ?_
    rw [entryAt_makeDir, if_pos hy]
  · exact .same (by rw [entryAt_makeDir, if_neg hy])

end

end Grows

end Folders
