/-
# Directories

A directory is a list of names in some order, each with what it stands for.

* `find_put` : what stands under a name after one name is set;
* `names_put` : the names once a name is set;
* `filter_put` : the other names stay as they are, and in their order.
-/
import Mathlib.Data.List.Basic
import Mathlib.Logic.Function.Basic

namespace Folders

variable {κ ν : Type} [DecidableEq κ]

/-- A directory. -/
abbrev Folder (κ ν : Type) := List (κ × ν)

/-- What a name stands for. -/
def find (k : κ) : Folder κ ν → Option ν
  | [] => none
  | (k', v) :: rest => if k' = k then some v else find k rest

/-- Change what a name stands for. -/
def replace (k : κ) (v : ν) : Folder κ ν → Folder κ ν
  | [] => []
  | (k', v') :: rest => if k' = k then (k', v) :: rest else (k', v') :: replace k v rest

variable [LT κ] [DecidableLT κ]

/-- Put a new name before the first one that is behind it. -/
def insert (k : κ) (v : ν) : Folder κ ν → Folder κ ν
  | [] => [(k, v)]
  | (k', v') :: rest =>
      if k < k' then (k, v) :: (k', v') :: rest else (k', v') :: insert k v rest

/-- Set a name. -/
def put (k : κ) (v : ν) (f : Folder κ ν) : Folder κ ν :=
  if (find k f).isSome then replace k v f else insert k v f

omit [LT κ] [DecidableLT κ] in
theorem find_replace (k k' : κ) (v : ν) (f : Folder κ ν) (h : (find k f).isSome = true) :
    find k' (replace k v f) = if k' = k then some v else find k' f := by
  induction f with
  | nil => cases h
  | cons e f ih =>
      obtain ⟨j, u⟩ := e
      by_cases hj : j = k
      · subst hj
        rw [replace, if_pos rfl, find, find]
        split_ifs with h1 h2 h2
        · rfl
        · exact absurd h1.symm h2
        · exact absurd h2.symm h1
        · rfl
      · rw [find, if_neg hj] at h
        rw [replace, if_neg hj, find, find, ih h]
        split_ifs with h1 h2
        · exact absurd (h1.trans h2) hj
        · rfl
        · rfl
        · rfl

theorem find_insert (k k' : κ) (v : ν) (f : Folder κ ν) (h : find k f = none) :
    find k' (insert k v f) = if k' = k then some v else find k' f := by
  induction f with
  | nil => simp only [insert, find, eq_comm]
  | cons e f ih =>
      obtain ⟨j, u⟩ := e
      have hj : j ≠ k := by
        rintro rfl
        rw [find, if_pos rfl] at h
        cases h
      rw [find, if_neg hj] at h
      rw [insert]
      split_ifs with hlt hk hk
      · rw [find, if_pos hk.symm]
      · rw [find, if_neg (Ne.symm hk)]
      · rw [find, if_neg (fun hjk => hj (hjk.trans hk)), ih h, if_pos hk]
      · rw [find, find, ih h, if_neg hk]

/-- **What stands under a name after one name is set.** -/
theorem find_put (k k' : κ) (v : ν) (f : Folder κ ν) :
    find k' (put k v f) = if k' = k then some v else find k' f := by
  rw [put]
  split_ifs with h hk hk
  · rw [find_replace k k' v f h, if_pos hk]
  · rw [find_replace k k' v f h, if_neg hk]
  · rw [find_insert k k' v f (by simpa using h), if_pos hk]
  · rw [find_insert k k' v f (by simpa using h), if_neg hk]

omit [LT κ] [DecidableLT κ] in
theorem filter_replace {k : κ} {v : ν} {f : Folder κ ν} {p : κ × ν → Bool}
    (h : ∀ u, p (k, u) = false) : (replace k v f).filter p = f.filter p := by
  induction f with
  | nil => rfl
  | cons e f ih =>
      obtain ⟨j, u⟩ := e
      rw [replace]
      split_ifs with hj
      · subst hj
        rw [List.filter_cons_of_neg (by rw [h]; simp), List.filter_cons_of_neg (by rw [h]; simp)]
      · rw [List.filter_cons, List.filter_cons, ih]

omit [DecidableEq κ] in
theorem filter_insert {k : κ} {v : ν} {f : Folder κ ν} {p : κ × ν → Bool}
    (h : p (k, v) = false) : (insert k v f).filter p = f.filter p := by
  induction f with
  | nil => rw [insert, List.filter_cons_of_neg (by rw [h]; simp)]
  | cons e f ih =>
      obtain ⟨j, u⟩ := e
      rw [insert]
      split_ifs
      · rw [List.filter_cons_of_neg (by rw [h]; simp)]
      · rw [List.filter_cons, List.filter_cons, ih]

/-- Names that are left out by a filter do not matter. -/
theorem filter_put {k : κ} {v : ν} {f : Folder κ ν} {p : κ × ν → Bool} (h : ∀ u, p (k, u) = false) :
    (put k v f).filter p = f.filter p := by
  rw [put]
  split_ifs
  · exact filter_replace h
  · exact filter_insert (h v)

/-- A new name that is left out by a filter does not matter. -/
theorem filter_put_new {k : κ} {v : ν} {f : Folder κ ν} {p : κ × ν → Bool} (hnew : find k f = none)
    (h : p (k, v) = false) : (put k v f).filter p = f.filter p := by
  rw [put, if_neg (by rw [hnew]; simp)]
  exact filter_insert h

omit [LT κ] [DecidableLT κ] in
theorem names_replace (k : κ) (v : ν) (f : Folder κ ν) :
    (replace k v f).map Prod.fst = f.map Prod.fst := by
  induction f with
  | nil => rfl
  | cons e f ih =>
      rw [replace]
      split_ifs
      · rfl
      · rw [List.map_cons, List.map_cons, ih]

omit [DecidableEq κ] in
theorem names_insert (k : κ) (v : ν) (f : Folder κ ν) :
    ((insert k v f).map Prod.fst).Perm (k :: f.map Prod.fst) := by
  induction f with
  | nil => exact List.Perm.refl _
  | cons e f ih =>
      rw [insert]
      split_ifs
      · exact List.Perm.refl _
      · exact (ih.cons e.1).trans (List.Perm.swap k e.1 _)

omit [LT κ] [DecidableLT κ] in
theorem find_eq_none {k : κ} {f : Folder κ ν} : find k f = none ↔ k ∉ f.map Prod.fst := by
  induction f with
  | nil => simp [find]
  | cons e f ih =>
      rw [find, List.map_cons, List.mem_cons, not_or]
      split_ifs with hk
      · simp [hk]
      · rw [ih]
        exact ⟨fun h => ⟨fun heq => hk heq.symm, h⟩, fun h => h.2⟩

/-- The names of a directory once a name is set. -/
theorem names_put (k : κ) (v : ν) (f : Folder κ ν) :
    ((put k v f).map Prod.fst).Perm
      (if k ∈ f.map Prod.fst then f.map Prod.fst else k :: f.map Prod.fst) := by
  rw [put]
  by_cases h : find k f = none
  · rw [if_neg (by simp [h]), if_neg (find_eq_none.mp h)]
    exact names_insert k v f
  · rw [if_pos (Option.isSome_iff_ne_none.mpr h), names_replace,
      if_pos (by_contra fun hmem => h (find_eq_none.mpr hmem))]

omit [LT κ] [DecidableLT κ] in
/-- Every entry of a directory is found, if no name occurs twice. -/
theorem find_of_mem {f : Folder κ ν} (hnodup : (f.map Prod.fst).Nodup) {e : κ × ν} (h : e ∈ f) :
    find e.1 f = some e.2 := by
  induction f with
  | nil => cases h
  | cons d f ih =>
      obtain ⟨j, u⟩ := d
      rw [List.map_cons, List.nodup_cons] at hnodup
      rcases List.mem_cons.mp h with rfl | hrest
      · rw [find, if_pos rfl]
      · have hj : j ≠ e.1 := by
          rintro rfl
          exact hnodup.1 (List.mem_map.mpr ⟨e, hrest, rfl⟩)
        rw [find, if_neg hj, ih hnodup.2 hrest]

end Folders
