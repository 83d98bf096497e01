/-
# File paths

The functions of `path/filepath` that the pipeline calls, for paths with slashes: a path is
taken apart at its slashes and put together again.

* `basePath_joinPath` : a file name is the last element of the path that is made with it;
* `joinPath_append` : a suffix of the name is a suffix of the path.
-/
import Gobee.FormatExpr
import Gobee.HelperNames

namespace Gobee

/-! ## The functions -/

/-- One element of `filepath.Clean`, over the elements kept so far, the last one first. -/
def cleanStep (rooted : Bool) (kept : List Text) (elem : Text) : List Text :=
  if elem = "." then kept
  else if elem = ".." then
    match kept with
    | [] => if rooted then [] else [".."]
    | top :: rest => if top = ".." then ".." :: kept else rest
  else elem :: kept

/-- The elements of a path. -/
def pathElems (path : Text) : List Text := (path.splitOn '/').filter fun e => !e.isEmpty

/-- The path begins at the root. -/
def isRooted (path : Text) : Bool := path.head? == some '/'

/-- `filepath.Clean`. -/
def cleanPath (path : Text) : Text :=
  let kept := (pathElems path).foldl (cleanStep (isRooted path)) []
  let out := (if isRooted path then ['/'] else []) ++ join "/" kept.reverse
  if out = [] then "." else out

/-- `filepath.Join` of two elements. -/
def joinPath (dir name : Text) : Text :=
  match [dir, name].filter fun e => !e.isEmpty with
  | [] => []
  | elems => cleanPath (join "/" elems)

/-- `filepath.Base`. -/
def basePath (path : Text) : Text :=
  if path = [] then "." else ((pathElems path).getLast?).getD "/"

/-- The elements of two paths behind those that they begin with together. -/
def dropCommon : List Text → List Text → List Text × List Text
  | b :: bs, t :: ts => if b = t then dropCommon bs ts else (b :: bs, t :: ts)
  | bs, ts => (bs, ts)

/-- `filepath.Rel`; the empty text stands for an error. -/
def relPath (base targ : Text) : Text :=
  let b := cleanPath base
  let t := cleanPath targ
  if b = t then "."
  else
    let b := if b = "." then [] else b
    if isRooted b ≠ isRooted t then []
    else
      let rest := dropCommon (pathElems b) (pathElems t)
      if rest.1.head? = some ".." then []
      else join "/" (rest.1.map (fun _ => (".." : Text)) ++ rest.2)

/-! ## Names -/

/-- The name of a file in a directory. -/
structure PlainName (name : Text) : Prop where
  ne_nil : name ≠ []
  noSlash : '/' ∉ name
  notDot : name ≠ "."
  notDots : name ≠ ".."

variable {name : Text}

theorem pathElems_name (h : PlainName name) : pathElems name = [name] := by
  obtain ⟨c, cs, rfl⟩ := List.exists_cons_of_ne_nil h.ne_nil
  rw [pathElems, List.splitOn_eq_singleton h.noSlash, List.filter_cons_of_pos rfl, List.filter_nil]

theorem pathElems_append (dir : Text) (h : PlainName name) :
    pathElems (dir ++ '/' :: name) = pathElems dir ++ [name] := by
  rw [← pathElems_name h, pathElems, List.splitOn_append_cons_self, List.filter_append]
  rfl

theorem cleanStep_name (rooted : Bool) (kept : List Text) (h : PlainName name) :
    cleanStep rooted kept name = name :: kept := by
  unfold cleanStep
  rw [if_neg h.notDot, if_neg h.notDots]

theorem join_concat {sep : Text} {ts : List Text} (hne : ts ≠ []) (t : Text) :
    join sep (ts ++ [t]) = join sep ts ++ sep ++ t := by
  induction ts with
  | nil => exact absurd rfl hne
  | cons a ts ih =>
      cases ts with
      | nil => rfl
      | cons b ts =>
          have hrest := ih (List.cons_ne_nil b ts)
          rw [List.cons_append, List.cons_append, join, ← List.cons_append, hrest, join]
          simp only [List.append_assoc]

/-- What stands before the name in a joined path does not depend on the name. -/
theorem exists_joinPath (dir : Text) :
    ∃ front : Text, (front = [] ∨ ∃ init, front = init ++ ['/']) ∧
      ∀ name, PlainName name → joinPath dir name = front ++ name := by
  by_cases hdir : dir = []
  · refine ⟨[], .inl rfl, fun name h => ?_⟩
    obtain ⟨c, cs, hname⟩ := List.exists_cons_of_ne_nil h.ne_nil
    have hroot : isRooted name = false := by
      have hc : c ≠ '/' := by
        rintro rfl
        exact h.noSlash (by rw [hname]; exact List.mem_cons_self)
      rw [hname, isRooted]
      simpa using hc
    have hfilter : [dir, name].filter (fun e => !e.isEmpty) = [name] := by
      rw [hdir, hname]
      rfl
    rw [joinPath, hfilter]
    simp only [join, cleanPath, pathElems_name h, List.foldl_cons, List.foldl_nil,
      cleanStep_name _ _ h, hroot]
    exact if_neg h.ne_nil
  · obtain ⟨d, ds, hd⟩ := List.exists_cons_of_ne_nil hdir
    -- the elements of the directory after cleaning
    let kept := ((pathElems dir).foldl (cleanStep (isRooted dir)) []).reverse
    let root : Text := if isRooted dir then ['/'] else []
    have hjoin : ∀ name, PlainName name →
        joinPath dir name = root ++ join "/" (kept ++ [name]) := by
      intro name h
      obtain ⟨c, cs, hname⟩ := List.exists_cons_of_ne_nil h.ne_nil
      have hfilter : [dir, name].filter (fun e => !e.isEmpty) = [dir, name] := by
        rw [hd, hname]
        rfl
      have hroot : isRooted (dir ++ '/' :: name) = isRooted dir := by
        rw [hd]
        rfl
      have hwhole : join "/" [dir, name] = dir ++ '/' :: name := by
        simp [join]
      have hne : root ++ join "/" (kept ++ [name]) ≠ [] := by
        intro hnil
        have hlast := (List.append_eq_nil_iff.mp hnil).2
        cases hk : kept with
        | nil =>
            rw [hk] at hlast
            exact h.ne_nil hlast
        | cons a as =>
            rw [join_concat (by rw [hk]; exact List.cons_ne_nil a as)] at hlast
            exact h.ne_nil (List.append_eq_nil_iff.mp hlast).2
      rw [joinPath, hfilter]
      simp only [hwhole, cleanPath, hroot, pathElems_append dir h, List.foldl_append,
        List.foldl_cons, List.foldl_nil, cleanStep_name _ _ h, List.reverse_cons]
      exact if_neg hne
    by_cases hkept : kept = []
    · refine ⟨root, ?_, fun name h => by rw [hjoin name h, hkept]; rfl⟩
      by_cases hrooted : isRooted dir
      · exact .inr ⟨[], if_pos hrooted⟩
      · exact .inl (if_neg hrooted)
    · refine ⟨root ++ join "/" kept ++ ['/'], .inr ⟨_, rfl⟩, fun name h => ?_⟩
      rw [hjoin name h, join_concat hkept]
      simp

/-- **The last element of a joined path is the name.** -/
theorem basePath_joinPath (dir : Text) (h : PlainName name) :
    basePath (joinPath dir name) = name := by
  obtain ⟨front, hfront, hjoin⟩ := exists_joinPath dir
  have hne : front ++ name ≠ [] := by simp [h.ne_nil]
  rw [hjoin name h, basePath, if_neg hne]
  rcases hfront with rfl | ⟨init, rfl⟩
  · rw [List.nil_append, pathElems_name h]
    rfl
  · rw [List.append_assoc, List.singleton_append, pathElems_append init h,
      List.getLast?_concat]
    rfl

/-- A suffix of the name is a suffix of the path. -/
theorem joinPath_append (dir suffix : Text) (h : PlainName name)
    (h' : PlainName (name ++ suffix)) :
    joinPath dir (name ++ suffix) = joinPath dir name ++ suffix := by
  obtain ⟨front, -, hjoin⟩ := exists_joinPath dir
  rw [hjoin _ h', hjoin _ h, List.append_assoc]

end Gobee
