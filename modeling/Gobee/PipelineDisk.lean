/-
# The disk of the pipeline

What the system calls and `translateOne` do to the disk.

* `mkdirAll_ok` : what `os.MkdirAll` has made where it succeeds;
* `respects_translateOne` : a bound that allows the files and the directories of an input is
  kept when the input is translated;
* `translateOne_ok` : what a translated input leaves on the disk;
* `rejected_translateOne` : an input that is rejected leaves the disk alone.
-/
import Gobee.Pipeline

namespace Gobee

open Effects Eff Folders FolderTree

section

variable {α β γ : Type} {host : Host}

/-! ## System calls -/

/-- A bound on the changes of the disk, as one on computations. -/
def onDisk (G : Guarantee Disk) : Guarantee World := G.comap World.disk

section

variable {G : Guarantee Disk}

theorem respects_syscall {spoil : Option Text → Disk → Disk} {op : Sys α}
    (hspoil : ∀ left disk, G.Rel disk (spoil left disk)) (hop : Respects (onDisk G) op) :
    Respects (onDisk G) (syscall host spoil op) := by
  intro w
  cases hfault : host.fault w.calls with
  | none =>
      have heq : syscall host spoil op w = op { w with calls := w.calls + 1 } := by
        simp only [syscall, hfault]
      rw [heq]
      exact hop { w with calls := w.calls + 1 }
  | some f =>
      have heq : (syscall host spoil op w).2.disk = spoil f.left w.disk := by
        simp only [syscall, hfault]
      show G.Rel w.disk _
      rw [heq]
      exact hspoil f.left w.disk

/-- A system call that leaves the disk alone. -/
theorem respects_read {op : Sys α} (hop : ∀ w, (op w).2.disk = w.disk) :
    Respects (onDisk G) (syscall host (fun _ disk => disk) op) := by
  refine respects_syscall (fun _ disk => G.refl disk) fun w => ?_
  show G.Rel w.disk _
  rw [hop]
  exact G.refl _

theorem respects_readDir (dir : Text) : Respects (onDisk G) (readDir host dir) := by
  refine respects_read fun w => ?_
  cases w.disk.folder (host.locate dir) <;> rfl

theorem respects_readFile (p : Path) : Respects (onDisk G) (readFile host p) := by
  refine respects_read fun w => ?_
  rcases w.disk.entryAt (placeOf host p) with _ | _ | _ <;> rfl

theorem respects_mkdir {x : Spot Text} (h : ∀ disk : Disk, G.Rel disk (disk.makeDir x))
    (path : Text) : Respects (onDisk G) (mkdir host path x) := by
  refine respects_syscall (fun _ disk => G.refl disk) fun w => ?_
  split_ifs
  · exact G.refl _
  · exact h w.disk
  · exact G.refl _

theorem respects_mkdirAt {d : Place Text}
    (h : ∀ x, OnWay d x → ∀ disk : Disk, G.Rel disk (disk.makeDir x)) (path : Text) :
    Respects (onDisk G) (mkdirAt host d path) := by
  induction d generalizing path with
  | nil => exact Respects.pure _
  | cons name d ih =>
      refine (respects_read fun _ => rfl).bind fun e => ?_
      rcases e with _ | _ | _
      · refine (ih (fun x hx => h x (onWay_cons.mpr (.inr hx))) (parentText path)).bind fun _ => ?_
        exact respects_mkdir (h (d, name) (onWay_cons.mpr (.inl rfl))) path
      · exact Respects.lift _
      · exact Respects.pure _

theorem respects_mkdirAll {dir : Text}
    (h : ∀ x, OnWay (host.locate dir) x → ∀ disk : Disk, G.Rel disk (disk.makeDir x)) :
    Respects (onDisk G) (mkdirAll host dir) := respects_mkdirAt h dir

theorem rel_spoilFile {p : Path}
    (h : ∀ contents (disk : Disk), G.Rel disk (disk.write (placeOf host p) contents))
    (left : Option Text) (disk : Disk) : G.Rel disk (spoilFile host p left disk) := by
  cases left with
  | none => exact G.refl disk
  | some contents => exact h contents disk

theorem respects_writeFile {p : Path}
    (h : ∀ contents (disk : Disk), G.Rel disk (disk.write (placeOf host p) contents))
    (contents : Text) : Respects (onDisk G) (writeFile host p contents) := by
  refine respects_syscall (rel_spoilFile h) fun w => ?_
  split_ifs
  · exact G.refl _
  · exact h contents w.disk
  · exact G.refl _

theorem respects_writeString {p : Path}
    (h : ∀ contents (disk : Disk), G.Rel disk (disk.write (placeOf host p) contents)) (s : Text) :
    Respects (onDisk G) (writeString host p s) :=
  respects_syscall (rel_spoilFile h) fun w => h s w.disk

theorem respects_closeFile : Respects (onDisk G) (closeFile host) := respects_read fun _ => rfl

theorem respects_printErr (s : Text) : Respects (onDisk G) (printErr s : Sys Unit) :=
  fun w => G.refl w.disk

theorem respects_wrap {m : Sys α} (f : Text → Text) (h : Respects (onDisk G) m) :
    Respects (onDisk G) (wrap f m) := h.mapResult _

theorem respects_onError {m : Sys α} {cleanup : Sys Unit} (hm : Respects (onDisk G) m)
    (hc : Respects (onDisk G) cleanup) : Respects (onDisk G) (onError m cleanup) := by
  intro w
  have hw := hm w
  rcases h : m w with ⟨_ | _, w'⟩
  · rename_i e
    rw [h] at hw
    cases e with
    | error msg =>
        simp only [onError, h]
        exact G.trans hw (hc w')
    | panic => simpa only [onError, h] using hw
  · rw [h] at hw
    simpa only [onError, h] using hw

end

/-! ## One file -/

/-- The files of an input. -/
def placesOf (host : Host) (opts : RunOptions) (p : Path) : List (Spot Text) :=
  [placeOf host (cPath opts p), placeOf host (mapPath opts p)] ++
    if opts.bindingsDir = [] then [] else [placeOf host (bindingsPath opts p)]

/-- The C text and the text of the source map of an input. -/
def compile (host : Host) (opts : RunOptions) (p : Path) (contents : Text) :
    Result (Program × Text × Text) := do
  let file ← host.frontEnd p contents
  let prog ← parseFile file
  checkValid prog
  let (source, mappings) ← emit prog (sourceLabel opts p)
  return (prog, source, formatSourceMap (mappings.map SourceMapping.toMapping))

/-- What an input is translated to. -/
structure Outputs where
  source : Text
  sourcemap : Text
  bindings : Option Text

/-- The translation of an input. -/
def outputsOf (host : Host) (opts : RunOptions) (p : Path) (contents : Text) :
    Result Outputs := do
  let (prog, source, sourcemap) ← compile host opts p contents
  if opts.bindingsDir = [] then return ⟨source, sourcemap, none⟩
  else do
    let text ← bindingsOf host opts p prog sourcemap
    return ⟨source, sourcemap, some text⟩

/-- The result for a translated input. -/
def resultOf (opts : RunOptions) (p : Path) : RunResult :=
  ⟨p, cPath opts p, mapPath opts p,
    if opts.bindingsDir = [] then none else some (bindingsPath opts p), stemOf p⟩

/-- The files of an input hold its translation. -/
structure Stored (host : Host) (opts : RunOptions) (p : Path) (out : Outputs) (disk : Disk) :
    Prop where
  source : disk.entryAt (placeOf host (cPath opts p)) = some (.file out.source)
  sourcemap : disk.entryAt (placeOf host (mapPath opts p)) = some (.file out.sourcemap)
  bindings : ∀ text, out.bindings = some text →
    disk.entryAt (placeOf host (bindingsPath opts p)) = some (.file text)

/-- The spot is on the way to the directory of the bindings. -/
def BindingsWay (host : Host) (opts : RunOptions) (x : Spot Text) : Prop :=
  opts.bindingsDir ≠ [] ∧ OnWay (host.locate opts.bindingsDir) x

/-- The bound allows to write the files of an input and to make the directory of the
bindings. -/
structure Allows (host : Host) (opts : RunOptions) (p : Path) (G : Guarantee Disk) : Prop where
  write : ∀ x ∈ placesOf host opts p, ∀ contents (disk : Disk), G.Rel disk (disk.write x contents)
  makeDir : ∀ x, BindingsWay host opts x → ∀ disk : Disk, G.Rel disk (disk.makeDir x)

section

variable {opts : RunOptions} {p : Path} {G : Guarantee Disk}

theorem mem_placesOf {p : Path} {x : Spot Text} :
    x ∈ placesOf host opts p ↔ x = placeOf host (cPath opts p) ∨ x = placeOf host (mapPath opts p) ∨
      opts.bindingsDir ≠ [] ∧ x = placeOf host (bindingsPath opts p) := by
  rw [placesOf]
  split_ifs with hdir <;> simp [hdir]

/-- Only some files are written, and only some directories are made. -/
def growth (files dirs : Spot Text → Prop) : Guarantee Disk where
  Rel := Grows files dirs
  refl := Grows.refl
  trans := Grows.trans

/-- Only the files of an input are written, and only the directory of the bindings is made. -/
theorem allows_growth : Allows host opts p
    (growth (· ∈ placesOf host opts p) (BindingsWay host opts)) where
  write _ hx contents disk := Grows.write hx contents disk
  makeDir _ hx disk := Grows.makeDir hx disk

theorem respects_parseSource : Respects (onDisk G) (parseSource host p) :=
  (respects_wrap _ (respects_readFile p)).bind fun _ => (Respects.lift _).bind fun _ => Respects.lift _

theorem respects_translateBindings {prog : Program} {sourcemap : Text}
    (hwrite : opts.bindingsDir ≠ [] → ∀ contents (disk : Disk),
      G.Rel disk (disk.write (placeOf host (bindingsPath opts p)) contents))
    (hmake : ∀ x, BindingsWay host opts x → ∀ disk : Disk, G.Rel disk (disk.makeDir x)) :
    Respects (onDisk G) (translateBindings host opts p prog sourcemap) := by
  rw [translateBindings]
  split_ifs with hdir
  · exact (respects_printErr _).bind fun _ => Respects.pure _
  · refine (respects_wrap _ (respects_mkdirAll fun x hx => hmake x ⟨hdir, hx⟩)).bind fun _ => ?_
    refine (respects_wrap _ (respects_writeFile (hwrite hdir) [])).bind fun _ => ?_
    refine (respects_wrap _ (respects_onError ?_ respects_closeFile)).bind fun _ => ?_
    · exact (Respects.lift _).bind fun text => respects_writeString (hwrite hdir) text
    · exact (respects_wrap _ respects_closeFile).bind fun _ => Respects.pure _

/-- **Whatever system calls fail, an input is translated within a bound that allows its files
and the directory of the bindings.** -/
theorem respects_translateOne (h : Allows host opts p G) :
    Respects (onDisk G) (translateOne host opts p) := by
  rw [translateOne]
  refine (respects_wrap _ respects_parseSource).bind fun prog => ?_
  refine (Respects.lift _).bind fun _ => (Respects.lift _).bind fun out => ?_
  refine (respects_wrap _ (respects_writeFile (h.write _ (by simp [placesOf])) out.1)).bind fun _ => ?_
  refine (respects_wrap _ (respects_writeFile (h.write _ (by simp [placesOf])) _)).bind fun _ => ?_
  refine (respects_translateBindings (fun hdir => h.write _ ?_) h.makeDir).bind fun _ => Respects.pure _
  exact mem_placesOf.mpr (.inr (.inr ⟨hdir, rfl⟩))

/-! ### Values -/

variable {w w' : World}

theorem syscall_ok {spoil : Option Text → Disk → Disk} {op : Sys α} {a : α}
    (h : syscall host spoil op w = (.ok a, w')) :
    op { w with calls := w.calls + 1 } = (.ok a, w') := by
  cases hfault : host.fault w.calls with
  | none => simpa only [syscall, hfault] using h
  | some f =>
      simp only [syscall, hfault] at h
      cases h

theorem wrap_ok {f : Text → Text} {m : Sys α} {a : α} (h : wrap f m w = (.ok a, w')) :
    m w = (.ok a, w') := by
  obtain ⟨hr, hw⟩ := Prod.mk.inj h
  exact Prod.ext (wrapError_ok hr) hw

theorem onError_ok {m : Sys α} {cleanup : Sys Unit} {a : α}
    (h : onError m cleanup w = (.ok a, w')) : m w = (.ok a, w') := by
  rcases hm : m w with ⟨r, v⟩
  cases r with
  | ok b => simpa only [onError, hm] using h
  | error e =>
      cases e with
      | error msg =>
          simp only [onError, hm, errorf] at h
          cases h
      | panic =>
          simp only [onError, hm] at h
          cases h

theorem readDir_ok {dir : Text} {f : Folder Text FileEntry} (h : readDir host dir w = (.ok f, w')) :
    w.disk.folder (host.locate dir) = some f ∧ w'.disk = w.disk := by
  have hop := syscall_ok h
  cases hdisk : w.disk.folder (host.locate dir) with
  | none =>
      simp only [hdisk] at hop
      cases hop
  | some f' =>
      simp only [hdisk] at hop
      cases hop
      exact ⟨rfl, rfl⟩

theorem readFile_ok {contents : Text} (h : readFile host p w = (.ok contents, w')) :
    w.disk.entryAt (placeOf host p) = some (.file contents) ∧ w'.disk = w.disk := by
  have hop := syscall_ok h
  rcases hentry : w.disk.entryAt (placeOf host p) with _ | _ | _ <;> simp only [hentry] at hop <;>
    cases hop
  exact ⟨rfl, rfl⟩

theorem stat_ok {x : Spot Text} {e : Option FileEntry} (h : stat host x w = (.ok e, w')) :
    e = w.disk.entryAt x ∧ w'.disk = w.disk := by
  have hop := syscall_ok h
  cases hop
  exact ⟨rfl, rfl⟩

theorem mkdir_ok {path : Text} {x : Spot Text} (h : mkdir host path x w = (.ok (), w')) :
    w.disk.entryAt x = none ∧ w.disk.HasDir x.1 ∧ w'.disk = w.disk.makeDir x := by
  have hop := syscall_ok h
  split_ifs at hop with hat hdir
  · cases hop
  · cases hop
    exact ⟨not_not.mp hat, hdir, rfl⟩
  · cases hop

theorem mkdirAt_ok {d : Place Text} {path : Text} (h : mkdirAt host d path w = (.ok (), w')) :
    w'.disk.HasDir d := by
  induction d generalizing path w' with
  | nil => exact w'.disk.root
  | cons name d ih =>
      obtain ⟨e, w1, hstat, hrest⟩ := bind_eq_ok.mp h
      obtain ⟨rfl, hdisk⟩ := stat_ok hstat
      rcases hat : w.disk.entryAt (d, name) with _ | _ | _ <;> simp only [hat] at hrest
      · obtain ⟨_, w2, -, hmk⟩ := bind_eq_ok.mp hrest
        obtain ⟨hnone, hdir, hmade⟩ := mkdir_ok hmk
        show w'.disk.HasDir (below (d, name))
        rw [hasDir_below, hmade, entryAt_makeDir, if_pos ⟨rfl, hnone, hdir⟩]
      · obtain ⟨herr, -⟩ := lift_eq_ok.mp hrest
        cases herr
      · obtain ⟨-, rfl⟩ := pure_eq_ok.mp hrest
        show w1.disk.HasDir (below (d, name))
        rw [hasDir_below, hdisk, hat]

/-- **What `os.MkdirAll` has made where it succeeds.** -/
theorem mkdirAll_ok {dir : Text} (h : mkdirAll host dir w = (.ok (), w')) :
    w'.disk.HasDir (host.locate dir) := mkdirAt_ok h

theorem writeFile_ok {contents : Text} (h : writeFile host p contents w = (.ok (), w')) :
    w.disk.Writable (placeOf host p) ∧ w'.disk = w.disk.write (placeOf host p) contents := by
  have hop := syscall_ok h
  split_ifs at hop with hat hdir
  · cases hop
  · cases hop
    exact ⟨⟨hdir, hat⟩, rfl⟩
  · cases hop

theorem writeString_ok {s : Text} (h : writeString host p s w = (.ok (), w')) :
    w'.disk = w.disk.write (placeOf host p) s := by
  have hop := syscall_ok h
  cases hop
  rfl

theorem closeFile_ok (h : closeFile host w = (.ok (), w')) : w'.disk = w.disk := by
  have hop := syscall_ok h
  cases hop
  rfl

theorem parseSource_ok {prog : Program} (h : parseSource host p w = (.ok prog, w')) :
    ∃ contents file, w.disk.entryAt (placeOf host p) = some (.file contents) ∧
      host.frontEnd p contents = .ok file ∧ parseFile file = .ok prog ∧ w'.disk = w.disk := by
  obtain ⟨contents, w1, hread, hrest⟩ := bind_eq_ok.mp h
  obtain ⟨file, w2, hfront, hparse⟩ := bind_eq_ok.mp hrest
  obtain ⟨hentry, hdisk⟩ := readFile_ok (wrap_ok hread)
  obtain ⟨hfile, rfl⟩ := lift_eq_ok.mp hfront
  obtain ⟨hprog, rfl⟩ := lift_eq_ok.mp hparse
  exact ⟨contents, file, hentry, hfile, hprog, hdisk⟩

/-- What the bindings of an input leave in their file. -/
theorem translateBindings_ok {prog : Program} {sourcemap : Text} {b : Option Path}
    (hdir : opts.bindingsDir ≠ [])
    (h : translateBindings host opts p prog sourcemap w = (.ok b, w')) :
    b = some (bindingsPath opts p) ∧ ∃ text, bindingsOf host opts p prog sourcemap = .ok text ∧
      w'.disk.entryAt (placeOf host (bindingsPath opts p)) = some (.file text) := by
  rw [translateBindings, if_neg hdir] at h
  obtain ⟨_, w1, hmk, h⟩ := bind_eq_ok.mp h
  obtain ⟨_, w2, hcreate, h⟩ := bind_eq_ok.mp h
  obtain ⟨_, w3, hwrite, h⟩ := bind_eq_ok.mp h
  obtain ⟨_, w4, hclose, h⟩ := bind_eq_ok.mp h
  obtain ⟨text, w5, hlift, hstring⟩ := bind_eq_ok.mp (onError_ok (wrap_ok hwrite))
  obtain ⟨htext, rfl⟩ := lift_eq_ok.mp hlift
  obtain ⟨hb, rfl⟩ := pure_eq_ok.mp h
  obtain ⟨hwritable, hdisk⟩ := writeFile_ok (wrap_ok hcreate)
  have hagain : w2.disk.Writable (placeOf host (bindingsPath opts p)) := by
    rw [hdisk]
    exact hwritable.write _ _
  refine ⟨hb.symm, text, htext, ?_⟩
  rw [closeFile_ok (wrap_ok hclose), writeString_ok hstring]
  exact entryAt_write_self hagain text

/-- The last letters of the names of the files tell them apart. -/
theorem placeOf_ne {q r : Path} (h : q.name.getLast? ≠ r.name.getLast?) :
    placeOf host q ≠ placeOf host r := fun heq => h (congrArg List.getLast? (Prod.mk.inj heq).2)

theorem getLast?_cPath (opts : RunOptions) (p : Path) :
    (cPath opts p).name.getLast? = some 'c' := by
  rw [cPath, List.getLast?_append]
  rfl

theorem getLast?_mapPath (opts : RunOptions) (p : Path) :
    (mapPath opts p).name.getLast? = some 'p' := by
  rw [mapPath, Path.append, List.getLast?_append]
  rfl

theorem getLast?_bindingsPath (opts : RunOptions) (p : Path) :
    (bindingsPath opts p).name.getLast? = some 'o' := by
  rw [bindingsPath, List.getLast?_append]
  rfl

theorem outputsOf_of_bindings {p : Path} {contents source sourcemap text : Text} {prog : Program}
    (hcompile : compile host opts p contents = .ok (prog, source, sourcemap))
    (hdir : opts.bindingsDir ≠ []) (htext : bindingsOf host opts p prog sourcemap = .ok text) :
    outputsOf host opts p contents = .ok ⟨source, sourcemap, some text⟩ := by
  rw [outputsOf, hcompile]
  refine (if_neg hdir).trans ?_
  rw [htext]
  rfl

/-- **What a translated input leaves on the disk.** -/
theorem translateOne_ok {r : RunResult} (h : translateOne host opts p w = (.ok r, w')) :
    r = resultOf opts p ∧ ∃ contents out,
      w.disk.entryAt (placeOf host p) = some (.file contents) ∧
      outputsOf host opts p contents = .ok out ∧ Stored host opts p out w'.disk := by
  rw [translateOne] at h
  obtain ⟨prog, w1, hparse, h1⟩ := bind_eq_ok.mp h
  obtain ⟨_, w2, hcheck, h2⟩ := bind_eq_ok.mp h1
  obtain ⟨⟨source, mappings⟩, w3, hsource, h3⟩ := bind_eq_ok.mp h2
  obtain ⟨_, w4, hc, h4⟩ := bind_eq_ok.mp h3
  obtain ⟨_, w5, hmap, h5⟩ := bind_eq_ok.mp h4
  obtain ⟨b, w6, hb, h6⟩ := bind_eq_ok.mp h5
  obtain ⟨contents, file, hentry, hfile, hprog, hdisk1⟩ := parseSource_ok (wrap_ok hparse)
  obtain ⟨hvalid, rfl⟩ := lift_eq_ok.mp hcheck
  obtain ⟨hemit, rfl⟩ := lift_eq_ok.mp hsource
  obtain ⟨hcwrite, hdisk4⟩ := writeFile_ok (wrap_ok hc)
  obtain ⟨hmwrite, hdisk5⟩ := writeFile_ok (wrap_ok hmap)
  obtain ⟨hr, rfl⟩ := pure_eq_ok.mp h6
  have hcm : placeOf host (cPath opts p) ≠ placeOf host (mapPath opts p) :=
    placeOf_ne (by simp [getLast?_cPath, getLast?_mapPath])
  have hcb : placeOf host (cPath opts p) ≠ placeOf host (bindingsPath opts p) :=
    placeOf_ne (by simp [getLast?_cPath, getLast?_bindingsPath])
  have hmb : placeOf host (mapPath opts p) ≠ placeOf host (bindingsPath opts p) :=
    placeOf_ne (by simp [getLast?_mapPath, getLast?_bindingsPath])
  rw [hdisk1] at hcwrite hdisk4
  rw [hdisk4] at hmwrite hdisk5
  have hcompile : compile host opts p contents =
      .ok (prog, source, formatSourceMap (mappings.map SourceMapping.toMapping)) := by
    simp only [compile, hfile, hprog, hvalid, wrapError_ok hemit, bind, Except.bind, pure,
      Except.pure]
  -- the C file and the source map, once they are written
  have hmapAt : w5.disk.entryAt (placeOf host (mapPath opts p)) =
      some (.file (formatSourceMap (mappings.map SourceMapping.toMapping))) := by
    rw [hdisk5]
    exact entryAt_write_self hmwrite _
  have hcAt : w5.disk.entryAt (placeOf host (cPath opts p)) = some (.file source) := by
    rw [hdisk5, entryAt_write_of_ne hcm]
    exact entryAt_write_self hcwrite _
  by_cases hdir : opts.bindingsDir = []
  · rw [translateBindings, if_pos hdir] at hb
    obtain ⟨_, w7, hprint, hpure⟩ := bind_eq_ok.mp hb
    obtain ⟨hnone, rfl⟩ := pure_eq_ok.mp hpure
    obtain ⟨-, rfl⟩ := Prod.mk.inj hprint
    refine ⟨by rw [← hr, ← hnone, resultOf, if_pos hdir], contents, ⟨source, _, none⟩, hentry, ?_,
      ⟨hcAt, hmapAt, fun text htext => by cases htext⟩⟩
    rw [outputsOf, hcompile]
    exact if_pos hdir
  · obtain ⟨hsome, text, htext, hstored⟩ := translateBindings_ok hdir hb
    have hgrows : Grows (· = placeOf host (bindingsPath opts p)) (BindingsWay host opts)
        w5.disk w6.disk := by
      have hbound : Respects (onDisk (growth (· = placeOf host (bindingsPath opts p))
          (BindingsWay host opts))) (translateBindings host opts p prog
            (formatSourceMap (mappings.map SourceMapping.toMapping))) :=
        respects_translateBindings (fun _ => Grows.write rfl) fun x hx => Grows.makeDir hx
      have hw := hbound w5
      rwa [hb] at hw
    refine ⟨by rw [← hr, hsome, resultOf, if_neg hdir], contents, ⟨source, _, some text⟩, hentry, ?_,
      ⟨(hgrows.entryAt_file hcb).mpr hcAt, (hgrows.entryAt_file hmb).mpr hmapAt, fun t ht => ?_⟩⟩
    · exact outputsOf_of_bindings hcompile hdir htext
    · cases ht
      exact hstored

/-- **An input that is rejected leaves the disk alone.** -/
theorem rejected_translateOne {contents : Text} {e : Failure}
    (hentry : w.disk.entryAt (placeOf host p) = some (.file contents))
    (h : compile host opts p contents = .error e) :
    (translateOne host opts p w).2.disk = w.disk := by
  have hkeeps : Respects (onDisk (.keeps id)) (wrap (p.text ++ ": " ++ ·) (parseSource host p)) :=
    respects_wrap _ respects_parseSource
  show (onDisk (.keeps id)).Rel w _
  rw [translateOne]
  refine Respects.bind_at (hkeeps w) fun prog w1 hparse => ?_
  obtain ⟨contents', file, hentry', hfile, hprog, -⟩ := parseSource_ok (wrap_ok hparse)
  refine Respects.bind_at (Respects.lift _ _) fun _ w2 hcheck => ?_
  refine Respects.bind_at (Respects.lift _ _) fun out w3 hsource => ?_
  have hcontents : contents' = contents := by
    rw [hentry] at hentry'
    cases hentry'
    rfl
  obtain ⟨hvalid, -⟩ := lift_eq_ok.mp hcheck
  obtain ⟨hemit, -⟩ := lift_eq_ok.mp hsource
  rw [hcontents] at hfile
  simp only [compile, hfile, hprog, hvalid, wrapError_ok hemit, bind, Except.bind, pure,
    Except.pure] at h
  cases h

/-! ### Without faults -/

section

variable (hfault : ∀ n, host.fault n = none)

include hfault

theorem syscall_quiet (spoil : Option Text → Disk → Disk) (op : Sys α) (w : World) :
    syscall host spoil op w = op { w with calls := w.calls + 1 } := by
  simp only [syscall, hfault]

theorem readDir_quiet {dir : Text} {f : Folder Text FileEntry} (h : w.disk.folder (host.locate dir) = some f) :
    ∃ w', readDir host dir w = (.ok f, w') := by
  refine ⟨{ w with calls := w.calls + 1 }, (syscall_quiet hfault _ _ w).trans ?_⟩
  simp only [h]

theorem readFile_quiet {contents : Text}
    (h : w.disk.entryAt (placeOf host p) = some (.file contents)) :
    ∃ w', readFile host p w = (.ok contents, w') := by
  refine ⟨{ w with calls := w.calls + 1 }, (syscall_quiet hfault _ _ w).trans ?_⟩
  simp only [h]

theorem mkdir_quiet (path : Text) {x : Spot Text} (hnone : w.disk.entryAt x = none)
    (hdir : w.disk.HasDir x.1) : ∃ w', mkdir host path x w = (.ok (), w') := by
  refine ⟨{ w with disk := w.disk.makeDir x, calls := w.calls + 1 },
    (syscall_quiet hfault _ _ w).trans ?_⟩
  exact (if_neg (not_not.mpr hnone)).trans (if_pos hdir)

theorem mkdirAt_quiet {d : Place Text} (path : Text) :
    ∀ w : World, w.disk.Passable d → ∃ w', mkdirAt host d path w = (.ok (), w') := by
  induction d generalizing path with
  | nil => exact fun w _ => ⟨w, rfl⟩
  | cons name d ih =>
      intro w h
      obtain ⟨w1, hstat⟩ : ∃ w', stat host (d, name) w = (.ok (w.disk.entryAt (d, name)), w') :=
        ⟨_, syscall_quiet hfault _ _ w⟩
      obtain ⟨-, hdisk⟩ := stat_ok hstat
      rcases h (d, name) (onWay_cons.mpr (.inl rfl)) with hat | hat
      · obtain ⟨w2, habove⟩ := ih (parentText path) w1 fun x hx => by
          rw [hdisk]
          exact h x (onWay_cons.mpr (.inr hx))
        have hgrows : Grows (fun _ => False) (OnWay d) w1.disk w2.disk := by
          have hbound : Respects (onDisk (growth (fun _ => False) (OnWay d)))
              (mkdirAt host d (parentText path)) := respects_mkdirAt (fun x hx => Grows.makeDir hx) _
          have hw := hbound w1
          rwa [habove] at hw
        have hnone : w2.disk.entryAt (d, name) = none := by
          rw [hgrows.entryAt_eq (fun h => h) (not_onWay_self d name), hdisk, hat]
        obtain ⟨w3, hmk⟩ := mkdir_quiet hfault path hnone (mkdirAt_ok habove)
        refine ⟨w3, (bind_of_ok hstat).trans ?_⟩
        simp only [hat]
        exact (bind_of_ok habove).trans hmk
      · refine ⟨w1, (bind_of_ok hstat).trans ?_⟩
        simp only [hat]
        rfl

/-- A free way is enough for `os.MkdirAll`. -/
theorem mkdirAll_quiet {dir : Text} (h : w.disk.Passable (host.locate dir)) :
    ∃ w', mkdirAll host dir w = (.ok (), w') := mkdirAt_quiet hfault dir w h

theorem writeFile_quiet (h : w.disk.Writable (placeOf host p)) (contents : Text) :
    ∃ w', writeFile host p contents w = (.ok (), w') := by
  refine ⟨{ w with disk := w.disk.write (placeOf host p) contents, calls := w.calls + 1 },
    (syscall_quiet hfault _ _ w).trans ?_⟩
  exact (if_neg h.2).trans (if_pos h.1)

theorem writeString_quiet (p : Path) (s : Text) (w : World) :
    ∃ w', writeString host p s w = (.ok (), w') := ⟨_, syscall_quiet hfault _ _ w⟩

theorem closeFile_quiet (w : World) : ∃ w', closeFile host w = (.ok (), w') :=
  ⟨_, syscall_quiet hfault _ _ w⟩

omit hfault in
theorem wrap_of_ok {m : Sys α} {a : α} (f : Text → Text) (h : m w = (.ok a, w')) :
    wrap f m w = (.ok a, w') := by
  simp only [wrap, mapResult, h, wrapError]

/-- Without faults, an input that has a translation and places for it is translated. -/
theorem translateOne_quiet {contents : Text} {out : Outputs}
    (hentry : w.disk.entryAt (placeOf host p) = some (.file contents))
    (hout : outputsOf host opts p contents = .ok out)
    (hplaces : ∀ x ∈ placesOf host opts p,
      w.disk.entryAt x ≠ some .dir ∧ ¬ BindingsWay host opts x)
    (hdir : w.disk.HasDir (host.locate opts.outputDir))
    (hway : opts.bindingsDir ≠ [] → w.disk.Passable (host.locate opts.bindingsDir)) :
    ∃ r w', translateOne host opts p w = (.ok r, w') := by
  obtain ⟨⟨prog, source, sourcemap⟩, hcompile, hbindings⟩ := bind_ok hout
  obtain ⟨file, hfile, hrest⟩ := bind_ok hcompile
  obtain ⟨prog', hprog, hrest⟩ := bind_ok hrest
  obtain ⟨_, hvalid, hrest⟩ := bind_ok hrest
  obtain ⟨⟨source', mappings⟩, hemit, hrest⟩ := bind_ok hrest
  cases hrest
  -- the source is read first: nothing is written before it
  have hparse : ∃ w1, parseSource host p w = (.ok prog, w1) := by
    obtain ⟨w1, hread⟩ := readFile_quiet hfault hentry
    refine ⟨w1, ?_⟩
    rw [parseSource, bind_of_ok (wrap_of_ok _ hread), hfile]
    exact congrArg (fun r => (r, w1)) hprog
  obtain ⟨w1, hparse⟩ := hparse
  obtain ⟨-, -, -, -, -, hdisk1⟩ := parseSource_ok hparse
  -- the C file and its map stand in the output directory
  have hc : w1.disk.Writable (placeOf host (cPath opts p)) := by
    rw [hdisk1]
    exact ⟨hdir, (hplaces _ (by simp [placesOf])).1⟩
  obtain ⟨w2, hcwrite⟩ := writeFile_quiet hfault hc source
  have hm : w2.disk.Writable (placeOf host (mapPath opts p)) := by
    rw [(writeFile_ok hcwrite).2, hdisk1]
    exact Writable.write ⟨hdir, (hplaces _ (by simp [placesOf])).1⟩ _ _
  obtain ⟨w3, hmwrite⟩ := writeFile_quiet hfault hm
    (formatSourceMap (mappings.map SourceMapping.toMapping))
  have hwritten : Grows (· ∈ placesOf host opts p) (BindingsWay host opts) w.disk w3.disk := by
    rw [(writeFile_ok hmwrite).2, (writeFile_ok hcwrite).2, hdisk1]
    exact (Grows.write (by simp [placesOf]) _ _).trans (Grows.write (by simp [placesOf]) _ _)
  -- the bindings, if any, need a directory of their own
  have hb : ∃ b w4, translateBindings host opts p prog
      (formatSourceMap (mappings.map SourceMapping.toMapping)) w3 = (.ok b, w4) := by
    rw [translateBindings]
    split_ifs with hnil
    · exact ⟨none, _, rfl⟩
    · obtain ⟨text, htext, -⟩ := bind_ok ((if_neg hnil).symm.trans hbindings)
      have hpass : w3.disk.Passable (host.locate opts.bindingsDir) :=
        hwritten.passable_of_files (hway hnil) fun x hx hmem => (hplaces x hmem).2 ⟨hnil, hx⟩
      obtain ⟨w4, hmk⟩ := mkdirAll_quiet hfault hpass
      have hmade : Grows (· ∈ placesOf host opts p) (BindingsWay host opts) w3.disk w4.disk := by
        have hbound : Respects (onDisk (growth (· ∈ placesOf host opts p) (BindingsWay host opts)))
            (mkdirAll host opts.bindingsDir) :=
          respects_mkdirAll fun x hx => Grows.makeDir ⟨hnil, hx⟩
        have hw := hbound w3
        rwa [hmk] at hw
      have hwritable : w4.disk.Writable (placeOf host (bindingsPath opts p)) := by
        have hplace := hplaces _ (mem_placesOf.mpr (.inr (.inr ⟨hnil, rfl⟩)))
        exact ⟨mkdirAll_ok hmk, (hwritten.trans hmade).ne_dir hplace.2 hplace.1⟩
      obtain ⟨w5, hcreate⟩ := writeFile_quiet hfault hwritable []
      obtain ⟨w6, hstring⟩ := writeString_quiet hfault (bindingsPath opts p) text w5
      obtain ⟨w7, hclose⟩ := closeFile_quiet hfault w6
      have hbody : writeBindingsTo host opts p prog
          (formatSourceMap (mappings.map SourceMapping.toMapping)) (bindingsPath opts p) w5 =
            (.ok (), w6) := by
        rw [writeBindingsTo, htext]
        exact hstring
      have hcleanup : onError (writeBindingsTo host opts p prog
          (formatSourceMap (mappings.map SourceMapping.toMapping)) (bindingsPath opts p))
            (closeFile host) w5 = (.ok (), w6) := by
        simp only [onError, hbody]
      refine ⟨some (bindingsPath opts p), w7, ?_⟩
      refine (bind_of_ok (wrap_of_ok _ hmk)).trans ?_
      refine (bind_of_ok (wrap_of_ok _ hcreate)).trans ?_
      refine (bind_of_ok (wrap_of_ok _ hcleanup)).trans ?_
      exact bind_of_ok (wrap_of_ok _ hclose)
  obtain ⟨b, w4, hb⟩ := hb
  have hcheck : (lift (checkValid prog) : Sys Unit) w1 = (.ok (), w1) := by
    rw [lift, hvalid]
  have hsource : (lift (wrapError ("emit " ++ p.text ++ ": " ++ ·)
      (emit prog (sourceLabel opts p))) : Sys _) w1 = (.ok (source, mappings), w1) := by
    rw [lift, hemit]
    rfl
  refine ⟨⟨p, cPath opts p, mapPath opts p, b, stemOf p⟩, w4, ?_⟩
  refine (bind_of_ok (wrap_of_ok _ hparse)).trans ?_
  refine (bind_of_ok hcheck).trans ?_
  refine (bind_of_ok hsource).trans ?_
  refine (bind_of_ok (wrap_of_ok _ hcwrite)).trans ?_
  refine (bind_of_ok (wrap_of_ok _ hmwrite)).trans ?_
  exact bind_of_ok hb

end

end

end

end Gobee
