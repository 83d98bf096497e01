/-
# Runs of the pipeline

`Run` from the listing of the directory to the last file, whatever system calls fail.

* `run_safe` : **in every run the results are those of a first part of the inputs, their
  files hold the translations of what the inputs held before, and nothing else has changed
  but files of the input at which the run has stopped, and the directories made for the
  output**.
-/
import Gobee.PipelineDisk

namespace Gobee

open Effects Eff Folders FolderTree

section

variable {host : Host} {opts : RunOptions} {w w' : World}

/-! ## The inputs -/

/-- The names of a directory are names of files, if it is there. -/
def ListedAt (host : Host) (dir : Text) (disk : Disk) : Prop :=
  ∀ f, disk.folder (host.locate dir) = some f → ∀ name ∈ f.map Prod.fst, PlainName name

/-- An entry of a directory is an input. -/
def isInput : Text × FileEntry → Bool
  | (_, .dir) => false
  | (name, .file body) => isGoFile name && (afterFirst licenseMark body).isSome

/-- The inputs in a directory of the disk. -/
def inputsOf (host : Host) (dir : Text) (disk : Disk) : List Path :=
  match disk.folder (host.locate dir) with
  | none => []
  | some f => (f.filter isInput).map fun e => ⟨dir, e.1⟩

theorem scanEntries_ok {dir : Text} {f : Folder Text FileEntry} {entries : Folder Text FileEntry}
    (hfind : ∀ e ∈ entries, find e.1 f = some e.2) :
    ∀ inputs w w', w.disk.folder (host.locate dir) = some f →
      scanEntries host dir entries w = (.ok inputs, w') →
      inputs = (entries.filter isInput).map (fun e => ⟨dir, e.1⟩) ∧ w'.disk = w.disk := by
  induction entries with
  | nil =>
      intro inputs w w' _ h
      rw [scanEntries] at h
      obtain ⟨rfl, rfl⟩ := pure_eq_ok.mp h
      exact ⟨rfl, rfl⟩
  | cons e entries ih =>
      intro inputs w w' hdisk h
      obtain ⟨name, entry⟩ := e
      have hrest := ih fun e he => hfind e (List.mem_cons_of_mem _ he)
      rw [scanEntries] at h
      split_ifs at h with hskip
      · have hnot : isInput (name, entry) = false := by
          rcases hskip with rfl | hgo
          · rfl
          · cases entry <;> simp [isInput, hgo]
        rw [List.filter_cons_of_neg (by rw [hnot]; simp)]
        exact hrest _ _ _ hdisk h
      · obtain ⟨body, w1, hread, h1⟩ := bind_eq_ok.mp h
        obtain ⟨later, w2, hscan, h2⟩ := bind_eq_ok.mp h1
        obtain ⟨hinputs, rfl⟩ := pure_eq_ok.mp h2
        obtain ⟨hentry, hdisk1⟩ := readFile_ok (wrap_ok hread)
        obtain ⟨hlater, hdisk2⟩ := hrest _ _ _ (by rw [hdisk1, hdisk]) hscan
        have hfile : entry = .file body := by
          have hfound := hfind (name, entry) List.mem_cons_self
          rw [entryAt, placeOf, hdisk, Option.bind_some, hfound] at hentry
          exact Option.some.inj hentry
        refine ⟨?_, hdisk2.trans hdisk1⟩
        have hgo : isGoFile name = true := by
          by_contra hgo
          exact hskip (.inr (by simpa using hgo))
        rw [← hinputs, hlater, hfile, List.filter_cons, isInput, hgo, Bool.true_and]
        split_ifs <;> rfl

/-- The inputs are found as they are. -/
theorem findInputs_ok {dir : Text} {inputs : List Path}
    (h : findInputs host dir w = (.ok inputs, w')) :
    inputs = inputsOf host dir w.disk ∧ w'.disk = w.disk := by
  obtain ⟨f, w1, hread, hscan⟩ := bind_eq_ok.mp h
  obtain ⟨hdisk, hdisk1⟩ := readDir_ok (wrap_ok hread)
  obtain ⟨hinputs, hdisk2⟩ :=
    scanEntries_ok (fun e he => find_of_mem (w.disk.nodup _ f hdisk) he) _ _ _
      (by rw [hdisk1, hdisk]) hscan
  refine ⟨?_, hdisk2.trans hdisk1⟩
  rw [hinputs, inputsOf, hdisk]

theorem respects_scanEntries {G : Guarantee Disk} (dir : Text) (entries : Folder Text FileEntry) :
    Respects (onDisk G) (scanEntries host dir entries) := by
  induction entries with
  | nil => exact Respects.pure _
  | cons e entries ih =>
      rw [scanEntries]
      split_ifs
      · exact ih
      · exact (respects_wrap _ (respects_readFile _)).bind fun _ => ih.bind fun _ => Respects.pure _

theorem respects_findInputs {G : Guarantee Disk} (dir : Text) :
    Respects (onDisk G) (findInputs host dir) :=
  (respects_wrap _ (respects_readDir dir)).bind fun f => respects_scanEntries dir f

/-- What an input is. -/
theorem exists_of_mem_inputsOf {dir : Text} {disk : Disk} {p : Path}
    (hlisted : ListedAt host dir disk) (h : p ∈ inputsOf host dir disk) :
    p.dir = dir ∧ PlainName p.name ∧ isGoFile p.name = true ∧
      ∃ body, disk.entryAt (placeOf host p) = some (.file body) := by
  rw [inputsOf] at h
  cases hdisk : disk.folder (host.locate dir) with
  | none =>
      rw [hdisk] at h
      cases h
  | some f =>
      rw [hdisk] at h
      obtain ⟨e, he, rfl⟩ := List.mem_map.mp h
      obtain ⟨hmem, hinput⟩ := List.mem_filter.mp he
      obtain ⟨name, _ | _⟩ := e
      · rename_i body
        rw [isInput, Bool.and_eq_true] at hinput
        refine ⟨rfl, hlisted f hdisk _ (List.mem_map_of_mem hmem), hinput.1, body, ?_⟩
        rw [entryAt, placeOf, hdisk]
        exact find_of_mem (disk.nodup _ f hdisk) hmem
      · cases hinput

/-- The name of an input is its stem with the suffix. -/
theorem stemOf_append {p : Path} (hname : PlainName p.name) (hgo : isGoFile p.name = true) :
    stemOf p ++ ".go" = p.name := by
  rw [isGoFile, Bool.and_eq_true, List.isSuffixOf_iff_suffix] at hgo
  obtain ⟨⟨stem, hstem⟩, -⟩ := hgo
  have hbase : basePath p.text = p.name := basePath_joinPath p.dir hname
  have hsuffix : (".go" : Text).isSuffixOf p.name = true :=
    List.isSuffixOf_iff_suffix.mpr ⟨stem, hstem⟩
  rw [stemOf, hbase, if_pos hsuffix, ← hstem]
  simp

/-- A stem with a suffix is the name of a file. -/
theorem plainName_stem {p : Path} (suffix : Text) (hname : PlainName p.name)
    (hgo : isGoFile p.name = true) (hslash : '/' ∉ suffix) (hlen : 2 < suffix.length) :
    PlainName (stemOf p ++ suffix) := by
  have hstem : '/' ∉ stemOf p := fun hmem =>
    hname.noSlash (by rw [← stemOf_append hname hgo]; exact List.mem_append_left _ hmem)
  have hlong : 2 < (stemOf p ++ suffix).length := by
    rw [List.length_append]
    omega
  refine ⟨?_, by simp [hstem, hslash], ?_, ?_⟩ <;> intro heq <;> rw [heq] at hlong <;>
    simp at hlong

/-! ## The files of two inputs -/

/-- The files of the inputs are apart from the inputs and from each other. -/
structure Separate (host : Host) (opts : RunOptions) (inputs : List Path) : Prop where
  sources : ∀ p ∈ inputs, ∀ q ∈ inputs, placeOf host q ∉ placesOf host opts p
  outputs : inputs.Pairwise fun p q => ∀ x ∈ placesOf host opts p, x ∉ placesOf host opts q

/-- No input is where the bindings of an input are written. -/
def BindingsApart (host : Host) (opts : RunOptions) (inputs : List Path) : Prop :=
  opts.bindingsDir ≠ [] →
    ∀ p ∈ inputs, ∀ q ∈ inputs, placeOf host q ≠ placeOf host (bindingsPath opts p)

/-- Two files of one name belong to inputs with one stem. -/
theorem stemOf_eq_of_mem {p q : Path} {x : Spot Text} (hp : x ∈ placesOf host opts p)
    (hq : x ∈ placesOf host opts q) : stemOf p = stemOf q := by
  have hname : ∀ {a b : Path}, x = placeOf host a → x = placeOf host b → a.name = b.name :=
    fun ha hb => (Prod.mk.inj (ha.symm.trans hb)).2
  have hlast : ∀ {a b : Path}, x = placeOf host a → x = placeOf host b →
      a.name.getLast? = b.name.getLast? := fun ha hb => congrArg List.getLast? (hname ha hb)
  rw [mem_placesOf] at hp hq
  rcases hp with hp | hp | ⟨-, hp⟩ <;> rcases hq with hq | hq | ⟨-, hq⟩
  · exact List.append_cancel_right (hname hp hq)
  · simpa [getLast?_cPath, getLast?_mapPath] using hlast hp hq
  · simpa [getLast?_cPath, getLast?_bindingsPath] using hlast hp hq
  · simpa [getLast?_cPath, getLast?_mapPath] using hlast hp hq
  · exact List.append_cancel_right (List.append_cancel_right (hname hp hq))
  · simpa [getLast?_mapPath, getLast?_bindingsPath] using hlast hp hq
  · simpa [getLast?_cPath, getLast?_bindingsPath] using hlast hp hq
  · simpa [getLast?_mapPath, getLast?_bindingsPath] using hlast hp hq
  · exact List.append_cancel_right (hname hp hq)

/-- **The files of the inputs of a directory are apart.** -/
theorem separate_inputsOf {dir : Text} {disk : Disk}
    (hlisted : ListedAt host dir disk)
    (hapart : BindingsApart host opts (inputsOf host dir disk)) :
    Separate host opts (inputsOf host dir disk) where
  sources := by
    intro p hp q hq hmem
    obtain ⟨-, hname, hgo, -⟩ := exists_of_mem_inputsOf hlisted hq
    have hlast : q.name.getLast? = some 'o' := by
      rw [← stemOf_append hname hgo, List.getLast?_append]
      rfl
    have hne : ∀ {a : Path}, placeOf host q = placeOf host a → a.name.getLast? = some 'o' :=
      fun heq => by rw [← (Prod.mk.inj heq).2, hlast]
    -- the C file and the map do not end in .go, the bindings are apart by hypothesis
    rcases mem_placesOf.mp hmem with h | h | ⟨hdir, h⟩
    · simpa [getLast?_cPath] using hne h
    · simpa [getLast?_mapPath] using hne h
    · exact hapart hdir p hp q hq h
  outputs := by
    have hinj : ∀ p ∈ inputsOf host dir disk, ∀ q ∈ inputsOf host dir disk,
        stemOf p = stemOf q → p = q := by
      intro p hp q hq heq
      obtain ⟨hpdir, hpname, hpgo, -⟩ := exists_of_mem_inputsOf hlisted hp
      obtain ⟨hqdir, hqname, hqgo, -⟩ := exists_of_mem_inputsOf hlisted hq
      have hname : p.name = q.name := by
        rw [← stemOf_append hpname hpgo, heq, stemOf_append hqname hqgo]
      obtain ⟨pdir, pname⟩ := p
      obtain ⟨qdir, qname⟩ := q
      cases hname
      cases hpdir
      cases hqdir
      rfl
    have hnodup : (inputsOf host dir disk).Nodup := by
      rw [inputsOf]
      cases hdisk : disk.folder (host.locate dir) with
      | none => exact List.nodup_nil
      | some f =>
          have hkeys : ((f.filter isInput).map Prod.fst).Nodup :=
            (disk.nodup _ f hdisk).sublist (List.filter_sublist.map _)
          refine List.Nodup.of_map Path.name ?_
          rwa [List.map_map]
    refine hnodup.imp_of_mem fun hp hq hne x hx hx' => ?_
    exact hne (hinj _ hp _ hq (stemOf_eq_of_mem hx hx'))

/-! ## The loop -/


/-- The spot is on the way to a directory that is made for the output. -/
def OutputWay (host : Host) (opts : RunOptions) (x : Spot Text) : Prop :=
  OnWay (host.locate opts.outputDir) x ∨ BindingsWay host opts x

/-- An input has the result for it, and its files hold the translation of what it held. -/
structure Translated (host : Host) (opts : RunOptions) (before after : Disk) (p : Path)
    (r : RunResult) : Prop where
  result : r = resultOf opts p
  stored : ∃ contents out, before.entryAt (placeOf host p) = some (.file contents) ∧
    outputsOf host opts p contents = .ok out ∧ Stored host opts p out after

/-- The spot is a file of one of the inputs. -/
def FileOf (host : Host) (opts : RunOptions) (inputs : List Path) (x : Spot Text) : Prop :=
  ∃ p ∈ inputs, x ∈ placesOf host opts p

/-- A run over the inputs in `done` that has stopped at the first one in `rest`, if there is
one. -/
structure Stops (host : Host) (opts : RunOptions) (before after : Disk)
    (done rest : List Path) (results : List RunResult) : Prop where
  translated : List.Forall₂ (Translated host opts before after) done results
  /-- The sources are as they were. -/
  sources : ∀ p ∈ done ++ rest, after.entryAt (placeOf host p) = before.entryAt (placeOf host p)
  /-- Only files of the inputs up to the one at which the run has stopped are written, and only
  the directories of the output are made. -/
  frame : Grows (FileOf host opts (done ++ rest.head?.toList)) (OutputWay host opts) before after
  /-- Where the run stops at an input that is rejected, its files are as they were, too. -/
  rejected : ∀ p ∈ rest.head?, ∀ contents e,
    before.entryAt (placeOf host p) = some (.file contents) →
    compile host opts p contents = .error e →
    Grows (FileOf host opts done) (OutputWay host opts) before after

/-- The inputs are files. -/
def AreFiles (host : Host) (disk : Disk) (inputs : List Path) : Prop :=
  ∀ p ∈ inputs, ∃ contents, disk.entryAt (placeOf host p) = some (.file contents)

/-- What made directories only before the run does not matter. -/
theorem Stops.of_before {before before' after : Disk} {done rest : List Path}
    {results : List RunResult} (h : Stops host opts before' after done rest results)
    (hfiles : AreFiles host before (done ++ rest))
    (hbefore : Grows (fun _ => False) (OutputWay host opts) before before') :
    Stops host opts before after done rest results where
  translated := by
    refine h.translated.imp ?_
    rintro p r ⟨hr, contents, out, hentry, hout⟩
    exact ⟨hr, contents, out, (hbefore.entryAt_file fun h => h).mp hentry, hout⟩
  sources p hp := by
    obtain ⟨contents, hentry⟩ := hfiles p hp
    rw [h.sources p hp, hentry]
    exact (hbefore.entryAt_file fun h => h).mpr hentry
  frame := (hbefore.mono (fun _ h => h.elim) fun _ h => h).trans h.frame
  rejected p hp contents e hentry hcompile :=
    (hbefore.mono (fun _ h => h.elim) fun _ h => h).trans
      (h.rejected p hp contents e ((hbefore.entryAt_file fun h => h).mpr hentry) hcompile)

theorem translateAll_of_error {p : Path} {e : Failure} (rest : List Path)
    (h : translateOne host opts p w = (.error e, w')) :
    translateAll host opts (p :: rest) w = (([], some e), w') := by
  rw [translateAll, h]

theorem translateAll_of_ok {p : Path} {r : RunResult} (rest : List Path)
    (h : translateOne host opts p w = (.ok r, w')) :
    translateAll host opts (p :: rest) w =
      ((r :: (translateAll host opts rest w').1.1, (translateAll host opts rest w').1.2),
        (translateAll host opts rest w').2) := by
  rw [translateAll, h]

/-- The loop stays within a bound that allows its inputs. -/
theorem rel_translateAll {G : Guarantee Disk} {inputs : List Path}
    (h : ∀ p ∈ inputs, Allows host opts p G) :
    ∀ w, G.Rel w.disk (translateAll host opts inputs w).2.disk := by
  induction inputs with
  | nil => exact fun w => G.refl w.disk
  | cons p rest ih =>
      intro w
      have hone : G.Rel w.disk (translateOne host opts p w).2.disk :=
        respects_translateOne (h p List.mem_cons_self) w
      rcases hr : translateOne host opts p w with ⟨_ | r, w'⟩
      · rw [translateAll_of_error rest hr]
        rwa [hr] at hone
      · rw [translateAll_of_ok rest hr]
        rw [hr] at hone
        exact G.trans hone (ih (fun q hq => h q (List.mem_cons_of_mem _ hq)) w')

/-- The growth of the disk while an input is translated. -/
theorem grows_translateOne {p : Path} {r : Except Failure RunResult}
    (h : translateOne host opts p w = (r, w')) :
    Grows (· ∈ placesOf host opts p) (BindingsWay host opts) w.disk w'.disk := by
  have hgrows : Grows (· ∈ placesOf host opts p) (BindingsWay host opts) w.disk
      (translateOne host opts p w).2.disk := respects_translateOne allows_growth w
  rwa [h] at hgrows

/-- The growth of the disk in the loop. -/
theorem grows_translateAll (host : Host) (opts : RunOptions) (inputs : List Path) (w : World) :
    Grows (FileOf host opts inputs) (BindingsWay host opts) w.disk
      (translateAll host opts inputs w).2.disk :=
  rel_translateAll (G := growth _ _) (fun p hp =>
    ⟨fun _ hx => Grows.write ⟨p, hp, hx⟩, fun _ hx => Grows.makeDir hx⟩) w

/-- Bindings are for a directory of their own. -/
theorem mem_bindings {p : Path} {contents : Text} {out : Outputs} {text : Text}
    (hout : outputsOf host opts p contents = .ok out) (h : out.bindings = some text) :
    placeOf host (bindingsPath opts p) ∈ placesOf host opts p := by
  refine mem_placesOf.mpr (.inr (.inr ⟨fun hdir => ?_, rfl⟩))
  obtain ⟨⟨prog, source, sourcemap⟩, -, hrest⟩ := bind_ok hout
  have hnone := (if_pos hdir).symm.trans hrest
  cases hnone
  cases h

/-- **The loop of `Run`, whatever system calls fail.** -/
theorem translateAll_stops {inputs : List Path} (h : Separate host opts inputs) :
    ∀ w : World, AreFiles host w.disk inputs → ∃ done rest, inputs = done ++ rest ∧
      ((translateAll host opts inputs w).1.2 = none ↔ rest = []) ∧
      Stops host opts w.disk (translateAll host opts inputs w).2.disk done rest
        (translateAll host opts inputs w).1.1 := by
  induction inputs with
  | nil =>
      refine fun w _ => ⟨[], [], rfl, ⟨fun _ => rfl, fun _ => rfl⟩, ?_⟩
      exact ⟨.nil, fun _ _ => rfl, Grows.refl _, fun _ _ _ _ _ _ => Grows.refl _⟩
  | cons p rest ih =>
      intro w hfiles
      have hpmem : p ∈ p :: rest := List.mem_cons_self
      rcases hr : translateOne host opts p w with ⟨e | r, w'⟩
      · have hone := grows_translateOne hr
        refine ⟨[], p :: rest, rfl, ?_, ?_⟩ <;> rw [translateAll_of_error rest hr]
        · simp
        · refine ⟨.nil, ?_, hone.mono (fun x hx => ⟨p, by simp, hx⟩) fun _ hx => .inr hx, ?_⟩
          · intro q hq
            obtain ⟨contents, hentry⟩ := hfiles q hq
            rw [hentry]
            exact (hone.entryAt_file (h.sources p hpmem q hq)).mpr hentry
          · rintro q hq contents e' hentry hcompile
            cases hq
            have hsame := rejected_translateOne hentry hcompile
            rw [hr] at hsame
            rw [hsame]
            exact Grows.refl _
      · obtain ⟨hres, contents, out, hentry, hout, hstored⟩ := translateOne_ok hr
        have hone := grows_translateOne hr
        obtain ⟨hfirst, hpair⟩ := List.pairwise_cons.mp h.outputs
        -- the later inputs see their sources as they were, and leave these files alone
        have hbefore : ∀ q ∈ rest, ∀ c, w'.disk.entryAt (placeOf host q) = some (.file c) ↔
            w.disk.entryAt (placeOf host q) = some (.file c) :=
          fun q hq c => hone.entryAt_file (h.sources p hpmem q (List.mem_cons_of_mem _ hq))
        have hfiles' : AreFiles host w'.disk rest := fun q hq => by
          obtain ⟨c, hc⟩ := hfiles q (List.mem_cons_of_mem _ hq)
          exact ⟨c, (hbefore q hq c).mpr hc⟩
        obtain ⟨done, rest', hsplit, hnone, hstops⟩ :=
          ih ⟨fun a ha b hb => h.sources a (List.mem_cons_of_mem _ ha) b (List.mem_cons_of_mem _ hb),
            hpair⟩ w' hfiles'
        have hlater := grows_translateAll host opts rest w'
        have hafter : ∀ x ∈ placesOf host opts p, ∀ c, w'.disk.entryAt x = some (.file c) →
            (translateAll host opts rest w').2.disk.entryAt x = some (.file c) := by
          intro x hx c hc
          refine (hlater.entryAt_file ?_).mpr hc
          rintro ⟨q, hq, hmem⟩
          exact hfirst q hq x hx hmem
        have hdone : ∀ q ∈ done ++ rest', q ∈ rest := fun q hq => hsplit ▸ hq
        refine ⟨p :: done, rest', by rw [hsplit, List.cons_append], ?_, ?_⟩ <;>
          rw [translateAll_of_ok rest hr]
        · exact hnone
        · refine ⟨.cons ⟨hres, contents, out, hentry, hout, ?_⟩ ?_, ?_, ?_, ?_⟩
          · exact ⟨hafter _ (by simp [placesOf]) _ hstored.source,
              hafter _ (by simp [placesOf]) _ hstored.sourcemap, fun text htext =>
                hafter _ (mem_bindings hout htext) _ (hstored.bindings text htext)⟩
          · refine ((List.forall₂_and_left _ _).mpr
              ⟨fun q hq => hbefore q (hdone q (List.mem_append_left _ hq)), hstops.translated⟩).imp ?_
            rintro q r' ⟨hq, hres', contents', out', hentry', hrest⟩
            exact ⟨hres', contents', out', (hq contents').mp hentry', hrest⟩
          · intro q hq
            have hmem : q ∈ p :: rest := by
              rcases List.mem_cons.mp hq with rfl | hq
              · exact hpmem
              · exact List.mem_cons_of_mem _ (hdone q hq)
            obtain ⟨c, hc⟩ := hfiles q hmem
            rw [hc]
            refine (hlater.entryAt_file ?_).mpr
              ((hone.entryAt_file (h.sources p hpmem q hmem)).mpr hc)
            rintro ⟨a, ha, hplace⟩
            exact h.sources a (List.mem_cons_of_mem _ ha) q hmem hplace
          · refine (hone.mono (fun x hx => ⟨p, by simp, hx⟩) fun _ hx => .inr hx).trans
              (hstops.frame.mono ?_ fun _ hx => hx)
            rintro x ⟨q, hq, hx⟩
            exact ⟨q, List.mem_cons_of_mem _ hq, hx⟩
          · intro q hq contents' e hentry' hcompile
            have hmem : q ∈ rest := hdone q (List.mem_append_right _ (List.mem_of_mem_head? hq))
            refine (hone.mono (fun x hx => ⟨p, by simp, hx⟩) fun _ hx => .inr hx).trans
              ((hstops.rejected q hq contents' e ((hbefore q hmem contents').mpr hentry')
                hcompile).mono ?_ fun _ hx => hx)
            rintro x ⟨a, ha, hx⟩
            exact ⟨a, List.mem_cons_of_mem _ ha, hx⟩

/-! ## The listing -/

theorem getLast?_of_isGoFile {name : Text} (h : isGoFile name = true) :
    name.getLast? = some 'o' := by
  rw [isGoFile, Bool.and_eq_true, List.isSuffixOf_iff_suffix] at h
  obtain ⟨⟨stem, rfl⟩, -⟩ := h
  rw [List.getLast?_append]
  rfl

theorem plain_put {name : Text} (e : FileEntry) (f : Folder Text FileEntry) (h : PlainName name) :
    (∀ n ∈ (put name e f).map Prod.fst, PlainName n) = ∀ n ∈ f.map Prod.fst, PlainName n := by
  have hperm := names_put name e f
  refine propext ⟨fun hput n hn => hput n (hperm.mem_iff.mpr ?_), fun hf n hn => ?_⟩
  · split_ifs
    · exact hn
    · exact List.mem_cons_of_mem _ hn
  · have hn := hperm.mem_iff.mp hn
    split_ifs at hn
    · exact hf n hn
    · rcases List.mem_cons.mp hn with rfl | hn
      · exact h
      · exact hf n hn

section

variable {x : Spot Text} {dir : Text}

theorem listedAt_write (h : PlainName x.2) (contents : Text) (disk : Disk) :
    ListedAt host dir (disk.write x contents) = ListedAt host dir disk := by
  rw [ListedAt, ListedAt]
  rcases folder_write x contents disk (host.locate dir) with heq | ⟨-, f, hf, heq⟩
  · rw [heq]
  · rw [heq, hf]
    simpa only [Option.some.injEq, forall_eq'] using plain_put _ f h

theorem listedAt_makeDir (h : PlainName x.2) (disk : Disk) :
    ListedAt host dir (disk.makeDir x) = ListedAt host dir disk := by
  rw [ListedAt, ListedAt]
  rcases folder_makeDir x disk (host.locate dir) with heq | ⟨hnone, heq⟩ | ⟨f, hf, -, heq⟩
  · rw [heq]
  · rw [heq, hnone]
    simp
  · rw [heq, hf]
    simpa only [Option.some.injEq, forall_eq'] using plain_put _ f h

theorem inputsOf_write (h : x.1 = host.locate dir → isGoFile x.2 = false) (contents : Text)
    (disk : Disk) : inputsOf host dir (disk.write x contents) = inputsOf host dir disk := by
  rw [inputsOf, inputsOf]
  rcases folder_write x contents disk (host.locate dir) with heq | ⟨hd, f, hf, heq⟩
  · rw [heq]
  · have hnot : ∀ e, isInput (x.2, e) = false := by
      intro e
      cases e <;> simp [isInput, h hd.symm]
    rw [heq, hf]
    simp only [filter_put hnot]

theorem inputsOf_makeDir (disk : Disk) :
    inputsOf host dir (disk.makeDir x) = inputsOf host dir disk := by
  rw [inputsOf, inputsOf]
  rcases folder_makeDir x disk (host.locate dir) with heq | ⟨hnone, heq⟩ | ⟨f, hf, hnew, heq⟩
  · rw [heq]
  · rw [heq, hnone]
    rfl
  · rw [heq, hf]
    simp only [filter_put_new hnew (show isInput (x.2, .dir) = false from rfl)]

end

/-- The names of the files of an input. -/
theorem plainName_of_mem {p : Path} (hname : PlainName p.name) (hgo : isGoFile p.name = true)
    {x : Spot Text} (h : x ∈ placesOf host opts p) : PlainName x.2 := by
  rcases mem_placesOf.mp h with rfl | rfl | ⟨-, rfl⟩
  · exact plainName_stem ".bpf.c" hname hgo (by decide) (by decide)
  · have hmap := plainName_stem (".bpf.c" ++ ".map") hname hgo (by decide) (by decide)
    rwa [← List.append_assoc] at hmap
  · exact plainName_stem "_bindings.go" hname hgo (by decide) (by decide)

theorem allows_listedAt {p : Path} (hname : PlainName p.name) (hgo : isGoFile p.name = true)
    (dir : Text) : Allows host opts p (.keeps (ListedAt host dir)) where
  write _ hx := listedAt_write (plainName_of_mem hname hgo hx)
  makeDir _ hx := listedAt_makeDir (host.plain _ _ (mem_of_onWay hx.2))

/-- No file of an input is taken for an input. -/
theorem allows_inputsOf (p : Path) {dir : Text}
    (hdir : opts.bindingsDir ≠ [] → host.locate opts.bindingsDir ≠ host.locate dir) :
    Allows host opts p (.keeps (inputsOf host dir)) where
  write x hx := inputsOf_write fun hd => by
    rcases mem_placesOf.mp hx with rfl | rfl | ⟨hne, rfl⟩
    · refine Bool.eq_false_iff.mpr fun h => ?_
      have hlast : (cPath opts p).name.getLast? = some 'o' := getLast?_of_isGoFile h
      rw [getLast?_cPath] at hlast
      cases hlast
    · refine Bool.eq_false_iff.mpr fun h => ?_
      have hlast : (mapPath opts p).name.getLast? = some 'o' := getLast?_of_isGoFile h
      rw [getLast?_mapPath] at hlast
      cases hlast
    · exact absurd hd (hdir hne)
  makeDir _ _ := inputsOf_makeDir

/-! ## A run -/

section

variable {options : RunOptions}

@[simp]
theorem inputDir_withDefaults (options : RunOptions) :
    options.withDefaults.inputDir = options.inputDir := by
  rw [RunOptions.withDefaults]
  split_ifs <;> rfl

@[simp]
theorem bindingsDir_withDefaults (options : RunOptions) :
    options.withDefaults.bindingsDir = options.bindingsDir := by
  rw [RunOptions.withDefaults]
  split_ifs <;> rfl

theorem BindingsApart.withDefaults {inputs : List Path} (h : BindingsApart host options inputs) :
    BindingsApart host options.withDefaults inputs := by
  intro hdir p hp q hq
  rw [bindingsDir_withDefaults] at hdir
  rw [bindingsPath, bindingsDir_withDefaults]
  exact h hdir p hp q hq

theorem prepare_ok {inputs : List Path} (h : prepare host opts w = (.ok inputs, w')) :
    inputs = inputsOf host opts.inputDir w.disk ∧ inputs ≠ [] ∧
      w'.disk.HasDir (host.locate opts.outputDir) := by
  obtain ⟨found, w1, hfind, hrest⟩ := bind_eq_ok.mp h
  obtain ⟨hfound, hdisk⟩ := findInputs_ok hfind
  split_ifs at hrest with hnil
  · cases hrest
  · obtain ⟨_, w2, hmk, hpure⟩ := bind_eq_ok.mp hrest
    obtain ⟨rfl, rfl⟩ := pure_eq_ok.mp hpure
    exact ⟨hfound, hnil, mkdirAll_ok (wrap_ok hmk)⟩

theorem respects_prepare {G : Guarantee Disk}
    (h : ∀ x, OnWay (host.locate opts.outputDir) x → ∀ disk : Disk, G.Rel disk (disk.makeDir x)) :
    Respects (onDisk G) (prepare host opts) := by
  refine (respects_findInputs _).bind fun inputs => ?_
  split_ifs
  · exact Respects.lift _
  · exact (respects_wrap _ (respects_mkdirAll h)).bind fun _ => Respects.pure _

theorem grows_prepare (host : Host) (opts : RunOptions) (w : World) :
    Grows (fun _ => False) (OutputWay host opts) w.disk (prepare host opts w).2.disk :=
  respects_prepare (G := growth _ _) (fun _ hx => Grows.makeDir (.inl hx)) w

theorem run_of_error {e : Failure} (h : prepare host options.withDefaults w = (.error e, w')) :
    run host options w = (([], some e), w') := by
  simp only [run, h]

theorem run_of_ok {inputs : List Path}
    (h : prepare host options.withDefaults w = (.ok inputs, w')) :
    run host options w = translateAll host options.withDefaults inputs w' := by
  simp only [run, h]

theorem areFiles_inputsOf {dir : Text} {disk : Disk} (hlisted : ListedAt host dir disk) :
    AreFiles host disk (inputsOf host dir disk) := fun _ hp =>
  (exists_of_mem_inputsOf hlisted hp).2.2.2

/-- The run once the inputs are found. -/
theorem stops_of_prepare {inputs : List Path} (hlisted : ListedAt host options.inputDir w.disk)
    (hapart : BindingsApart host options (inputsOf host options.inputDir w.disk))
    (h : prepare host options.withDefaults w = (.ok inputs, w')) :
    inputs = inputsOf host options.inputDir w.disk ∧ inputs ≠ [] ∧
      ∃ done rest, inputs = done ++ rest ∧ ((run host options w).1.2 = none ↔ rest = []) ∧
        Stops host options.withDefaults w.disk (run host options w).2.disk done rest
          (run host options w).1.1 := by
  have hgrows := grows_prepare host options.withDefaults w
  rw [h] at hgrows
  obtain ⟨hinputs, hne, -⟩ := prepare_ok h
  rw [inputDir_withDefaults] at hinputs
  have hfiles : AreFiles host w.disk inputs := hinputs ▸ areFiles_inputsOf hlisted
  have hfiles' : AreFiles host w'.disk inputs := fun p hp => by
    obtain ⟨contents, hentry⟩ := hfiles p hp
    exact ⟨contents, (hgrows.entryAt_file fun h => h).mpr hentry⟩
  obtain ⟨done, rest, hsplit, hnone, hstops⟩ :=
    translateAll_stops (hinputs ▸ separate_inputsOf hlisted hapart.withDefaults) w' hfiles'
  rw [run_of_ok h]
  exact ⟨hinputs, hne, done, rest, hsplit, hnone, hstops.of_before (hsplit ▸ hfiles) hgrows⟩

/-- **A run of the pipeline, whatever system calls fail.** -/
theorem run_safe (host : Host) (options : RunOptions) (w : World)
    (hlisted : ListedAt host options.inputDir w.disk)
    (hapart : BindingsApart host options (inputsOf host options.inputDir w.disk)) :
    ∃ done rest, inputsOf host options.inputDir w.disk = done ++ rest ∧
      ((run host options w).1.2 = none ↔ rest = [] ∧ done ≠ []) ∧
      Stops host options.withDefaults w.disk (run host options w).2.disk done rest
        (run host options w).1.1 := by
  rcases hprepare : prepare host options.withDefaults w with ⟨e | inputs, w'⟩
  · have hgrows := grows_prepare host options.withDefaults w
    rw [hprepare] at hgrows
    rw [run_of_error hprepare]
    refine ⟨[], _, rfl, by simp, .nil, ?_, ?_, ?_⟩
    · intro p hp
      obtain ⟨contents, hentry⟩ := areFiles_inputsOf hlisted p hp
      rw [hentry]
      exact (hgrows.entryAt_file fun h => h).mpr hentry
    · exact hgrows.mono (fun _ h => h.elim) fun _ h => h
    · exact fun p _ _ _ _ _ => hgrows.mono (fun _ h => h.elim) fun _ h => h
  · obtain ⟨hinputs, hne, done, rest, hsplit, hnone, hstops⟩ :=
      stops_of_prepare hlisted hapart hprepare
    rw [← hinputs]
    refine ⟨done, rest, hsplit, ?_, hstops⟩
    rw [hnone]
    refine ⟨fun hrest => ⟨hrest, ?_⟩, fun h => h.1⟩
    rintro rfl
    exact hne (by rw [hsplit, hrest, List.append_nil])

end

end

end Gobee
