/-
# Runs of the pipeline without faults

* `runTranslate_prints` : the command prints the paths of the files that it has written;
* `run_succeeds_iff` : without faults, `Run` succeeds exactly when every input has a
  translation and a place for it, and nothing is in the way of the directories;
* `run_repairs` : **a run without faults after one that was cut short leaves the disk as if
  there had been no faults at all**.
-/
import Gobee.PipelineRuns

namespace Gobee

open Effects Eff Folders FolderTree

section

variable {host : Host} {opts : RunOptions} {w : World}

/-! ## Inputs that can be translated -/

/-- An input has a translation, and no directory stands or is made where its files are
written. -/
structure Translatable (host : Host) (opts : RunOptions) (disk : Disk) (p : Path) : Prop where
  translation : ∃ contents out, disk.entryAt (placeOf host p) = some (.file contents) ∧
    outputsOf host opts p contents = .ok out
  places : ∀ x ∈ placesOf host opts p, disk.entryAt x ≠ some .dir ∧ ¬ OutputWay host opts x

/-- No file stands in the way of the directories of the output. -/
def OutputFree (host : Host) (opts : RunOptions) (disk : Disk) : Prop :=
  ∀ x, OutputWay host opts x → disk.entryAt x = none ∨ disk.entryAt x = some .dir

/-- What another input does to the disk, and what is made for it, does not matter. -/
theorem Translatable.grows {disk disk' : Disk} {p : Path} {files : Spot Text → Prop}
    (h : Translatable host opts disk p)
    (hgrows : Grows files (OutputWay host opts) disk disk') (hsource : ¬ files (placeOf host p)) :
    Translatable host opts disk' p where
  translation := by
    obtain ⟨contents, out, hentry, hout⟩ := h.translation
    exact ⟨contents, out, (hgrows.entryAt_file hsource).mpr hentry, hout⟩
  places x hx := ⟨hgrows.ne_dir (h.places x hx).2 (h.places x hx).1, (h.places x hx).2⟩

/-- What a translation puts at each of its places. -/
theorem exists_contents {p : Path} {contents : Text} {out : Outputs} {x : Spot Text}
    (hout : outputsOf host opts p contents = .ok out) (hx : x ∈ placesOf host opts p) :
    ∃ text, ∀ disk, Stored host opts p out disk → disk.entryAt x = some (.file text) := by
  rcases mem_placesOf.mp hx with rfl | rfl | ⟨hdir, rfl⟩
  · exact ⟨out.source, fun disk h => h.source⟩
  · exact ⟨out.sourcemap, fun disk h => h.sourcemap⟩
  · obtain ⟨⟨prog, source, sourcemap⟩, -, hrest⟩ := bind_ok hout
    obtain ⟨text, -, htext⟩ := bind_ok ((if_neg hdir).symm.trans hrest)
    cases htext
    exact ⟨text, fun disk h => h.bindings text rfl⟩

/-- Where a translation is stored, there are the directories of the output. -/
theorem entryAt_outputWay {p : Path} {contents : Text} {out : Outputs} {disk : Disk}
    (hout : outputsOf host opts p contents = .ok out) (h : Stored host opts p out disk)
    {x : Spot Text} (hx : OutputWay host opts x) : disk.entryAt x = some .dir := by
  rcases hx with hx | ⟨hdir, hx⟩
  · exact hasDir_iff.mp (hasDir_of_entryAt h.source) x hx
  · obtain ⟨text, htext⟩ := exists_contents hout (mem_placesOf.mpr (.inr (.inr ⟨hdir, rfl⟩)))
    exact hasDir_iff.mp (hasDir_of_entryAt (htext disk h)) x hx

/-! ## A run without an error -/

/-- An input that was passed has its translation on the disk. -/
theorem Stops.exists_stored {before after : Disk} {done rest : List Path}
    {results : List RunResult} (h : Stops host opts before after done rest results) {p : Path}
    (hp : p ∈ done) :
    ∃ contents out, before.entryAt (placeOf host p) = some (.file contents) ∧
      outputsOf host opts p contents = .ok out ∧ Stored host opts p out after := by
  have htranslated := h.translated
  clear h
  induction htranslated with
  | nil => cases hp
  | cons hr _ ih =>
      rcases List.mem_cons.mp hp with rfl | hp
      · exact hr.stored
      · exact ih hp

theorem Stops.results_eq {before after : Disk} {done rest : List Path} {results : List RunResult}
    (h : Stops host opts before after done rest results) : results = done.map (resultOf opts) := by
  have htranslated := h.translated
  clear h
  induction htranslated with
  | nil => rfl
  | cons hr _ ih => rw [List.map_cons, ← hr.result, ← ih]

variable {options : RunOptions}

/-- A run without an error has passed every input. -/
theorem stops_of_none (hlisted : ListedAt host options.inputDir w.disk)
    (hapart : BindingsApart host options (inputsOf host options.inputDir w.disk))
    (h : (run host options w).1.2 = none) :
    inputsOf host options.inputDir w.disk ≠ [] ∧
      Stops host options.withDefaults w.disk (run host options w).2.disk
        (inputsOf host options.inputDir w.disk) [] (run host options w).1.1 := by
  rcases hprepare : prepare host options.withDefaults w with ⟨e | inputs, w'⟩
  · rw [run_of_error hprepare] at h
    cases h
  · obtain ⟨hinputs, hne, done, rest, hsplit, hnone, hstops⟩ :=
      stops_of_prepare hlisted hapart hprepare
    obtain rfl := hnone.mp h
    rw [List.append_nil] at hsplit
    rw [← hinputs]
    refine ⟨hne, ?_⟩
    rw [hsplit]
    exact hstops

/-- What a run without an error needs. -/
theorem translatable_of_none (hlisted : ListedAt host options.inputDir w.disk)
    (hapart : BindingsApart host options (inputsOf host options.inputDir w.disk))
    (h : (run host options w).1.2 = none) :
    OutputFree host options.withDefaults w.disk ∧
      ∀ p ∈ inputsOf host options.inputDir w.disk,
        Translatable host options.withDefaults w.disk p := by
  obtain ⟨hne, hstops⟩ := stops_of_none hlisted hapart h
  have hgrows := hstops.frame
  constructor
  · obtain ⟨p, hp⟩ := List.exists_mem_of_ne_nil _ hne
    obtain ⟨contents, out, -, hout, hstored⟩ := hstops.exists_stored hp
    intro x hx
    have hdir := entryAt_outputWay hout hstored hx
    cases hgrows x with
    | same heq => exact .inr (heq ▸ hdir)
    | written c _ _ hfile =>
        rw [hdir] at hfile
        cases hfile
    | made _ hnone => exact .inl hnone
  · intro p hp
    obtain ⟨contents, out, hentry, hout, hstored⟩ := hstops.exists_stored hp
    refine ⟨⟨contents, out, hentry, hout⟩, fun x hx => ?_⟩
    obtain ⟨text, htext⟩ := exists_contents hout hx
    have hfile := htext _ hstored
    constructor
    · intro hdir
      rw [hgrows.entryAt_dir hdir] at hfile
      cases hfile
    · intro hway
      rw [entryAt_outputWay hout hstored hway] at hfile
      cases hfile

/-! ## What is printed -/

/-- The path of the source map is the path of the C file with a suffix. -/
theorem text_mapPath {p : Path} (opts : RunOptions) (hname : PlainName p.name)
    (hgo : isGoFile p.name = true) :
    (mapPath opts p).text = (cPath opts p).text ++ ".map" := by
  have hmap := plainName_stem (".bpf.c" ++ ".map") hname hgo (by decide) (by decide)
  refine joinPath_append opts.outputDir ".map"
    (plainName_stem ".bpf.c" hname hgo (by decide) (by decide)) ?_
  rwa [cPath, List.append_assoc]

/-- What the command prints for an input. -/
def linesFor (opts : RunOptions) (p : Path) : Text :=
  "gobee: " ++ p.text ++ "\n" ++ "  → " ++ (cPath opts p).text ++ "\n" ++
  "  → " ++ (cPath opts p).text ++ ".map" ++ "\n" ++
  match opts.bindingsDir with
  | [] => []
  | _ :: _ => "  → " ++ (bindingsPath opts p).text ++ "\n"

/-- The command prints each input with the paths of its files, which hold its translation. -/
theorem runTranslate_prints (hlisted : ListedAt host options.inputDir w.disk)
    (hapart : BindingsApart host options (inputsOf host options.inputDir w.disk))
    (h : (run host options w).1.2 = none) :
    (runTranslate host options w).1 =
      .ok ((inputsOf host options.inputDir w.disk).flatMap (linesFor options.withDefaults)) := by
  obtain ⟨-, hstops⟩ := stops_of_none hlisted hapart h
  have hresults := hstops.results_eq
  have hlines : ∀ p ∈ inputsOf host options.inputDir w.disk,
      summaryText (resultOf options.withDefaults p) = linesFor options.withDefaults p := by
    intro p hp
    obtain ⟨-, hname, hgo, -⟩ := exists_of_mem_inputsOf hlisted hp
    unfold summaryText linesFor resultOf
    rw [text_mapPath options.withDefaults hname hgo, List.append_assoc _ _ (".map" : Text)]
    cases options.withDefaults.bindingsDir <;> rfl
  rcases hrun : run host options w with ⟨⟨results, e⟩, w'⟩
  rw [hrun] at h hresults
  obtain rfl : e = none := h
  simp only [runTranslate, hrun]
  rw [show results = _ from hresults, List.flatMap_map]
  exact congrArg Except.ok (List.flatMap_congr hlines)

/-! ## Runs without faults -/

section

variable (hfault : ∀ n, host.fault n = none)

include hfault

theorem scanEntries_quiet {dir : Text} {f entries : Folder Text FileEntry}
    (hfind : ∀ e ∈ entries, find e.1 f = some e.2) :
    ∀ w : World, w.disk.folder (host.locate dir) = some f →
      ∃ inputs w', scanEntries host dir entries w = (.ok inputs, w') := by
  induction entries with
  | nil => exact fun w _ => ⟨[], w, rfl⟩
  | cons e entries ih =>
      intro w hdisk
      obtain ⟨name, entry⟩ := e
      have hrest := ih fun e he => hfind e (List.mem_cons_of_mem _ he)
      rw [scanEntries]
      split_ifs with hskip
      · exact hrest w hdisk
      · cases entry with
        | dir => exact absurd (.inl rfl) hskip
        | file body =>
            have hentry : w.disk.entryAt (placeOf host ⟨dir, name⟩) = some (.file body) := by
              rw [entryAt, placeOf, hdisk, Option.bind_some]
              exact hfind (name, .file body) List.mem_cons_self
            obtain ⟨w1, hread⟩ := readFile_quiet hfault hentry
            obtain ⟨inputs, w2, hscan⟩ := hrest w1 (by rw [(readFile_ok hread).2, hdisk])
            let path : Path := ⟨dir, name⟩
            refine ⟨if (afterFirst licenseMark body).isSome then path :: inputs else inputs, w2, ?_⟩
            refine (bind_of_ok (wrap_of_ok _ hread)).trans ?_
            exact bind_of_ok hscan

theorem prepare_quiet (hne : inputsOf host opts.inputDir w.disk ≠ [])
    (hout : w.disk.Passable (host.locate opts.outputDir)) :
    ∃ w', prepare host opts w = (.ok (inputsOf host opts.inputDir w.disk), w') := by
  have hdir : ∃ f, w.disk.folder (host.locate opts.inputDir) = some f := by
    cases hdisk : w.disk.folder (host.locate opts.inputDir) with
    | none => exact absurd (by rw [inputsOf, hdisk]) hne
    | some f => exact ⟨f, rfl⟩
  obtain ⟨f, hdisk⟩ := hdir
  obtain ⟨w1, hread⟩ := readDir_quiet hfault hdisk
  obtain ⟨inputs, w2, hscan⟩ := scanEntries_quiet hfault
    (fun e he => find_of_mem (w.disk.nodup _ f hdisk) he) w1 (by rw [(readDir_ok hread).2, hdisk])
  have hfind : findInputs host opts.inputDir w = (.ok inputs, w2) :=
    (bind_of_ok (wrap_of_ok _ hread)).trans hscan
  obtain ⟨rfl, hsame⟩ := findInputs_ok hfind
  obtain ⟨w3, hmk⟩ := mkdirAll_quiet (w := w2) hfault (by rwa [hsame])
  refine ⟨w3, (bind_of_ok hfind).trans ?_⟩
  rw [if_neg hne]
  exact bind_of_ok (wrap_of_ok _ hmk)

/-- The loop goes through inputs that can be translated. -/
theorem translateAll_quiet {inputs : List Path} (h : Separate host opts inputs) :
    ∀ w : World, w.disk.HasDir (host.locate opts.outputDir) → OutputFree host opts w.disk →
      (∀ p ∈ inputs, Translatable host opts w.disk p) →
      (translateAll host opts inputs w).1.2 = none := by
  induction inputs with
  | nil => exact fun _ _ _ _ => rfl
  | cons p rest ih =>
      intro w hdir hfree htranslatable
      have hpmem : p ∈ p :: rest := List.mem_cons_self
      have hp := htranslatable p hpmem
      obtain ⟨contents, out, hentry, hout⟩ := hp.translation
      obtain ⟨r, w', hr⟩ := translateOne_quiet hfault hentry hout
        (fun x hx => ⟨(hp.places x hx).1, fun hway => (hp.places x hx).2 (.inr hway)⟩) hdir
        fun hne x hx => hfree x (.inr ⟨hne, hx⟩)
      have hgrows : Grows (· ∈ placesOf host opts p) (OutputWay host opts) w.disk w'.disk :=
        (grows_translateOne hr).mono (fun _ hx => hx) fun _ hx => .inr hx
      rw [translateAll_of_ok rest hr]
      refine ih ⟨fun a ha b hb => h.sources a (List.mem_cons_of_mem _ ha) b
        (List.mem_cons_of_mem _ hb), (List.pairwise_cons.mp h.outputs).2⟩ w' (hgrows.hasDir hdir)
        ?_ ?_
      · intro x hx
        cases hgrows x with
        | same heq => rw [heq]; exact hfree x hx
        | written c hplace => exact absurd hx (hp.places x hplace).2
        | made _ _ hat => exact .inr hat
      · intro q hq
        have hqmem : q ∈ p :: rest := List.mem_cons_of_mem _ hq
        exact (htranslatable q hqmem).grows hgrows (h.sources p hpmem q hqmem)

theorem run_quiet (hlisted : ListedAt host options.inputDir w.disk)
    (hapart : BindingsApart host options (inputsOf host options.inputDir w.disk))
    (hne : inputsOf host options.inputDir w.disk ≠ [])
    (hfree : OutputFree host options.withDefaults w.disk)
    (h : ∀ p ∈ inputsOf host options.inputDir w.disk,
      Translatable host options.withDefaults w.disk p) :
    (run host options w).1.2 = none := by
  have hr : ∃ w', prepare host options.withDefaults w =
      (.ok (inputsOf host options.withDefaults.inputDir w.disk), w') :=
    prepare_quiet hfault (by rwa [inputDir_withDefaults]) fun x hx => hfree x (.inl hx)
  rw [inputDir_withDefaults] at hr
  obtain ⟨w', hr⟩ := hr
  have hgrows := grows_prepare host options.withDefaults w
  rw [hr] at hgrows
  obtain ⟨-, -, hdir⟩ := prepare_ok hr
  rw [run_of_ok hr]
  refine translateAll_quiet hfault (separate_inputsOf hlisted hapart.withDefaults) w' hdir ?_ ?_
  · intro x hx
    cases hgrows x with
    | same heq => rw [heq]; exact hfree x hx
    | written c hplace => exact hplace.elim
    | made _ _ hat => exact .inr hat
  · exact fun p hp => (h p hp).grows hgrows fun h => h

end

/-- **Without faults, `Run` succeeds exactly when there are inputs, no file is in the way of the
directories of the output, and all of the inputs can be translated.** -/
theorem run_succeeds_iff (host : Host) (options : RunOptions) (w : World)
    (hfault : ∀ n, host.fault n = none) (hlisted : ListedAt host options.inputDir w.disk)
    (hapart : BindingsApart host options (inputsOf host options.inputDir w.disk)) :
    (run host options w).1.2 = none ↔
      inputsOf host options.inputDir w.disk ≠ [] ∧
        OutputFree host options.withDefaults w.disk ∧
        ∀ p ∈ inputsOf host options.inputDir w.disk,
          Translatable host options.withDefaults w.disk p :=
  ⟨fun h => ⟨(stops_of_none hlisted hapart h).1, translatable_of_none hlisted hapart h⟩,
    fun h => run_quiet hfault hlisted hapart h.1 h.2.1 h.2.2⟩

/-! ## After a run that was cut short -/

/-- A run stays within a bound that allows its inputs and the directory of the output. -/
theorem rel_run {G : Guarantee Disk}
    (hmake : ∀ x, OutputWay host options.withDefaults x → ∀ disk : Disk,
      G.Rel disk (disk.makeDir x))
    (h : ∀ p ∈ inputsOf host options.inputDir w.disk, Allows host options.withDefaults p G) :
    G.Rel w.disk (run host options w).2.disk := by
  have hprepare : G.Rel w.disk (prepare host options.withDefaults w).2.disk :=
    respects_prepare (fun x hx => hmake x (.inl hx)) w
  rcases hr : prepare host options.withDefaults w with ⟨e | inputs, w'⟩
  · rw [hr] at hprepare
    rw [run_of_error hr]
    exact hprepare
  · rw [hr] at hprepare
    obtain ⟨hinputs, -, -⟩ := prepare_ok hr
    rw [inputDir_withDefaults] at hinputs
    rw [run_of_ok hr]
    exact G.trans hprepare (rel_translateAll (hinputs ▸ h) w')

/-- The growth of the disk in a run. -/
theorem grows_run (host : Host) (options : RunOptions) (w : World) :
    Grows (FileOf host options.withDefaults (inputsOf host options.inputDir w.disk))
      (OutputWay host options.withDefaults) w.disk (run host options w).2.disk :=
  rel_run (G := growth _ _) (fun _ hx => Grows.makeDir hx) fun p hp =>
    ⟨fun _ hx => Grows.write ⟨p, hp, hx⟩, fun _ hx => Grows.makeDir (.inr hx)⟩

/-- The host without faults. -/
def Host.quiet (host : Host) : Host := { host with fault := fun _ => none }

/-- Two runs that have passed the same inputs leave the same files and directories. -/
theorem entryAt_eq_of_stops {before before' after after' : Disk} {done : List Path}
    {results results' : List RunResult} (hne : done ≠ [])
    (h : Stops host opts before after done [] results)
    (h' : Stops host opts before' after' done [] results')
    (hsources : ∀ p ∈ done, before'.entryAt (placeOf host p) = before.entryAt (placeOf host p))
    (hothers : ∀ x, ¬ FileOf host opts done x → ¬ OutputWay host opts x →
      before'.entryAt x = before.entryAt x)
    (x : Spot Text) : after'.entryAt x = after.entryAt x := by
  by_cases hx : FileOf host opts done x
  · obtain ⟨p, hp, hmem⟩ := hx
    obtain ⟨contents, out, hentry, hout, hstored⟩ := h.exists_stored hp
    obtain ⟨contents', out', hentry', hout', hstored'⟩ := h'.exists_stored hp
    rw [hsources p hp, hentry] at hentry'
    cases hentry'
    rw [hout] at hout'
    cases hout'
    obtain ⟨text, htext⟩ := exists_contents hout hmem
    rw [htext _ hstored, htext _ hstored']
  · by_cases hway : OutputWay host opts x
    · obtain ⟨p, hp⟩ := List.exists_mem_of_ne_nil _ hne
      obtain ⟨contents, out, -, hout, hstored⟩ := h.exists_stored hp
      obtain ⟨contents', out', -, hout', hstored'⟩ := h'.exists_stored hp
      rw [entryAt_outputWay hout hstored hway, entryAt_outputWay hout' hstored' hway]
    · have hfiles : ¬ FileOf host opts (done ++ ([] : List Path).head?.toList) x := by
        simpa [FileOf] using hx
      rw [h.frame.entryAt_eq hfiles hway, h'.frame.entryAt_eq hfiles hway, hothers x hx hway]

/-- **A run without faults repairs what a run with faults has left.** -/
theorem run_repairs (host : Host) (options : RunOptions) (w v : World)
    (hlisted : ListedAt host options.inputDir w.disk)
    (hbindings : options.bindingsDir ≠ [] →
      host.locate options.bindingsDir ≠ host.locate options.inputDir)
    (hv : v.disk = (run host options w).2.disk)
    (hok : (run host.quiet options w).1.2 = none) :
    (run host.quiet options v).1 = (run host.quiet options w).1 ∧
      ∀ x, (run host.quiet options v).2.disk.entryAt x =
        (run host.quiet options w).2.disk.entryAt x := by
  have hapart : BindingsApart host options (inputsOf host options.inputDir w.disk) := by
    intro hdir p _ q hq heq
    obtain ⟨hqdir, -⟩ := exists_of_mem_inputsOf hlisted hq
    refine hbindings hdir ?_
    rw [← hqdir]
    exact (Prod.mk.inj heq).1.symm
  have hseparate : Separate host options.withDefaults (inputsOf host options.inputDir w.disk) :=
    separate_inputsOf hlisted hapart.withDefaults
  -- what the first run has left to the second one
  have hgrows : Grows (FileOf host options.withDefaults (inputsOf host options.inputDir w.disk))
      (OutputWay host options.withDefaults) w.disk v.disk := by
    rw [hv]
    exact grows_run host options w
  have hinputs : inputsOf host options.inputDir v.disk = inputsOf host options.inputDir w.disk := by
    rw [hv]
    exact rel_run (G := .keeps (inputsOf host options.inputDir)) (fun _ _ => inputsOf_makeDir)
      fun p _ => allows_inputsOf p (by simpa using hbindings)
  have hlisted' : ListedAt host options.inputDir v.disk := by
    have hsame : ListedAt host options.inputDir v.disk = ListedAt host options.inputDir w.disk := by
      rw [hv]
      refine rel_run (G := .keeps (ListedAt host options.inputDir))
        (fun x hx => listedAt_makeDir ?_) fun p hp => ?_
      · rcases hx with hx | ⟨-, hx⟩
        · exact host.plain _ _ (mem_of_onWay hx)
        · exact host.plain _ _ (mem_of_onWay hx)
      · obtain ⟨-, hname, hgo, -⟩ := exists_of_mem_inputsOf hlisted hp
        exact allows_listedAt hname hgo options.inputDir
    exact hsame ▸ hlisted
  have hsource : ∀ p ∈ inputsOf host options.inputDir w.disk,
      ¬ FileOf host options.withDefaults (inputsOf host options.inputDir w.disk) (placeOf host p) := by
    rintro p hp ⟨q, hq, hmem⟩
    exact hseparate.sources q hq p hp hmem
  have hsources : ∀ p ∈ inputsOf host options.inputDir w.disk,
      v.disk.entryAt (placeOf host p) = w.disk.entryAt (placeOf host p) := by
    intro p hp
    obtain ⟨contents, hentry⟩ := areFiles_inputsOf hlisted p hp
    rw [hentry]
    exact (hgrows.entryAt_file (hsource p hp)).mpr hentry
  -- the inputs of the host without faults are the same
  have hlistedQ : ListedAt host.quiet options.inputDir w.disk := hlisted
  have hapartQ : BindingsApart host.quiet options (inputsOf host.quiet options.inputDir w.disk) :=
    hapart
  have hinputsQ : inputsOf host.quiet options.inputDir v.disk =
      inputsOf host.quiet options.inputDir w.disk := hinputs
  have hlistedV : ListedAt host.quiet options.inputDir v.disk := hlisted'
  have hapartV : BindingsApart host.quiet options (inputsOf host.quiet options.inputDir v.disk) :=
    hinputsQ ▸ hapartQ
  obtain ⟨hne, hstops⟩ := stops_of_none hlistedQ hapartQ hok
  obtain ⟨hfree, htranslatable⟩ := translatable_of_none hlistedQ hapartQ hok
  have hgrowsQ : Grows (FileOf host.quiet options.withDefaults
      (inputsOf host.quiet options.inputDir w.disk)) (OutputWay host.quiet options.withDefaults)
      w.disk v.disk := hgrows
  have hok' : (run host.quiet options v).1.2 = none := by
    refine run_quiet (fun _ => rfl) hlistedV hapartV (hinputsQ ▸ hne) ?_ fun p hp => ?_
    · intro x hx
      cases hgrowsQ x with
      | same heq => rw [heq]; exact hfree x hx
      | written c hplace =>
          obtain ⟨p, hp, hmem⟩ := hplace
          exact absurd hx ((htranslatable p hp).places x hmem).2
      | made _ _ hat => exact .inr hat
    · rw [hinputsQ] at hp
      exact (htranslatable p hp).grows hgrowsQ (hsource p hp)
  obtain ⟨-, hstops'⟩ := stops_of_none hlistedV hapartV hok'
  rw [hinputsQ] at hstops'
  refine ⟨Prod.ext ?_ (hok'.trans hok.symm), ?_⟩
  · rw [hstops'.results_eq, hstops.results_eq]
  · exact entryAt_eq_of_stops hne hstops hstops' hsources fun x hfile hway =>
      hgrowsQ.entryAt_eq hfile hway

end

/-! ## A file -/

/-- A directory of the root. -/
def kernSpot : Spot Text := ([], "kern")

/-- A file in it. -/
def passSpot : Spot Text := (["kern"], "pass.go")

/-- A disk with these two. -/
def passDisk : Disk :=
  (FolderTree.empty.makeDir kernSpot).write passSpot "//bpf:license GPL\n"

/-- The directory with the file. -/
def passFolder : Folder Text FileEntry := [("pass.go", .file "//bpf:license GPL\n")]

/-- The world before the first call. -/
def passWorld : World := ⟨passDisk, 0, []⟩

/-- A host on which the write of the source map fails. -/
def passHost : Host where
  locate dir := if dir = "kern" then ["kern"] else if dir = "bpf" then ["bpf"] else []
  plain dir name h := by
    split_ifs at h
    · rw [List.mem_singleton.mp h]
      exact ⟨by decide, by decide, by decide, by decide⟩
    · rw [List.mem_singleton.mp h]
      exact ⟨by decide, by decide, by decide, by decide⟩
    · cases h
  fault n := if n = 5 then some ⟨"no space left on device", some []⟩ else none
  frontEnd _ _ := .ok methodFile
  printer _ := blankPrinter
  sortFields := id

/-- The options of `gobee translate kern --bindings-dir bpf`. -/
def passOptions : RunOptions := ⟨"kern", [], "bpf"⟩

/-- Its input. -/
def passInput : Path := ⟨"kern", "pass.go"⟩

theorem passWorld_inputs :
    inputsOf passHost passOptions.inputDir passWorld.disk = [passInput] := by decide +kernel

theorem passWorld_listed : ListedAt passHost passOptions.inputDir passWorld.disk := by
  intro f hf name hname
  have hfolder : passWorld.disk.folder (passHost.locate passOptions.inputDir) =
      some passFolder := by decide +kernel
  rw [hfolder] at hf
  cases hf
  rw [passFolder, List.map_singleton, List.mem_singleton] at hname
  subst hname
  exact ⟨by decide, by decide, by decide, by decide⟩

theorem passWorld_apart :
    BindingsApart passHost passOptions
      (inputsOf passHost passOptions.inputDir passWorld.disk) := by
  intro _ p _ q hq heq
  rw [passWorld_inputs, List.mem_singleton] at hq
  rw [hq] at heq
  have hdir : passHost.locate passInput.dir = passHost.locate passOptions.bindingsDir :=
    (Prod.mk.inj heq).1
  exact absurd hdir (by decide)

/-- The way to a directory in the root. -/
theorem onWay_singleton {name : Text} {x : Spot Text} (h : OnWay [name] x) : x = ([], name) :=
  (onWay_cons.mp h).resolve_right (not_onWay_nil x)

theorem passWorld_free : OutputFree passHost.quiet passOptions.withDefaults passWorld.disk := by
  rintro x (hx | ⟨-, hx⟩)
  · rw [onWay_singleton hx]
    decide +kernel
  · rw [onWay_singleton hx]
    decide +kernel

theorem passInput_translatable :
    Translatable passHost.quiet passOptions.withDefaults passWorld.disk passInput where
  translation := by
    have hvalid : checkValid methodProgram = .ok () :=
      if_pos (validate_eq_nil.mpr methodProgram_findings)
    have hemit : ∃ out, emit methodProgram (sourceLabel passOptions.withDefaults passInput) =
        .ok out := ⟨_, rfl⟩
    obtain ⟨⟨source, mappings⟩, hemit⟩ := hemit
    have hcompile : compile passHost.quiet passOptions.withDefaults passInput
        "//bpf:license GPL\n" =
          .ok (methodProgram, source, formatSourceMap (mappings.map SourceMapping.toMapping)) := by
      have hfront : passHost.quiet.frontEnd passInput "//bpf:license GPL\n" = .ok methodFile := rfl
      simp only [compile, hfront, methodFile_parse, hvalid, hemit, bind, Except.bind, pure,
        Except.pure]
    have htext : ∃ text, bindingsOf passHost.quiet passOptions.withDefaults passInput methodProgram
        (formatSourceMap (mappings.map SourceMapping.toMapping)) = .ok text := ⟨_, rfl⟩
    obtain ⟨text, htext⟩ := htext
    exact ⟨_, _, by decide +kernel, outputsOf_of_bindings hcompile (by decide) htext⟩
  places := by
    -- the files are no directories, and stand in no directory of the root
    have hway : ∀ {x : Spot Text}, x.1 ≠ [] →
        ¬ OutputWay passHost.quiet passOptions.withDefaults x := by
      rintro x hx (hway | ⟨-, hway⟩)
      · exact hx (by rw [onWay_singleton hway])
      · exact hx (by rw [onWay_singleton hway])
    intro x hx
    rcases mem_placesOf.mp hx with rfl | rfl | ⟨-, rfl⟩
    · exact ⟨by decide +kernel, hway (by decide +kernel)⟩
    · exact ⟨by decide +kernel, hway (by decide +kernel)⟩
    · exact ⟨by decide +kernel, hway (by decide +kernel)⟩

/-- A run in which the source map of the file is not written. -/
theorem passRun_safe :
    ∃ done rest, inputsOf passHost passOptions.inputDir passWorld.disk = done ++ rest ∧
      ((run passHost passOptions passWorld).1.2 = none ↔ rest = [] ∧ done ≠ []) ∧
      Stops passHost passOptions.withDefaults passWorld.disk
        (run passHost passOptions passWorld).2.disk done rest
        (run passHost passOptions passWorld).1.1 :=
  run_safe passHost passOptions passWorld passWorld_listed passWorld_apart

/-- Without faults, the file is translated. -/
theorem passRun_succeeds : (run passHost.quiet passOptions passWorld).1.2 = none := by
  have hinputs : inputsOf passHost.quiet passOptions.inputDir passWorld.disk = [passInput] :=
    passWorld_inputs
  refine (run_succeeds_iff passHost.quiet passOptions passWorld (fun _ => rfl) passWorld_listed
    passWorld_apart).mpr ⟨?_, passWorld_free, fun p hp => ?_⟩
  · rw [hinputs]
    exact List.cons_ne_nil _ _
  · rw [hinputs, List.mem_singleton] at hp
    rw [hp]
    exact passInput_translatable

/-- The next run writes the source map. -/
theorem passRun_repaired :
    (run passHost.quiet passOptions (run passHost passOptions passWorld).2).1 =
        (run passHost.quiet passOptions passWorld).1 ∧
      ∀ x, (run passHost.quiet passOptions (run passHost passOptions passWorld).2).2.disk.entryAt x =
        (run passHost.quiet passOptions passWorld).2.disk.entryAt x := by
  have hinputs : inputsOf passHost.quiet passOptions.inputDir passWorld.disk = [passInput] :=
    passWorld_inputs
  refine run_repairs passHost passOptions passWorld _ passWorld_listed (fun _ => by decide) rfl ?_
  refine run_quiet (fun _ => rfl) passWorld_listed passWorld_apart ?_ passWorld_free fun p hp => ?_
  · rw [hinputs]
    exact List.cons_ne_nil _ _
  · rw [hinputs, List.mem_singleton] at hp
    rw [hp]
    exact passInput_translatable

end Gobee
