/-
# The pipeline

`pipeline.go`: `Run` finds the kernel-side files of a directory and translates them one after
the other into C files, source maps and bindings.  It runs against a disk, every system call
may fail, and a write that fails may leave anything in its file.  The Go front-end and the Go
printer are parameters.

A path is kept as the directory and the name that `filepath.Join` puts together; two paths
are the same file if their directories are at the same place and their names agree.  A `..` in
the path of a directory takes back the name before it, also where that is not there yet.
-/
import Gobee.BindingsText
import Gobee.Diagnostics
import Gobee.Effects
import Gobee.FolderTree
import Gobee.PackageName
import Gobee.Paths

namespace Gobee

open Effects Eff Folders

/-! ## The disk -/

/-- A path, as `filepath.Join` makes it. -/
structure Path where
  dir : Text
  name : Text
  deriving DecidableEq, Repr

/-- The text of a path. -/
def Path.text (p : Path) : Text := joinPath p.dir p.name

/-- A path with a suffix. -/
def Path.append (p : Path) (suffix : Text) : Path := { p with name := p.name ++ suffix }

/-- What a name of a directory stands for. -/
abbrev FileEntry := Entry Text

/-- A disk. -/
abbrev Disk := FolderTree Text Text

/-- The disk, the number of system calls so far, and what was written to `opts.Stderr`. -/
structure World where
  disk : Disk
  calls : Nat
  stderr : Text

/-- A failing system call: its error, and what it leaves in the file that it was to write, if
it has changed it. -/
structure Fault where
  err : Text
  left : Option Text

/-- The system and the parts of Go: the place of a directory, the system calls that fail, the
parser and the type checker on the contents of a file, the printer, and `sort.Slice` by the
Go name. -/
structure Host where
  locate : Text → Place Text
  plain : ∀ dir, ∀ name ∈ locate dir, PlainName name
  fault : Nat → Option Fault
  frontEnd : Path → Text → Result File
  printer : Program → Printer
  sortFields : List BindingField → List BindingField

/-- A computation that uses the disk. -/
abbrev Sys (α : Type) := Eff World Failure α

/-- `fmt.Errorf` with `%w`. -/
def wrap {α : Type} (f : Text → Text) (m : Sys α) : Sys α := m.mapResult (wrapError f)

section

variable (host : Host)

/-- The place of a path on the disk. -/
def placeOf (p : Path) : Spot Text := (host.locate p.dir, p.name)

/-! ## System calls -/

/-- A system call: it fails as the host says, or does what it is for. -/
def syscall {α : Type} (spoil : Option Text → Disk → Disk) (op : Sys α) : Sys α := fun w =>
  let w' := { w with calls := w.calls + 1 }
  match host.fault w.calls with
  | some f => (errorf f.err, { w' with disk := spoil f.left w'.disk })
  | none => op w'

/-- What a failing write leaves at a path. -/
def spoilFile (p : Path) : Option Text → Disk → Disk
  | none, disk => disk
  | some contents, disk => disk.write (placeOf host p) contents

/-- `os.ReadDir`: the entries in the order of their names. -/
def readDir (dir : Text) : Sys (Folder Text FileEntry) :=
  syscall host (fun _ disk => disk) fun w =>
    match w.disk.folder (host.locate dir) with
    | none => (errorf ("open " ++ dir ++ ": no such file or directory"), w)
    | some f => (.ok f, w)

/-- `os.ReadFile`. -/
def readFile (p : Path) : Sys Text :=
  syscall host (fun _ disk => disk) fun w =>
    match w.disk.entryAt (placeOf host p) with
    | none => (errorf ("open " ++ p.text ++ ": no such file or directory"), w)
    | some .dir => (errorf ("read " ++ p.text ++ ": is a directory"), w)
    | some (.file contents) => (.ok contents, w)

/-- `os.Stat`, where an error counts that `os.MkdirAll` does not get over. -/
def stat (x : Spot Text) : Sys (Option FileEntry) :=
  syscall host (fun _ disk => disk) fun w => (.ok (w.disk.entryAt x), w)

/-- `os.Mkdir`. -/
def mkdir (path : Text) (x : Spot Text) : Sys Unit :=
  syscall host (fun _ disk => disk) fun w =>
    if w.disk.entryAt x ≠ none then (errorf ("mkdir " ++ path ++ ": file exists"), w)
    else if w.disk.HasDir x.1 then (.ok (), { w with disk := w.disk.makeDir x })
    else (errorf ("mkdir " ++ path ++ ": no such file or directory"), w)

/-- The path that `os.MkdirAll` makes first: all but the last element. -/
def parentText (path : Text) : Text :=
  ((path.reverse.dropWhile (· = '/')).dropWhile (· ≠ '/')).reverse

/-- `os.MkdirAll`, at a place: what is missing on the way is made from the root on. -/
def mkdirAt : Place Text → Text → Sys Unit
  | [], _ => return ()
  | name :: d, path => do
      match ← stat host (d, name) with
      | some .dir => return ()
      | some (.file _) => lift (errorf ("mkdir " ++ path ++ ": not a directory"))
      | none =>
          mkdirAt d (parentText path)
          mkdir host path (d, name)

/-- `os.MkdirAll`. -/
def mkdirAll (dir : Text) : Sys Unit := mkdirAt host (host.locate dir) dir

/-- `os.WriteFile`. -/
def writeFile (p : Path) (contents : Text) : Sys Unit :=
  syscall host (spoilFile host p) fun w =>
    if w.disk.entryAt (placeOf host p) = some .dir then
      (errorf ("open " ++ p.text ++ ": is a directory"), w)
    else if w.disk.HasDir (host.locate p.dir) then
      (.ok (), { w with disk := w.disk.write (placeOf host p) contents })
    else (errorf ("open " ++ p.text ++ ": no such file or directory"), w)

/-- `os.Create`: an empty file. -/
def createFile (p : Path) : Sys Unit := writeFile host p []

/-- `io.WriteString` to the file that was created at a path. -/
def writeString (p : Path) (s : Text) : Sys Unit :=
  syscall host (spoilFile host p) fun w =>
    (.ok (), { w with disk := w.disk.write (placeOf host p) s })

/-- `f.Close()`. -/
def closeFile : Sys Unit := syscall host (fun _ disk => disk) fun w => (.ok (), w)

/-- `fmt.Fprintf(opts.Stderr, ..)`. -/
def printErr (s : Text) : Sys Unit := fun w => (.ok (), { w with stderr := w.stderr ++ s })

/-- Run a cleanup whose error is dropped if a computation returns an error. -/
def onError {α : Type} (m : Sys α) (cleanup : Sys Unit) : Sys α := fun w =>
  match m w with
  | (.error (.error e), w') => (errorf e, (cleanup w').2)
  | r => r

/-! ## One file -/

/-- `RunOptions`, without the writer of `World.stderr`. -/
structure RunOptions where
  inputDir : Text
  outputDir : Text
  bindingsDir : Text
  deriving DecidableEq, Repr

/-- `Result` of the pipeline. -/
structure RunResult where
  inputFile : Path
  cFile : Path
  mapFile : Path
  bindingsFile : Option Path
  stem : Text
  deriving DecidableEq, Repr

/-- `strings.TrimSuffix(filepath.Base(inputFile), ".go")`. -/
def stemOf (p : Path) : Text :=
  let base := basePath p.text
  if (".go" : Text).isSuffixOf base then base.take (base.length - (".go" : Text).length) else base

/-- The path of the C file. -/
def cPath (opts : RunOptions) (inputFile : Path) : Path :=
  ⟨opts.outputDir, stemOf inputFile ++ ".bpf.c"⟩

/-- The path of the source map. -/
def mapPath (opts : RunOptions) (inputFile : Path) : Path := (cPath opts inputFile).append ".map"

/-- The path of the bindings. -/
def bindingsPath (opts : RunOptions) (inputFile : Path) : Path :=
  ⟨opts.bindingsDir, stemOf inputFile ++ "_bindings.go"⟩

/-- The name of the package of the bindings. -/
def packageText (opts : RunOptions) : Text :=
  (sanitizePackageName (CSyntax.utf8 (basePath opts.bindingsDir))).map fun b => Char.ofNat b.toNat

/-- The label of the source file in the C text. -/
def sourceLabel (opts : RunOptions) (inputFile : Path) : Text :=
  let rel := relPath opts.outputDir inputFile.text
  if rel = [] then inputFile.text else rel

/-- `ParseFile`, on a file of the disk. -/
def parseSource (inputFile : Path) : Sys Program := do
  let contents ← wrap ("parse: " ++ ·) (readFile host inputFile)
  let file ← lift (host.frontEnd inputFile contents)
  lift (parseFile file)

/-- The check of the findings in `translateOne`. -/
def checkValid (prog : Program) : Result Unit :=
  if validate prog = [] then .ok ()
  else errorf ("validation failed:\n" ++ renderDiagnostics (validate prog))

/-- The text that `WriteBindings` writes. -/
def bindingsOf (opts : RunOptions) (inputFile : Path) (prog : Program) (sourcemap : Text) :
    Result Text :=
  bindingsText (host.printer prog) prog (packageText opts) (stemOf inputFile)
    (host.sortFields (progFields prog.programs)) (host.sortFields (mapFields prog.maps)) sourcemap

/-- `WriteBindings`, to the file that was created at a path. -/
def writeBindingsTo (opts : RunOptions) (inputFile : Path) (prog : Program) (sourcemap : Text)
    (p : Path) : Sys Unit := do
  let text ← lift (bindingsOf host opts inputFile prog sourcemap)
  writeString host p text

/-- The end of `translateOne`: the bindings. -/
def translateBindings (opts : RunOptions) (inputFile : Path) (prog : Program) (sourcemap : Text) :
    Sys (Option Path) :=
  if opts.bindingsDir = [] then do
    printErr ("gobee: " ++ inputFile.text ++
      ": bindings skipped (pass --bindings-dir to generate typed Go accessors)\n")
    return none
  else do
    let bindingsFile := bindingsPath opts inputFile
    wrap ("create bindings dir: " ++ ·) (mkdirAll host opts.bindingsDir)
    wrap ("create " ++ bindingsFile.text ++ ": " ++ ·) (createFile host bindingsFile)
    wrap ("write bindings " ++ bindingsFile.text ++ ": " ++ ·)
      (onError (writeBindingsTo host opts inputFile prog sourcemap bindingsFile) (closeFile host))
    wrap ("close " ++ bindingsFile.text ++ ": " ++ ·) (closeFile host)
    return some bindingsFile

/-- `translateOne`. -/
def translateOne (opts : RunOptions) (inputFile : Path) : Sys RunResult := do
  let cFile := cPath opts inputFile
  let mapFile := mapPath opts inputFile
  let prog ← wrap (inputFile.text ++ ": " ++ ·) (parseSource host inputFile)
  lift (checkValid prog)
  let (source, mappings) ← lift (wrapError ("emit " ++ inputFile.text ++ ": " ++ ·)
    (emit prog (sourceLabel opts inputFile)))
  wrap ("write " ++ cFile.text ++ ": " ++ ·) (writeFile host cFile source)
  let sourcemap := formatSourceMap (mappings.map SourceMapping.toMapping)
  wrap ("write " ++ mapFile.text ++ ": " ++ ·) (writeFile host mapFile sourcemap)
  let bindingsFile ← translateBindings host opts inputFile prog sourcemap
  return ⟨inputFile, cFile, mapFile, bindingsFile, stemOf inputFile⟩

/-! ## The directory -/

/-- The name of a Go file that is no test. -/
def isGoFile (name : Text) : Bool :=
  (".go" : Text).isSuffixOf name && !("_test.go" : Text).isSuffixOf name

/-- The directive that makes a file an input. -/
def licenseMark : Text := "//bpf:license"

/-- The loop of `findInputs`. -/
def scanEntries (dir : Text) : Folder Text FileEntry → Sys (List Path)
  | [] => return []
  | (name, entry) :: rest =>
      if entry = .dir ∨ isGoFile name = false then scanEntries dir rest
      else do
        let path : Path := ⟨dir, name⟩
        let body ← wrap ("read " ++ path.text ++ ": " ++ ·) (readFile host path)
        let inputs ← scanEntries dir rest
        return (if (afterFirst licenseMark body).isSome then path :: inputs else inputs)

/-- `findInputs`. -/
def findInputs (dir : Text) : Sys (List Path) := do
  let entries ← wrap ("read " ++ dir ++ ": " ++ ·) (readDir host dir)
  scanEntries host dir entries

/-- The loop of `Run`: the results so far are returned with an error. -/
def translateAll (opts : RunOptions) : List Path → World → (List RunResult × Option Failure) × World
  | [], w => (([], none), w)
  | p :: rest, w =>
      match translateOne host opts p w with
      | (.error e, w') => (([], some e), w')
      | (.ok r, w') =>
          let later := translateAll opts rest w'
          ((r :: later.1.1, later.1.2), later.2)

/-- The inputs of `Run`, once the directory of the output is there. -/
def prepare (opts : RunOptions) : Sys (List Path) := do
  let inputs ← findInputs host opts.inputDir
  if inputs = [] then lift (errorf ("no .go files with //bpf:license found in " ++ opts.inputDir))
  else do
    wrap ("create output dir: " ++ ·) (mkdirAll host opts.outputDir)
    return inputs

/-- The directory of the output is the input directory unless it is set. -/
def RunOptions.withDefaults (opts : RunOptions) : RunOptions :=
  if opts.outputDir = [] then { opts with outputDir := opts.inputDir } else opts

/-- `Run`. -/
def run (options : RunOptions) (w : World) : (List RunResult × Option Failure) × World :=
  let opts := options.withDefaults
  match prepare host opts w with
  | (.error e, w') => (([], some e), w')
  | (.ok inputs, w') => translateAll host opts inputs w'

/-- The lines of `PrintSummary` for one result; the path of the source map is never empty. -/
def summaryText (r : RunResult) : Text :=
  "gobee: " ++ r.inputFile.text ++ "\n" ++ "  → " ++ r.cFile.text ++ "\n" ++
  "  → " ++ r.mapFile.text ++ "\n" ++
  match r.bindingsFile with
  | none => []
  | some p => "  → " ++ p.text ++ "\n"

/-- `runTranslate`: what is printed, or the error. -/
def runTranslate (options : RunOptions) (w : World) : Result Text × World :=
  match run host options w with
  | ((_, some e), w') => (wrapError ("translate: " ++ ·) (.error e), w')
  | ((results, none), w') => (.ok (results.flatMap summaryText), w')

end

end Gobee
