import Scad.Analysis
import Scad.Library.SearchPath
import Scad.Text.Utf8

/-! Loading files with everything that they refer to. Documents are kept until their file changes. A
reference to a file that is still being loaded is skipped, and what was resolved without such a file
is not kept, since it would come out otherwise if it were loaded alone. -/
namespace Scad.Library

inductive LoadFault where
  | fileMissing (file : String)
  | libraryMissing (file : String)
  | isFolder (path : Path)
  | undecodable (fault : Text.Utf8.Fault)
  | numeral (fault : NumeralFault)
  /-- More files on top of each other than there are. -/
  | tooDeep
  deriving DecidableEq

def LoadFault.message : LoadFault → String
  | fileMissing file => "File " ++ file ++ " not found"
  | libraryMissing file => "Library file '" ++ file ++ "' not found in search paths. Searched in: "
      ++ "current file directory, OPENSCADPATH, and platform default paths."
  | isFolder path => "[Errno 21] Is a directory: " ++ Text.quoted path.text
  | undecodable fault => fault.message
  | numeral fault => fault.message
  | tooDeep => "too many files"

structure LoadOptions where
  builtins : Option Builtins
  withDependencies : Bool
  deriving DecidableEq

/-- A resolved document with the documents that its references reach, each under the text of the
reference. -/
structure Loaded where
  /-- The number of documents made before this one. -/
  serial : Nat
  document : Document
  dependencies : Resolve.Dependencies

structure CacheKey where
  path : Path
  options : LoadOptions
  deriving DecidableEq

/-- A kept document and the time of change of its file. -/
structure Kept where
  loaded : Loaded
  modified : Int

structure LoadState where
  cache : List (CacheKey × Kept)
  /-- The number of documents made so far. -/
  made : Nat
  records : List LogRecord

namespace LoadState

def empty : LoadState := ⟨[], 0, []⟩

def clear (s : LoadState) : LoadState := { s with cache := [] }

def forget (s : LoadState) (key : CacheKey) : LoadState :=
  { s with cache := s.cache.filter (·.1 ≠ key) }

def keep (s : LoadState) (key : CacheKey) (kept : Kept) : LoadState :=
  { s with cache := (key, kept) :: s.cache.filter (·.1 ≠ key) }

def log (s : LoadState) (records : List LogRecord) : LoadState :=
  { s with records := s.records ++ records }

end LoadState

/-- What changes in the state stays changed when loading fails later. -/
abbrev Load := ExceptT LoadFault (StateM LoadState)

namespace Load

def debug (message : String) : Load Unit := modify (·.log [⟨.loader, .debug, message⟩])

def warn (message : String) : Load Unit := modify (·.log [⟨.loader, .warning, message⟩])

/-- Looks a library file up. -/
def find (host : Host) (asker file : String) : Load (Option String) := do
  match host.find? asker file with
  | some place =>
    debug ("found library " ++ file ++ " at " ++ place)
    return some place
  | none =>
    debug ("library " ++ file ++ " not found from " ++ (if asker = "" then "<no file>" else asker))
    return none

/-- Whether a kept document rests on a file that is being loaded. -/
def restsOn (loading : List Path) (loaded : Loaded) : Bool :=
  loaded.dependencies.any fun (_, d) => loading.any (·.text = d.origin)

/-- The kept document, if its file is unchanged and it rests on no file that is being loaded. -/
def kept (key : CacheKey) (modified : Int) (loading : List Path) : Load (Option Loaded) := do
  match (← get).cache.lookup key with
  | none => return none
  | some k =>
    if k.modified ≠ modified then
      modify (·.forget key)
      return none
    else if restsOn loading k.loaded then
      debug ("cached " ++ key.path.text ++ " depends on a file being loaded, reloading")
      return none
    else
      debug ("cache hit for " ++ key.path.text)
      return some k.loaded

/-- The text of a file, with line ends of one make. -/
def sourceText (file : File) : Except LoadFault String :=
  match Text.Utf8.decode file.content with
  | .ok cs => .ok (String.ofList (Text.joinLineEnds cs))
  | .error fault => .error (.undecodable fault)

/-- The documents behind the references so far, and the files that were skipped on the way. -/
structure Reached where
  dependencies : Resolve.Dependencies
  skipped : List Path

/-- Sets the document of a reference. -/
def setDocument (reference : String) (d : Document) : Resolve.Dependencies → Resolve.Dependencies
  | [] => [(reference, d)]
  | (r, e) :: rest =>
    if r = reference then (r, d) :: rest else (r, e) :: setDocument reference d rest

/-- Adds documents under references that have none. -/
def addMissing (deps more : Resolve.Dependencies) : Resolve.Dependencies :=
  more.foldl (fun deps (reference, d) =>
    if (Resolve.Dependencies.find? deps reference).isSome then deps
    else deps ++ [(reference, d)]) deps

def Reached.add (r : Reached) (reference : String) (found : Loaded × List Path) : Reached :=
  ⟨addMissing (setDocument reference found.1.document r.dependencies) found.1.dependencies,
    r.skipped ++ found.2⟩

/-- Loads what one reference of the file at `path` names. -/
def follow (host : Host) (load : Path → Load (Loaded × List Path)) (loading : List Path)
    (path : Path) (r : Reached) (reference : String) : Load Reached := do
  match ← find host path.text reference with
  | none =>
    warn (path.text ++ ": cannot find library file '" ++ reference ++ "'")
    return r
  | some place =>
    let target := host.path place
    if target ∈ loading then
      debug ("skipping circular reference " ++ path.text ++ " -> " ++ target.text)
      return { r with skipped := r.skipped ++ [target] }
    else
      return r.add reference (← load target)

/-- The references at the top level of a document, in order. -/
def topReferences (d : Document) : List String :=
  d.statements.filterMap fun n =>
    match n.form with
    | .fileReference _ file => some file
    | _ => none

def makeDocument (document : Document) (dependencies : Resolve.Dependencies) : Load Loaded := do
  let serial := (← get).made
  modify fun s => { s with made := serial + 1 }
  return ⟨serial, document, dependencies⟩

/-- Loads the file at `path` for the files in `loading`. Gives the files among them that were
skipped on the way. -/
def loadPath (host : Host) (options : LoadOptions) :
    (fuel : Nat) → (loading : List Path) → (path : Path) → Load (Loaded × List Path)
  | 0, _, _ => throw .tooDeep
  | fuel + 1, loading, path => do
    let key : CacheKey := ⟨path, options⟩
    match host.files.file? path.names with
    | none =>
      modify (·.forget key)
      throw (.isFolder path)
    | some file =>
      if let some loaded ← kept key file.modified loading then
        return (loaded, [])
      let source ← liftExcept (sourceText file)
      let (_, parsed) ← liftExcept ((parseText source path.text).mapError .numeral)
      let loading := loading ++ [path]
      let references := if options.withDependencies then topReferences parsed.document else []
      let reached ← references.foldlM
        (follow host (loadPath host options fuel loading) loading path) ⟨[], []⟩
      let resolved := resolve parsed.document reached.dependencies options.builtins
      modify (·.log (Analysis.summaryRecords resolved.document source))
      let loaded ← makeDocument resolved.document reached.dependencies
      let skipped := reached.skipped.filter (· ≠ path)
      if skipped.isEmpty then modify (·.keep key ⟨loaded, file.modified⟩)
      return (loaded, skipped)
where
  liftExcept {α : Type} (e : Except LoadFault α) : Load α :=
    match e with
    | .ok a => return a
    | .error f => throw f

end Load

/-- A path may occur twice in a chain of files, with one slash in front and with two. -/
def Host.depth (host : Host) : Nat := 2 * host.files.files.length + 1

/-- Loads and resolves a file. -/
def loadFile (host : Host) (options : LoadOptions) (file : String) : Load Loaded := do
  let path := host.path file
  if host.files.holds path.names then
    let (loaded, _) ← Load.loadPath host options host.depth [] path
    return loaded
  else throw (.fileMissing file)

/-- Looks a library file up for `asker` and loads it. -/
def loadLibrary (host : Host) (options : LoadOptions) (asker file : String) :
    Load (Loaded × Path) := do
  match ← Load.find host asker file with
  | none => throw (.libraryMissing file)
  | some place =>
    let loaded ← loadFile host options place
    return (loaded, host.path place)

end Scad.Library
