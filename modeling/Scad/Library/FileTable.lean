import Scad.Library.Path

/-! The files that can be loaded. Every folder on the way to a file or folder is there too. -/
namespace Scad.Library

structure File where
  content : List UInt8
  /-- The time of the last change. -/
  modified : Int

structure FileTable where
  files : List (List String × File)
  folders : List (List String)

namespace FileTable

/-- The folders on the way to a place, the root first. -/
def ancestors (names : List String) : List (List String) :=
  (List.range names.length).map names.take

/-- A table with one empty folder. -/
def ofFolder (names : List String) : FileTable := ⟨[], ancestors names ++ [names]⟩

def file? (t : FileTable) (names : List String) : Option File := t.files.lookup names

def isFolder (t : FileTable) (names : List String) : Bool := t.folders.contains names

def holds (t : FileTable) (names : List String) : Bool :=
  t.isFolder names || (t.file? names).isSome

def makeFolder (t : FileTable) (names : List String) : FileTable :=
  { t with folders := t.folders ++ (ancestors names ++ [names]).filter (!t.folders.contains ·) }

/-- Writes a file and makes the folders that it needs. -/
def write (t : FileTable) (names : List String) (f : File) : FileTable :=
  let t := t.makeFolder names.dropLast
  { t with files := (names, f) :: t.files.filter (·.1 ≠ names) }

def remove (t : FileTable) (names : List String) : FileTable :=
  ⟨t.files.filter (·.1 ≠ names), t.folders.filter (· ≠ names)⟩

/-- Where a walk step by step ends. Each step leaves from a folder, also a step that goes up or
stays. -/
def walk (t : FileTable) (here : List String) : List String → Option (List String)
  | [] => some here
  | s :: rest =>
    let next := Path.step here s
    if t.isFolder here && t.holds next then t.walk next rest else none

/-- Whether a text names a file, seen from a folder. -/
def isFile (t : FileTable) (folder : Path) (text : String) : Bool :=
  let start := if text.toList.head? = some '/' then [] else folder.names
  ((t.walk start (Path.steps text)).bind t.file?).isSome

end FileTable

end Scad.Library
