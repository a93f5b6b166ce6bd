import Scad.Library.FileTable

/-! Where library files are looked for: beside the file that asks, then in the folders that the
environment lists, or in the folder of the account if it lists none. -/
namespace Scad.Library

structure Environment where
  entries : List (String × String)

namespace Environment

def get? (env : Environment) (name : String) : Option String := env.entries.lookup name

def set (env : Environment) (name : String) (value : Option String) : Environment :=
  let others := env.entries.filter (·.1 ≠ name)
  match value with
  | some v => ⟨(name, v) :: others⟩
  | none => ⟨others⟩

def isNameChar (c : Char) : Bool := c.isAlphanum || c = '_'

/-- The name that follows a dollar sign, bare or in braces, and the number of its characters. -/
def reference? : List Char → Option (List Char × Nat)
  | '\x7b' :: cs =>
    let name := cs.takeWhile (· ≠ '\x7d')
    if name.length < cs.length then some (name, name.length + 2) else none
  | cs =>
    let name := cs.takeWhile isNameChar
    if name = [] then none else some (name, name.length)

/-- Puts in the values of variables behind the next `skip` characters. Names without a value stay as
they are, and values are not looked at again. -/
def expandFrom (env : Environment) : (skip : Nat) → List Char → List Char
  | _, [] => []
  | skip + 1, _ :: cs => env.expandFrom skip cs
  | 0, c :: cs =>
    match (if c = '$' then reference? cs else none) with
    | none => c :: env.expandFrom 0 cs
    | some (name, n) =>
      let value := ((env.get? (String.ofList name)).map String.toList).getD (c :: cs.take n)
      value ++ env.expandFrom n cs

def expand (env : Environment) (cs : List Char) : String := String.ofList (env.expandFrom 0 cs)

/-- The folder for libraries in the home of the account. -/
def defaultFolder (env : Environment) : String :=
  let home := ((env.get? "HOME").getD "/root").toList
  String.ofList (home.reverse.dropWhile (· = '/')).reverse ++ "/.local/share/OpenSCAD/libraries"

/-- The folders that the environment lists. -/
def folders (env : Environment) : List String :=
  let listed := (env.get? "OPENSCADPATH").getD env.defaultFolder
  ((Text.pieces ':' listed.toList).map env.expand).filter (· ≠ "")

end Environment

/-- All that loading can see. -/
structure Host where
  files : FileTable
  environment : Environment
  /-- The folder from which relative paths start. -/
  folder : Path

namespace Host

def path (host : Host) (text : String) : Path := .ofText host.folder text

/-- The folders to search for a file that `asker` wants; it may be empty. -/
def searchPath (host : Host) (asker : String) : List String :=
  (if asker = "" then [] else [(host.path asker).parent.text]) ++ host.environment.folders

/-- The first place on the search path that holds a file. -/
def find? (host : Host) (asker file : String) : Option String :=
  ((host.searchPath asker).map (joinText · file)).find? (host.files.isFile host.folder)

end Host

end Scad.Library
