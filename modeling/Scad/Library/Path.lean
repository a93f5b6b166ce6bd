import Scad.Text.Pieces

/-! Absolute paths. They are normal: the names on the way from the root, without detours. -/
namespace Scad.Library

structure Path where
  /-- Exactly two slashes in front stay two; they may mean another root. -/
  doubled : Bool
  names : List String
  deriving DecidableEq

namespace Path

/-- The steps of a text, empty ones included. -/
def steps (text : String) : List String := (Text.pieces '/' text.toList).map String.ofList

/-- Takes one step by its text alone: `..` goes up, and stays at the root. -/
def step (names : List String) (s : String) : List String :=
  if s = "" ∨ s = "." then names else if s = ".." then names.dropLast else names ++ [s]

/-- The path that a text means inside of a folder. -/
def ofText (folder : Path) (text : String) : Path :=
  match text.toList with
  | '/' :: '/' :: '/' :: _ => ⟨false, (steps text).foldl step []⟩
  | '/' :: '/' :: _ => ⟨true, (steps text).foldl step []⟩
  | '/' :: _ => ⟨false, (steps text).foldl step []⟩
  | _ => ⟨folder.doubled, (steps text).foldl step folder.names⟩

def text (p : Path) : String :=
  (if p.doubled then "//" else "/") ++ "/".intercalate p.names

def parent (p : Path) : Path := ⟨p.doubled, p.names.dropLast⟩

end Path

/-- A file's text behind a folder's text, unless it starts from the root itself. -/
def joinText (folder file : String) : String :=
  if file.toList.head? = some '/' then file
  else if folder.toList.getLast?.all (· = '/') then folder ++ file
  else folder ++ "/" ++ file

end Scad.Library
