import Scad.Tree.Binding

/-! Scopes. There are three separate kinds of names; in one frame the last definition of a name
counts, and an inner frame hides an outer one. -/
namespace Scad

/-- The three kinds of names. -/
inductive NameClass where
  | vars | functions | modules
  deriving DecidableEq

/-- The names of one kind in one frame, in the order of their first definition. -/
abbrev NameTable := List (String × Binding)

namespace NameTable

def define (name : String) (b : Binding) : NameTable → NameTable
  | [] => [(name, b)]
  | (n, c) :: rest => if n = name then (n, b) :: rest else (n, c) :: define name b rest

def lookup (table : NameTable) (name : String) : Option Binding :=
  (table.find? (·.1 = name)).map (·.2)

def render (table : NameTable) : String :=
  if table.isEmpty then "none" else ", ".intercalate (table.map (·.1))

theorem lookup_cons (n other : String) (c : Binding) (rest : NameTable) :
    lookup ((n, c) :: rest) other = if n = other then some c else lookup rest other := by
  by_cases h : n = other <;> simp [lookup, h]

theorem lookup_define (table : NameTable) (name other : String) (b : Binding) :
    lookup (define name b table) other = if name = other then some b else lookup table other := by
  induction table with
  | nil => exact lookup_cons name other b []
  | cons entry rest ih =>
    obtain ⟨n, c⟩ := entry
    unfold define
    split
    · rename_i h
      subst h
      rw [lookup_cons, lookup_cons]
      split <;> rfl
    · rename_i h
      rw [lookup_cons, lookup_cons, ih]
      split
      · rename_i h'
        rw [if_neg fun e => h (h'.trans e.symm)]
      · rfl

end NameTable

structure Frame where
  vars : NameTable
  functions : NameTable
  modules : NameTable

namespace Frame

def empty : Frame := ⟨[], [], []⟩

def table (f : Frame) : NameClass → NameTable
  | .vars => f.vars
  | .functions => f.functions
  | .modules => f.modules

def define (f : Frame) (c : NameClass) (name : String) (b : Binding) : Frame :=
  match c with
  | .vars => { f with vars := f.vars.define name b }
  | .functions => { f with functions := f.functions.define name b }
  | .modules => { f with modules := f.modules.define name b }

def render (f : Frame) (hasParent : Bool) : String :=
  "<Scope(" ++ (if hasParent then "has parent" else "root") ++ ") vars=[" ++ f.vars.render
    ++ "] funcs=[" ++ f.functions.render ++ "] mods=[" ++ f.modules.render ++ "]>"

end Frame

/-- Frames from the innermost to the outermost. -/
abbrev Scope := List Frame

namespace Scope

/-- Opens a frame. -/
def enter (s : Scope) : Scope := Frame.empty :: s

/-- Defines a name in the innermost frame. -/
def define (s : Scope) (c : NameClass) (name : String) (b : Binding) : Scope :=
  match s with
  | [] => [Frame.empty.define c name b]
  | f :: rest => f.define c name b :: rest

/-- The definition in the innermost frame that has one. -/
def lookup (s : Scope) (c : NameClass) (name : String) : Option Binding :=
  s.findSome? fun f => (f.table c).lookup name

def render (s : Scope) : String :=
  match s with
  | [] => Frame.empty.render false
  | f :: rest => f.render (!rest.isEmpty)

end Scope

/-- Scopes that stay open side by side, found by their number. Each frame names the scope around it,
which was opened before it; a name defined there later is seen from inside. -/
structure ScopeTable where
  frames : List (Option Nat × Frame)

namespace ScopeTable

/-- One scope with nothing around it. -/
def start : ScopeTable := ⟨[(none, Frame.empty)]⟩

/-- Opens a scope inside of another and gives its number. -/
def enter (t : ScopeTable) (parent : Nat) : Nat × ScopeTable :=
  (t.frames.length, ⟨t.frames ++ [(some parent, Frame.empty)]⟩)

def define (t : ScopeTable) (i : Nat) (c : NameClass) (name : String) (b : Binding) :
    ScopeTable :=
  ⟨t.frames.modify i fun (parent, f) => (parent, f.define c name b)⟩

/-- The frames of a scope; `fuel` bounds their number. -/
def chain (t : ScopeTable) : (fuel : Nat) → Nat → Scope
  | 0, _ => []
  | fuel + 1, i =>
    match t.frames[i]? with
    | none => []
    | some (none, f) => [f]
    | some (some parent, f) => f :: chain t fuel parent

def scope (t : ScopeTable) (i : Nat) : Scope := t.chain t.frames.length i

end ScopeTable

end Scad
