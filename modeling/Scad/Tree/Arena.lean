import Scad.Tree.Node

/-! All nodes of a document, found by id. Entries stand in the order in which their ids were first
used; using an id again keeps the place and replaces the node. -/
namespace Scad

structure Arena where
  entries : List (Int × Node)
  nextId : Int

namespace Arena

def empty : Arena := ⟨[], 0⟩

/-- Stores a node under an id. -/
def putEntry (id : Int) (n : Node) : List (Int × Node) → List (Int × Node)
  | [] => [(id, n)]
  | (i, m) :: rest => if i = id then (id, n) :: rest else (i, m) :: putEntry id n rest

/-- Registers a node under the next id. -/
def add (a : Arena) (n : Node) : Node × Arena :=
  let n := n.withId a.nextId
  (n, ⟨putEntry a.nextId n a.entries, a.nextId + 1⟩)

/-- Registers a node that may have an id already. -/
def restore (a : Arena) (n : Node) : Node × Arena :=
  if n.id < 0 then a.add n
  else (n, ⟨putEntry n.id n a.entries, max a.nextId (n.id + 1)⟩)

def ofNodes (ns : List Node) : Arena := ns.foldl (fun a n => (a.restore n).2) empty

def get? (a : Arena) (id : Int) : Option Node := (a.entries.find? (·.1 = id)).map (·.2)

def contains (a : Arena) (id : Int) : Bool := a.entries.any (·.1 = id)

def nodes (a : Arena) : List Node := a.entries.map (·.2)

def size (a : Arena) : Nat := a.entries.length

/-- Nodes numbered from 0 in the order in which they were made. -/
def ofMade (ns : List Node) : Arena := ⟨ns.map fun n => (n.id, n), ns.length⟩

/-- Replaces every entry by the last of the given nodes that has its id, if there is one. -/
def refresh (a : Arena) (ns : List Node) : Arena :=
  let recent := ns.reverse
  ⟨a.entries.map fun (id, n) => (id, (recent.find? (·.id = id)).getD n), a.nextId⟩

end Arena

/-- The id that a node gets when its document is restored, and the next free one. -/
def Node.claimId (next : Int) (n : Node) : Int × Int :=
  if n.id < 0 then (next, next + 1) else (n.id, max next (n.id + 1))

/-- Gives every node of a tree that has no id the next free one, parents first. -/
def Node.number (n : Node) : StateM Int Node :=
  n.fold fun m below => do
    let (id, next) := m.claimId (← get)
    set next
    let form ← below.traverse fun action => action
    return ⟨{ m.info with id }, form⟩

def Node.numberAll (ns : List Node) : List Node := ((ns.mapM Node.number).run 0).1

end Scad
