import Scad.Tree.Node

/-! Trees that say the same: equal in kind and fields all the way down, whatever their ids, ranges
and bindings. Numbers are compared by value. -/
namespace Scad

def sameNodes : List (Node → Bool) → List Node → Bool
  | [], [] => true
  | p :: ps, n :: ns => p n && sameNodes ps ns
  | _, _ => false

def sameField : Field (Node → Bool) → Field Node → Bool
  | .node p, .node n => p n
  | .optional none, .optional none => true
  | .optional (some p), .optional (some n) => p n
  | .nodes ps, .nodes ns => sameNodes ps ns
  | .text a, .text b => a = b
  | .texts a, .texts b => a = b
  | .names a, .names b => a = b
  | .number a, .number b => a.same b
  | .flag a, .flag b => a = b
  | _, _ => false

def sameFields : List (Field (Node → Bool)) → List (Field Node) → Bool
  | [], [] => true
  | p :: ps, f :: fs => sameField p f && sameFields ps fs
  | _, _ => false

namespace Node

def same (a : Node) : Node → Bool :=
  a.fold fun n tests other => n.kind = other.kind && sameFields tests.fields other.form.fields

def sameAll : List Node → List Node → Bool
  | [], [] => true
  | a :: as, b :: bs => a.same b && sameAll as bs
  | _, _ => false

end Node

end Scad
