/-! What a name in the program stands for. -/
namespace Scad

inductive BindingKind where
  | variableDef | parameterDef | functionDef | moduleDef | builtin | special | unresolved
  deriving DecidableEq

namespace BindingKind

def text : BindingKind → String
  | variableDef => "variable"
  | parameterDef => "parameter"
  | functionDef => "function"
  | moduleDef => "module"
  | builtin => "builtin"
  | special => "special"
  | unresolved => "unresolved"

def all : List BindingKind :=
  [variableDef, parameterDef, functionDef, moduleDef, builtin, special, unresolved]

def ofText? (s : String) : Option BindingKind := all.find? (·.text = s)

end BindingKind

/-- The declaration behind a reference: the id of the declaring node in the document of that
origin. Names without a declaring node have neither. -/
structure Binding where
  kind : BindingKind
  target : Option Int
  origin : Option String
  deriving DecidableEq

namespace Binding

def builtin : Binding := ⟨.builtin, none, none⟩

/-- A `$` name that no scope declares; it is looked up where the program runs. -/
def special : Binding := ⟨.special, none, none⟩

def unresolved : Binding := ⟨.unresolved, none, none⟩

def isResolved (b : Binding) : Bool := b.kind ≠ .unresolved

end Binding

end Scad
