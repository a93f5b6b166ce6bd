import Scad.NameSet

/-! Names that need no declaration. -/
namespace Scad

/-- A table of provided names, one set for each of the three kinds of name. -/
structure Builtins where
  modules : NameSet
  functions : NameSet
  vars : NameSet
  deriving DecidableEq

namespace Builtins

def ofLists (modules functions vars : List String) : Builtins :=
  ⟨.ofList modules, .ofList functions, .ofList vars⟩

/-- The table with more names. -/
def extend (b : Builtins) (modules functions vars : List String) : Builtins :=
  ⟨b.modules.union (.ofList modules), b.functions.union (.ofList functions),
    b.vars.union (.ofList vars)⟩

/-- What the language provides by itself. -/
def stock : Builtins := ofLists
  ["cube", "sphere", "cylinder", "polyhedron", "square", "circle", "polygon", "text", "import",
    "surface", "projection", "linear_extrude", "rotate_extrude", "translate", "rotate", "scale",
    "resize", "mirror", "multmatrix", "color", "offset", "hull", "minkowski", "union",
    "difference", "intersection", "render", "children", "intersection_for", "parent_module"]
  ["abs", "sign", "sin", "cos", "tan", "acos", "asin", "atan", "atan2", "floor", "round", "ceil",
    "ln", "log", "pow", "sqrt", "exp", "rands", "min", "max", "norm", "cross", "len", "concat",
    "lookup", "str", "chr", "ord", "search", "version", "version_num", "is_undef", "is_bool",
    "is_num", "is_string", "is_list", "is_function"]
  ["PI"]

end Builtins

end Scad
