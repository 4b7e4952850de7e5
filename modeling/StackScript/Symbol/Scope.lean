namespace StackScript

/-! Lexical scopes: the names of the blocks and functions on the way from the root. -/

/-- The segments below the root, the outermost first. -/
structure Scope where
  segments : List String
  deriving DecidableEq, Repr, Inhabited

namespace Scope

def root : Scope where
  segments := []

def child (scope : Scope) (segment : String) : Scope where
  segments := scope.segments ++ [segment]

/-- Drops the innermost segment; the root stays as it is. -/
def reduce (scope : Scope) : Scope where
  segments := scope.segments.dropLast

def isRoot (scope : Scope) : Bool :=
  scope.segments.isEmpty

/-- The root has depth one. -/
def depth (scope : Scope) : Nat :=
  scope.segments.length + 1

/-- Whether a declaration in `outer` is visible from `inner`. -/
def within (inner outer : Scope) : Bool :=
  outer.segments.isPrefixOf inner.segments

def render (scope : Scope) : String :=
  ".".intercalate ("0" :: scope.segments)

end Scope

end StackScript
