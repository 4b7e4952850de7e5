import StackScript.Diagnostic.Cause
import StackScript.Report

namespace StackScript

/-! The tree of failed rules that a compilation leaves. Alternatives that were tried in vain come
before the one that ended the compilation. -/

inductive Diagnostic where
  | node (position : Position) (cause : Cause) (confidence : Int) (children : List Diagnostic)

namespace Diagnostic

def position : Diagnostic → Position
  | .node position _ _ _ => position

def cause : Diagnostic → Cause
  | .node _ cause _ _ => cause

def confidence : Diagnostic → Int
  | .node _ _ confidence _ => confidence

def children : Diagnostic → List Diagnostic
  | .node _ _ _ children => children

def failure (position : Position) (cause : Cause) (children : List Diagnostic) : Diagnostic :=
  .node position cause (-1) children

def leaf (position : Position) (cause : Cause) : Diagnostic :=
  failure position cause []

mutual

/-- The last leaf: the failure that ended the compilation. -/
def deepest : Diagnostic → Diagnostic
  | .node position cause confidence children =>
      deepestOf (.node position cause confidence children) children

/-- The last leaf below some children, or a given node if there are none. -/
def deepestOf : Diagnostic → List Diagnostic → Diagnostic
  | default, [] => default
  | default, child :: rest =>
      match rest with
      | [] => child.deepest
      | _ :: _ => deepestOf default rest

end

mutual

/-- The furthest position in the tree; of several equally far ones the first. -/
def furthest : Diagnostic → Position
  | .node position _ _ children => furthestOf position children

def furthestOf : Position → List Diagnostic → Position
  | best, [] => best
  | best, child :: rest =>
      let reached := child.furthest
      furthestOf (if best.offset < reached.offset then reached else best) rest

end

def label (d : Diagnostic) : String :=
  let p := d.position
  s!"[{p.offset}; ({p.line + 1}, {p.column + 1}), {d.confidence}] {d.cause.name}"

mutual

/-- One line for each node, indented by one space for each level. -/
def lines : (level : Nat) → Diagnostic → List String
  | level, .node position cause confidence children =>
      (Text.spaces level ++ label (.node position cause confidence children)) ::
        linesOf (level + 1) children

def linesOf : (level : Nat) → List Diagnostic → List String
  | _, [] => []
  | level, child :: rest => lines level child ++ linesOf level rest

end

/-- The report that points at the failure which ended the compilation. -/
def report (d : Diagnostic) (file source : String) : Report :=
  let node := d.deepest
  let p := node.furthest
  { kind := node.cause.errorKind
    message := node.cause.description
    position := { line := p.line + 1, column := p.column + 1, offset := p.offset }
    file
    help := some node.cause.name
    source := Report.sourceLines source }

end Diagnostic

end StackScript
