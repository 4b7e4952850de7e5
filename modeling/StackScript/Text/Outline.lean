namespace StackScript.Text

/-! Trees of labels drawn with branches. -/

inductive Outline where
  | node (label : String) (children : List Outline)

namespace Outline

mutual

/-- The lines below a node; `margin` is what stands in front of all of them. -/
def branches : (margin : String) → Outline → List String
  | margin, .node _ children => branchesOf margin children

/-- The last child has a corner, and nothing is drawn below it. -/
def branchesOf : (margin : String) → List Outline → List String
  | _, [] => []
  | margin, [.node label children] =>
      (margin ++ "└─ " ++ label) :: branchesOf (margin ++ "   ") children
  | margin, .node label children :: rest =>
      (margin ++ "├─ " ++ label) :: branchesOf (margin ++ "│  ") children ++
        branchesOf margin rest

end

def label : Outline → String
  | .node label _ => label

def render (outline : Outline) : String :=
  String.join ((outline.label :: outline.branches "").map (· ++ "\n"))

end Outline

end StackScript.Text
