import CLint.Text.Blank

namespace CLint

-- A way through a tree of files. The root is empty if the way starts at the current directory.
structure Path where
  root : String := ""
  steps : List String := []
  deriving DecidableEq, Repr

namespace Path

-- Nothing at all and a single dot stay where they are. Two dots are a step like any other, since
-- where they lead depends on the tree.
def isStep (name : List Char) : Bool :=
  name ≠ [] && name ≠ ['.']

-- Two slashes are a root of their own, but three are just one.
def rootText (cs : List Char) : String :=
  match (cs.takeWhile (· = '/')).length with
  | 0 => ""
  | 2 => "//"
  | _ => "/"

def ofText (s : String) : Path where
  root := rootText s.toList
  steps := ((Text.fields (· = '/') s.toList).filter isStep).map String.ofList

def text (p : Path) : String :=
  if p.root = "" && p.steps = [] then "."
  else p.root ++ "/".intercalate p.steps

-- The last step, if there is one.
def name (p : Path) : String :=
  p.steps.getLast?.getD ""

def isAbsolute (p : Path) : Bool :=
  p.root ≠ ""

-- Whether there can be anything at the end of a path: no name has a zero character in it.
def isNameable (p : Path) : Bool :=
  p.steps.all fun step => !step.toList.contains '\x00'

def ofSteps (steps : List String) : Path where
  root := "/"
  steps := steps

-- The second path as seen from the end of the first one.
def join (p q : Path) : Path :=
  if q.isAbsolute then q else { p with steps := p.steps ++ q.steps }

def extend (p : Path) (steps : List String) : Path :=
  { p with steps := p.steps ++ steps }

-- Takes back a step for every two dots. Nothing is above the root.
def climb (steps : List String) : List String :=
  steps.foldl (fun done step => if step = ".." then done.dropLast else done ++ [step]) []

-- The place of a path as seen from a directory, in a tree without links.
def resolve (base p : Path) : Path :=
  ofSteps (climb (base.join p).steps)

end Path
end CLint
