import CLint.Path
import CLint.Text.Quoted
import CLint.Text.Utf8

namespace CLint

-- What is at a place in a tree of files. Some files are there but cannot be opened, for a reason
-- of their own.
inductive FileNode
  | file (bytes : List UInt8)
  | locked (reason : String)
  | directory
  deriving DecidableEq, Repr

-- Why a file cannot be read or written.
inductive FileFault
  | missing
  | alreadyThere
  | notDirectory
  | isDirectory
  | locked (reason : String)
  | unnameable
  deriving DecidableEq, Repr

namespace FileFault

def reason : FileFault → String
  | missing => "No such file or directory"
  | alreadyThere => "File exists"
  | notDirectory => "Not a directory"
  | isDirectory => "Is a directory"
  | locked reason => reason
  | unnameable => "embedded null byte"

-- The number by which the system knows a fault. Paths without a name do not get that far.
def number? : FileFault → Option Nat
  | missing => some 2
  | alreadyThere => some 17
  | notDirectory => some 20
  | isDirectory => some 21
  | locked _ => some 13
  | unnameable => none

def message (path : Path) (f : FileFault) : String :=
  match f.number? with
  | some n => s!"[Errno {n}] {f.reason}: {Text.Quoted.quote path.text}"
  | none => f.reason

end FileFault

-- A tree of files without links, and the directory that relative paths start from. The
-- directories on the way to a node are there without being mentioned.
structure Files where
  nodes : List (List String × FileNode)
  here : List String
  deriving Repr

namespace Files

variable (t : Files)

def isOnTheWay (place : List String) : Bool :=
  place.isPrefixOf t.here || t.nodes.any fun n => place.isPrefixOf n.1

def node? (place : List String) : Option FileNode :=
  match t.nodes.lookup place with
  | some n => some n
  | none => if t.isOnTheWay place then some .directory else none

-- Where some steps lead from a place. A step needs a directory to start from, and two dots lead
-- to the one above.
def walk (place : List String) : List String → Except FileFault (List String × FileNode)
  | [] =>
    match t.node? place with
    | some n => .ok (place, n)
    | none => .error .missing
  | step :: steps =>
    match t.node? place with
    | some .directory => walk (if step = ".." then place.dropLast else place ++ [step]) steps
    | some _ => .error .notDirectory
    | none => .error .missing

def find (p : Path) : Except FileFault (List String × FileNode) :=
  if p.isNameable then t.walk (if p.isAbsolute then [] else t.here) p.steps
  else .error .unnameable

def contains (p : Path) : Bool :=
  (t.find p).toBool

def read (p : Path) : Except FileFault (List UInt8) := do
  match ← t.find p with
  | (_, .file bytes) => return bytes
  | (_, .locked reason) => .error (.locked reason)
  | (_, .directory) => .error .isDirectory

-- The path of a place, from the root on.
def absolute (p : Path) : Path :=
  Path.resolve (.ofSteps t.here) p

-- What keeps a file from being written, and the path that it is about. Directories are made as
-- they are needed, which takes that nothing else is in their place.
def writeFault? (p : Path) : Option (Path × FileFault) :=
  let place := (t.absolute p).steps
  let parent := place.dropLast
  let blocked := (List.range parent.length).any fun n =>
    (t.node? (parent.take n)).any (· ≠ .directory)
  if blocked then some (.ofSteps parent, .notDirectory)
  else if (t.node? parent).any (· ≠ .directory) then some (.ofSteps parent, .alreadyThere)
  else
    match t.node? place with
    | some .directory => some (.ofSteps place, .isDirectory)
    | some (.locked reason) => some (.ofSteps place, .locked reason)
    | _ => none

end Files
end CLint
