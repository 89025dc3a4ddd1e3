import CLint.Files.Basic
import CLint.Glob

namespace CLint

namespace Files

variable (t : Files)

def isSourceName (name : String) : Bool :=
  ['.', 'c'].isSuffixOf name.toList || ['.', 'h'].isSuffixOf name.toList

-- The way from a place to a node that is a file of source code below it.
def sourceBelow? (place : List String) : List String × FileNode → Option (List String)
  | (_, .directory) => none
  | (node, _) =>
    if place.isPrefixOf node then
      let way := node.drop place.length
      if (way.getLast?.any isSourceName) then some way else none
    else none

-- The order of two ways is that of the first names in which they differ.
def precedes : List String → List String → Bool
  | [], _ => true
  | _ :: _, [] => false
  | a :: as, b :: bs => if a = b then precedes as bs else a < b

-- The ways to all files of source code below a place. They are ordered name by name, so that a
-- directory stays in one piece.
def sourcesBelow (place : List String) : List (List String) :=
  (t.nodes.filterMap (sourceBelow? place)).mergeSort precedes

-- The files that a path stands for. A directory stands for the source code in it, and anything
-- else for itself, be it there or not.
def expand (p : Path) : List Path :=
  match t.find p with
  | .ok (place, .directory) => (t.sourcesBelow place).map p.extend
  | _ => [p]

end Files

-- Which paths are to be looked at. Without anything to include, all are.
structure PathFilter where
  includes : List String := []
  excludes : List String := []
  deriving DecidableEq, Repr

namespace PathFilter

def matchesAny (globs : List String) (p : Path) : Bool :=
  globs.any fun g => (Glob.ofText g).matchesText p.text

def keeps (f : PathFilter) (p : Path) : Bool :=
  (f.includes.isEmpty || matchesAny f.includes p) && !matchesAny f.excludes p

def select (f : PathFilter) (ps : List Path) : List Path :=
  ps.filter f.keeps

end PathFilter

namespace Files

-- The files to be checked if some paths are given.
def discover (t : Files) (f : PathFilter) (ps : List Path) : List Path :=
  f.select (ps.flatMap t.expand)

end Files
end CLint
