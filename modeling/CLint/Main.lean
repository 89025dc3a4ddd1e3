import CLint.Command.Run
import CLint.Date
import Std.Time.DateTime.Timestamp

namespace CLint.Disk

-- A file that is there, and what it says if it can be opened.
def readNode (path : String) : IO FileNode := do
  try
    return .file (← IO.FS.readBinFile path).toList
  catch _ =>
    return .locked "Permission denied"

-- What is at a place, without what is below it.
def node? (place : List String) : IO (Option FileNode) := do
  let path := (Path.ofSteps place).text
  let onDisk := (← IO.currentDir) / path
  if ← onDisk.isDir then return some .directory
  else if ← onDisk.pathExists then return some (← readNode path)
  else return none

-- The source code below a directory.
partial def sourcesBelow (place : List String) : IO (List (List String × FileNode)) := do
  let onDisk := (← IO.currentDir) / (Path.ofSteps place).text
  let mut nodes : List (List String × FileNode) := []
  for entry in ← onDisk.readDir do
    let place := place ++ [entry.fileName]
    if ← entry.path.isDir then
      nodes := nodes ++ (place, .directory) :: (← sourcesBelow place)
    else if Files.isSourceName entry.fileName then
      nodes := (place, ← readNode (Path.ofSteps place).text) :: nodes
  return nodes

-- What is at the end of a path and on the way to it.
def nodesOf (here : List String) (p : Path) : IO (List (List String × FileNode)) := do
  let mut nodes : List (List String × FileNode) := []
  for n in List.range (p.steps.length + 1) do
    let way := { p with steps := p.steps.take n }
    let place := (Path.resolve (.ofSteps here) way).steps
    match ← node? place with
    | some node => nodes := nodes ++ [(place, node)]
    | none => pure ()
  let place := (Path.resolve (.ofSteps here) p).steps
  match nodes.lookup place with
  | some .directory => return nodes ++ (← sourcesBelow place)
  | _ => return nodes

def snapshot (ps : List Path) : IO Files := do
  let here := (Path.ofText (← IO.currentDir).toString).steps
  let nodes ← ps.mapM (nodesOf here)
  return ⟨nodes.flatten.eraseDupsBy (·.1 == ·.1), here⟩

def write (p : Path) (content : String) : IO Unit := do
  IO.FS.createDirAll (Path.ofSteps p.steps.dropLast).text
  IO.FS.writeFile p.text content

def now : IO String := do
  let moment ← Std.Time.Timestamp.now
  return Date.momentText moment.toSecondsSinceUnixEpoch.val.toNat

def finish (o : Outcome) : IO UInt32 := do
  match o.written with
  | some (p, content) => write p content
  | none => pure ()
  let terminal ← (← IO.getStdout).isTty
  o.plainComplaints.forM fun complaint => IO.eprintln complaint
  IO.print (if terminal then o.output else o.plainOutput)
  return o.exitCode.toUInt32

end CLint.Disk

open CLint

def main (words : List String) : IO UInt32 := do
  match Command.read words with
  | .error e =>
    IO.eprintln s!"Error: {e.message}"
    return 2
  | .ok command =>
    let files ← Disk.snapshot command.lookedAt
    match Command.run files (← Disk.now) command with
    | .error e =>
      IO.eprintln s!"Error: {e.message}"
      return if e.fault?.isSome || e = .unwritable then 1 else 2
    | .ok outcome => Disk.finish outcome
