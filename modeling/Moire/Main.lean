import Moire.CommandLine.Program

/-!
# The command line

Brings the files that a run may touch into a tree, runs the program on it, and carries the outcome
back to the files, the terminal and the exit code.
-/

namespace Moire

/-- The content of a file, if there is one. -/
def content? (path : String) : IO (Option ByteArray) := do
  try return some (← IO.FS.readBinFile path) catch _ => return none

/-- The paths of the files in a folder, if there is one. -/
def folderPaths? (path : String) : IO (Option (List String)) := do
  let place := (← IO.currentDir) / path
  if !(← place.isDir) then return none
  let entries ← place.readDir
  return some (entries.toList.map fun entry ↦ joinPath path entry.fileName)

/-- The folder that a path stands in. -/
def parentPath (path : String) : String :=
  "/".intercalate (path.splitOn "/").dropLast

/-- Bring a file or a folder with its files into the tree. -/
def bring (tree : FileTree) (path : String) : IO FileTree := do
  match ← folderPaths? path with
  | some paths =>
      let mut grown := (tree.createFolder path).toOption.getD tree
      for file in paths do
        if let some bytes ← content? file then
          grown := (grown.seed file bytes).toOption.getD grown
      return grown
  | none =>
      match ← content? path with
      | some bytes => return (tree.seed path bytes).toOption.getD tree
      | none => return tree

/-- Bring what stands at a path that is to be written: its folder, and what it would replace. -/
def bringTarget (tree : FileTree) (path : String) : IO FileTree := do
  let parent := parentPath path
  let isThere ← ((← IO.currentDir) / parent).isDir
  let tree := if isThere then (tree.createFolder parent).toOption.getD tree else tree
  bring tree path

/-- Carry a file of the tree back, if it differs from the one that was there. -/
def carry (before after : FileTree) (path : String) : IO Unit := do
  match before.read path, after.read path with
  | .ok old, .ok new => if old != new then IO.FS.writeBinFile path new
  | .error _, .ok new => IO.FS.writeBinFile path new
  | _, .error _ => return

/-- The number of processors, one if it cannot be told. -/
def processors : IO Nat := do
  match (← content? "/proc/cpuinfo").bind String.fromUTF8? with
  | some text =>
      let entries := (text.splitOn "\n").filter fun line ↦ line.startsWith "processor"
      return max 1 entries.length
  | none => return 1

/-- How the program is called. -/
def usage : String :=
  "Usage: tbg [-c FILE] [-o FILE] [-w COUNT] [--kp-num COUNT] [--twist-angle DEGREES]\n" ++
  "           [--cache-dir FOLDER] [--no-cache] [--refresh] [-e FILE] [-h] [-V]"

/-- Report why a run ended early. -/
def complain (stop : Stop) : IO Unit := do
  match stop with
  | .usage .helpRequested => IO.println usage
  | .usage .versionRequested => IO.println "tbg 0.1.0"
  | .usage _ => IO.eprintln usage
  | _ =>
      IO.eprintln "Error:"
      for (link, i) in stop.links.zipIdx do
        IO.eprintln s!"   {i}: {link}"

/-- Run the program on the files of the system. -/
def runOnSystem (arguments : List String) : IO UInt32 := do
  let options := (Options.parse arguments).toOption.getD {}
  let mut tree ← bring .empty options.configFile
  let cache := match options.loadConfig tree with
    | .ok config => if config.cacheEnabled then some config.cacheDirectory else none
    | .error _ => none
  if let some folder := cache then tree ← bring tree folder
  for path in options.output.toList ++ options.exportPath.toList do
    tree ← bringTarget tree path
  let scheduler ← IO.getEnv "SLURM_CPUS_PER_TASK"
  let (result, place) := runProgram arguments scheduler (← processors) tree
  if let some folder := cache then
    if place.files.holds folder then IO.FS.createDirAll folder
    for name in place.files.listingAt folder do
      carry tree place.files (joinPath folder name)
  for path in options.exportPath.toList do
    carry tree place.files path
  let lines := String.join (place.log.toList.map (· ++ "\n"))
  match place.target with
  | .terminal => IO.print lines
  | .file path => IO.FS.writeFile path lines
  | .nowhere => pure ()
  match result with
  | .ok () => return 0
  | .error stop =>
      complain stop
      return stop.code.toUInt32

end Moire

/-- Run the program. -/
def main (arguments : List String) : IO UInt32 := Moire.runOnSystem arguments
