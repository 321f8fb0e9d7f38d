import GoOutline.CommandLine.Run
import GoOutline.Program

/-!
The command line at work: collects the files that a run needs, runs, prints and writes. How the names
in a folder are listed is left to the host.
-/

namespace GoOutline.CommandLine

open Text

/-- What stands at a path, if anything. -/
def lookAt (path : String) : IO (Option Node) := do
  try
    match Utf8.decode (← IO.FS.readBinFile path).toList with
    | .ok content => return some (.text content)
    | .error _ => return some .binary
  catch
    | .inappropriateType _ 21 _ => return some .folder
    | _ => return none

/-- Adds what stands at a path to a disk. -/
def collect (disk : Disk) (path : String) : IO Disk := do
  match ← lookAt path with
  | some node => return disk.put (Path.names disk.cwd path) node
  | none => return disk

/-- Adds the files in a folder that take part in a build. -/
def collectFolder (list : String → IO (List String)) (disk : Disk) (folder : String) : IO Disk := do
  match ← lookAt folder with
  | some .folder =>
    let files := (← list folder).filter Workspace.isBuildFile
    (files.map (Path.join folder)).foldlM collect (disk.put (Path.names disk.cwd folder) .folder)
  | _ => return disk

/-- The files of a run, for which its configuration says where to look. -/
def collectFor (list : String → IO (List String)) (i : Invocation) (s : Surroundings) :
    IO Surroundings := do
  let disk ← ([i.config, i.file].flatMap Path.ancestors).foldlM collect s.disk
  let folders := match i.loadConfig disk, disk.read i.file with
    | .ok c, .ok text => Invocation.packageFolders c s text
    | _, _ => []
  return { s with disk := ← folders.foldlM (collectFolder list) disk }

def surroundings : IO Surroundings := do
  let home := (← IO.getEnv "HOME").getD "/"
  let cwd := (← IO.getEnv "PWD").getD "/"
  let place := Path.names [] cwd
  return ⟨⟨"", place, [(place, .folder)]⟩, home, cwd, Program.known⟩

/-- The program, on a host that lists the names in a folder this way. -/
def execute (list : String → IO (List String)) (args : List String) : IO UInt32 := do
  let s ← surroundings
  let s ← match Request.ofArguments? args with
    | some (.run i) => collectFor list i s
    | _ => pure s
  let outcome := run args s
  IO.print (String.ofList outcome.output)
  IO.eprint (String.ofList outcome.errors)
  if let some (path, content) := outcome.written then
    IO.FS.writeFile path (String.ofList content)
  return outcome.status.toUInt32

end GoOutline.CommandLine
