import GoOutline.CommandLine.Failure
import GoOutline.CommandLine.Request
import GoOutline.Config
import GoOutline.Diff.Unified
import GoOutline.Outline.Report

/-!
Running the command line: arguments in, texts and perhaps a new file out. A run reads its
configuration first, then the file, and writes nothing if anything fails.
-/

namespace GoOutline.CommandLine

open Text

/-- What a run finds around itself. -/
structure Surroundings where
  disk : Disk
  home : String
  cwd : String
  programs : Programs

/-- What a run leaves behind. -/
structure Outcome where
  status : Nat
  output : List Char
  errors : List Char
  /-- The new content of a file. -/
  written : Option (String × List Char)
deriving Repr

/-- What a command that succeeds has to say and to write. -/
structure Answer where
  output : List Char
  written : Option (String × List Char)
deriving Repr

def line (text : String) : List Char := text.toList ++ ['\n']

def bullet (text : String) : List Char := line ("• " ++ text)

namespace Change

/-- The two parts of a member's name around the first dot. -/
def splitMember (target : String) : Except Failure (String × String) :=
  let owner := target.toList.takeWhile (· != '.')
  let member := (target.toList.dropWhile (· != '.')).drop 1
  if owner.isEmpty || member.isEmpty then .error (.noMember target)
  else .ok (String.ofList owner, String.ofList member)

/-- The annotation of a target of some kind. -/
def annotateAs (kind : Outline.EntityKind) (target : String) (a : Annotation) :
    Except Failure Edit :=
  match kind with
  | .struct => .ok (.annotateStructure target a)
  | .interface => .ok (.annotateInterface target a)
  | .function => .ok (.annotateFunction target a)
  | .field => (fun (owner, field) => .annotateField owner field a) <$> splitMember target
  | .method => (fun (owner, method) => .annotateMethod owner method a) <$> splitMember target

/-- The kind of what is annotated has to be known before the file is read. Whether the target has
the form that goes with the kind shows later. -/
def prepare : Change → Except Failure (Except Failure Edit)
  | addImport path name => .ok (.ok (.appendImport ⟨name, path, none, none⟩))
  | addField owner name type tag =>
    .ok (.ok (.appendField owner
      ⟨some name, .raw type, (tag.map fun t => Tags.ofText t.toList).getD default, []⟩))
  | addParam function name type =>
    .ok (.ok (.appendParameter function (.mk (some name) (.raw type) false)))
  | annotate target kind name args =>
    match Outline.EntityKind.ofWord? kind with
    | some kind => .ok (annotateAs kind target ⟨name, args⟩)
    | none => .error (.unknownKind kind)

end Change

namespace Invocation

def hasConfig (i : Invocation) (disk : Disk) : Bool := disk.has i.config

def loadConfig (i : Invocation) (disk : Disk) : Except Failure Config :=
  if i.hasConfig disk then
    match disk.read i.config with
    | .error e => .error (.config (.unreadable e))
    | .ok text =>
      match Config.load? text with
      | some c => .ok c
      | none => .error (.config .badJson)
  else .ok Config.standard

def finder (c : Config) (s : Surroundings) : Finder :=
  (c.workspace s.home s.cwd).find Syntax.packageClauses s.disk

def openFile (i : Invocation) (c : Config) (s : Surroundings) : Except Failure Document :=
  match s.disk.read i.file with
  | .error e => .error (.cannotRead i.file e)
  | .ok text =>
    match Document.ofText c.settings (finder c s) text with
    | .error e => .error (.cannotLoad i.file e)
    | .ok d => .ok d

/-- The folders that a run searches for the packages that a text imports. -/
def packageFolders (c : Config) (s : Surroundings) (text : List Char) : List String :=
  match Outline.layoutOf text with
  | .error _ => []
  | .ok layout =>
    (Outline.importPaths layout).flatMap (c.workspace s.home s.cwd).candidates

def inspect (c : Config) (d : Document) (json : Bool) : List Char :=
  if json then d.outline.toJson.pretty ++ ['\n'] else d.outline.report c.marker

def find (c : Config) (d : Document) (name : String) (json : Bool) : List Char :=
  let hits := d.outline.find name
  if json then (Json.array (hits.map Outline.hitToJson)).pretty ++ ['\n']
  else if hits.isEmpty then bullet ("No " ++ Error.ticked name ++ " annotations found")
  else Outline.textOf (hits.map (Outline.hitLine c.marker))

/-- The text after an edit. -/
def changed (programs : Programs) (find : Finder) (d : Document) (e : Edit) :
    Except Error (List Char) :=
  match d.apply find e with
  | (.ok (), d) => d.rendered programs
  | (.error e, _) => .error e

/-- Writes the new text, or shows how it differs from the old one. -/
def finish (file : String) (write : Bool) (old new : List Char) : Answer :=
  if write then ⟨line ("✓ Updated " ++ file), some (file, new)⟩
  else if old = new then ⟨bullet "No changes", none⟩
  else ⟨Diff.unified (file ++ " (original)") (file ++ " (updated)") old new, none⟩

def answer (i : Invocation) (c : Config) (s : Surroundings) : Except Failure Answer :=
  match i.command with
  | .inspect json => do
    let d ← i.openFile c s
    return ⟨inspect c d json, none⟩
  | .find name json => do
    let d ← i.openFile c s
    return ⟨find c d name json, none⟩
  | .change change write => do
    let prepared ← change.prepare
    let d ← i.openFile c s
    let edit ← prepared
    let new ← (changed s.programs (finder c s) d edit).mapError .cannotChange
    return finish i.file write d.text new

/-- What a talkative run says when it finds no configuration. -/
def notice (i : Invocation) (disk : Disk) : List Char :=
  if i.verbose && !i.hasConfig disk then bullet ("No " ++ i.config ++ " found, using defaults")
  else []

def run (i : Invocation) (s : Surroundings) : Outcome :=
  let notice := i.notice s.disk
  match (i.loadConfig s.disk).bind fun c => i.answer c s with
  | .ok a => ⟨0, a.output, notice, a.written⟩
  | .error e => ⟨1, [], notice ++ e.render, none⟩

end Invocation

def versionText : List Char := line "gosource 0.3.0"

def usage : List Char :=
  Outline.textOf <| List.map String.toList
    ["Usage: [-c FILE] [-v] COMMAND",
     "  inspect FILE [--json]",
     "  find FILE ANNOTATION [--json]",
     "  add-import FILE PATH [--alias NAME] [-w]",
     "  add-field FILE STRUCTURE NAME TYPE [--tag TAG] [-w]",
     "  add-param FILE FUNCTION NAME TYPE [-w]",
     "  annotate FILE TARGET NAME [ARGS...] [-k KIND] [-w]"]

def run (args : List String) (s : Surroundings) : Outcome :=
  match Request.ofArguments? args with
  | none => ⟨2, [], usage, none⟩
  | some .help => ⟨0, usage, [], none⟩
  | some .version => ⟨0, versionText, [], none⟩
  | some (.run i) => i.run s

end GoOutline.CommandLine
