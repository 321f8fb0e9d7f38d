import GoOutline.CommandLine.Arguments

/-!
What the arguments of the command line ask for.
-/

namespace GoOutline.CommandLine

/-- A change to a file, in the words of the command line. -/
inductive Change where
  | addImport (path : String) (name : Option String)
  | addField (owner name type : String) (tag : Option String)
  | addParam (function name type : String)
  | annotate (target kind name : String) (args : List String)
deriving DecidableEq, Repr

inductive Command where
  | inspect (json : Bool)
  | find (name : String) (json : Bool)
  /-- A change is written into the file, or shown. -/
  | change (change : Change) (write : Bool)
deriving DecidableEq, Repr

structure Invocation where
  config : String
  verbose : Bool
  file : String
  command : Command
deriving DecidableEq, Repr

inductive Request where
  | help
  | version
  | run (i : Invocation)
deriving DecidableEq, Repr

namespace Request

/-- Where the configuration is, if no option says otherwise. -/
def standardConfig : String := ".gosource.json"

/-- The kind of the target that is annotated, if no option says otherwise. -/
def standardKind : String := "struct"

def helpFlag : Flag := ⟨some 'h', "help", .final⟩

/-- Options of every command, which may as well stand in front of it. -/
def sharedFlags : List Flag :=
  [⟨some 'c', "config", .value⟩, ⟨some 'v', "verbose", .switch⟩, helpFlag]

def leadingFlags : List Flag := ⟨some 'V', "version", .final⟩ :: sharedFlags

def jsonFlag : Flag := ⟨none, "json", .switch⟩

def writeFlag : Flag := ⟨some 'w', "write", .switch⟩

/-- The options of a command. -/
def flags? : String → Option (List Flag)
  | "inspect" | "find" => some [jsonFlag]
  | "add-import" => some [⟨none, "alias", .value⟩, writeFlag]
  | "add-field" => some [⟨none, "tag", .value⟩, writeFlag]
  | "add-param" => some [writeFlag]
  | "annotate" => some [⟨some 'k', "kind", .value⟩, writeFlag]
  | _ => none

/-- The command with a name, and the file in front of its values. -/
def command? (name : String) (g : Given) : Option (String × Command) :=
  let changed (c : Change) : Command := .change c (g.has "write")
  match name, g.values with
  | "inspect", [file] => some (file, .inspect (g.has "json"))
  | "find", [file, wanted] => some (file, .find wanted (g.has "json"))
  | "add-import", [file, path] => some (file, changed (.addImport path (g.value? "alias")))
  | "add-field", [file, owner, field, type] =>
    some (file, changed (.addField owner field type (g.value? "tag")))
  | "add-param", [file, function, param, type] =>
    some (file, changed (.addParam function param type))
  | "annotate", file :: target :: wanted :: args =>
    some (file, changed (.annotate target ((g.value? "kind").getD standardKind) wanted args))
  | _, _ => none

/-- The run that options in front of a command and the arguments behind its name ask for. The later
one of two configurations counts, and no path is empty. -/
def invocation? (front : Given) (name : String) (own : Given) : Option Invocation := do
  if !front.isUnique || !own.isUnique then none
  let configs := (front.value? "config").toList ++ (own.value? "config").toList
  let (file, command) ← command? name own
  if (file :: configs).contains "" then none
  return ⟨configs.getLastD standardConfig, front.has "verbose" || own.has "verbose", file, command⟩

/-- None if the arguments make no sense. -/
def ofArguments? (args : List String) : Option Request := do
  let (flags, rest) ← leading leadingFlags args
  let front : Given := ⟨flags, []⟩
  if front.has "version" then return .version
  if front.has "help" then return .help
  match rest with
  | [] => none
  | ["help"] => return .help
  | name :: rest =>
    let own ← sort ((← flags? name) ++ sharedFlags) rest
    if own.has "help" then return .help
    return .run (← invocation? front name own)

end Request

end GoOutline.CommandLine
