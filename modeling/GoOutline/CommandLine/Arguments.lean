/-!
Arguments of the command line: options by name, values by place.
-/

namespace GoOutline.CommandLine

inductive FlagKind where
  | switch
  | value
  /-- Nothing behind the option counts. -/
  | final
deriving DecidableEq, Repr

structure Flag where
  short : Option Char
  long : String
  kind : FlagKind
deriving DecidableEq, Repr

/-- An option that is given, with its value. -/
abbrev GivenFlag := String × Option String

/-- The options that are given, and the values between them. -/
structure Given where
  flags : List GivenFlag
  values : List String
deriving Repr

namespace Given

def empty : Given := ⟨[], []⟩

def addValue (g : Given) (value : String) : Given := { g with values := value :: g.values }

def addFlags (g : Given) (flags : List GivenFlag) : Given := { g with flags := flags ++ g.flags }

def has (g : Given) (long : String) : Bool := g.flags.any (·.1 == long)

def value? (g : Given) (long : String) : Option String := (g.flags.lookup long).join

/-- No option is given twice. -/
def isUnique (g : Given) : Bool :=
  let names := g.flags.map Prod.fst
  names.eraseDups.length == names.length

end Given

/-- What looks like an option is no value. -/
def isDashed (arg : String) : Bool := arg.toList.head? == some '-' && arg != "-"

/-- What follows the options in an argument. -/
inductive Behind where
  | anything
  /-- The next argument has to be the value of an option. -/
  | value (long : String)
  | nothing
deriving DecidableEq, Repr

/-- The options in a group of letters. -/
def letters (known : List Flag) : List Char → Option (List GivenFlag × Behind)
  | [] => some ([], .anything)
  | c :: rest =>
    match known.find? (·.short == some c) with
    | none => none
    | some ⟨_, long, .final⟩ => some ([(long, none)], .nothing)
    | some ⟨_, long, .switch⟩ =>
      (letters known rest).map fun (flags, behind) => ((long, none) :: flags, behind)
    | some ⟨_, long, .value⟩ =>
      match rest with
      | [] => some ([], .value long)
      | '=' :: value | value => some ([(long, some (String.ofList value))], .anything)

/-- The name and the value in an option with a long name. -/
def splitLong (body : List Char) : String × Option String :=
  let name := body.takeWhile (· != '=')
  match body.dropWhile (· != '=') with
  | _ :: value => (String.ofList name, some (String.ofList value))
  | [] => (String.ofList name, none)

def longFlag (known : List Flag) (body : List Char) : Option (List GivenFlag × Behind) :=
  let (name, value) := splitLong body
  match (known.find? (·.long == name)).map Flag.kind, value with
  | some .value, none => some ([], .value name)
  | some .value, some _ => some ([(name, value)], .anything)
  | some .switch, none => some ([(name, none)], .anything)
  | some .final, none => some ([(name, none)], .nothing)
  | _, _ => none

def flagsIn (known : List Flag) (arg : String) : Option (List GivenFlag × Behind) :=
  match arg.toList with
  | '-' :: '-' :: body => longFlag known body
  | '-' :: body => letters known body
  | _ => none

/-- The options in an argument, and the arguments left of those behind it. -/
def takeFlags (known : List Flag) (arg : String) (rest : List String) :
    Option (List GivenFlag × List String) :=
  match flagsIn known arg with
  | none => none
  | some (flags, .anything) => some (flags, rest)
  | some (flags, .nothing) => some (flags, [])
  | some (flags, .value long) =>
    match rest with
    | [] => none
    | value :: rest =>
      if isDashed value then none else some (flags ++ [(long, some value)], rest)

theorem length_of_takeFlags {known : List Flag} {arg : String} {rest left : List String}
    {flags : List GivenFlag} (h : takeFlags known arg rest = some (flags, left)) :
    left.length ≤ rest.length := by
  unfold takeFlags at h
  split at h
  · contradiction
  · cases h; exact Nat.le_refl _
  · cases h; exact Nat.zero_le _
  · split at h
    · contradiction
    · split at h
      · contradiction
      · cases h; exact Nat.le_succ _

/-- Takes options and values apart. Behind two dashes there are only values. -/
def sort (known : List Flag) : List String → Option Given
  | [] => some .empty
  | arg :: rest =>
    if arg = "--" then some ⟨[], rest⟩
    else if isDashed arg then
      match _h : takeFlags known arg rest with
      | none => none
      | some (flags, left) => (sort known left).map (·.addFlags flags)
    else (sort known rest).map (·.addValue arg)
termination_by args => args.length
decreasing_by
  · have := length_of_takeFlags _h
    rw [List.length_cons]
    omega
  · exact Nat.lt_succ_self _

/-- Takes the options in front of the first value. -/
def leading (known : List Flag) : List String → Option (List GivenFlag × List String)
  | [] => some ([], [])
  | arg :: rest =>
    if isDashed arg then
      match _h : takeFlags known arg rest with
      | none => none
      | some (flags, left) =>
        (leading known left).map fun (more, behind) => (flags ++ more, behind)
    else some ([], arg :: rest)
termination_by args => args.length
decreasing_by
  have := length_of_takeFlags _h
  rw [List.length_cons]
  omega

end GoOutline.CommandLine
