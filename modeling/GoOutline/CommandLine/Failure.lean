import GoOutline.Error
import GoOutline.Text.Lines

/-!
Why a command fails, and how it is told.
-/

namespace GoOutline.CommandLine

open Text

inductive Failure where
  | config (e : Error)
  | unknownKind (word : String)
  | cannotRead (file : String) (cause : ReadError)
  | cannotLoad (file : String) (cause : Error)
  /-- The target is no member with its owner in front. -/
  | noMember (target : String)
  | cannotChange (e : Error)
deriving DecidableEq, Repr

namespace Failure

/-- The failure, and what caused it. -/
def messages : Failure → String × Option String
  | config (.unreadable cause) => (Error.message (.unreadable cause), some cause.message)
  | config e => (e.message, none)
  | unknownKind word => ("Unknown annotation target kind: " ++ word, none)
  | cannotRead file cause => ("cannot read " ++ file, some cause.message)
  | cannotLoad file cause => ("cannot load " ++ file, some cause.message)
  | noMember target =>
    ("expected " ++ Error.ticked "Parent.member" ++ ", got " ++ Error.ticked target, none)
  | cannotChange e => (e.message, none)

/-- Every line of a cause is four places to the right. -/
def indentCause (cause : String) : List Char :=
  (cause.toList.splitOn '\n').flatMap fun line => "    ".toList ++ line ++ ['\n']

def render (f : Failure) : List Char :=
  let (message, cause) := f.messages
  "Error: ".toList ++ message.toList ++ ['\n'] ++
    match cause with
    | some cause => "\nCaused by:\n".toList ++ indentCause cause
    | none => []

end Failure

end GoOutline.CommandLine
