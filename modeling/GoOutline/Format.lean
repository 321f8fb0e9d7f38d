import GoOutline.Error
import GoOutline.Text.Lines
import GoOutline.Text.Utf8

/-!
Formatters: what happens to a text before it is shown or written.
-/

namespace GoOutline

open Text

/-- What running a program on an input comes to. -/
inductive ProgramRun where
  | cannotStart (reason : String)
  | finished (status : Nat) (output errors : List UInt8)
deriving DecidableEq, Repr

/-- The programs there are, by name, each a function of its input. -/
abbrev Programs := String → List Char → ProgramRun

inductive Formatter where
  | verbatim
  | program (name : String)
deriving DecidableEq, Repr

namespace Formatter

/-- Lines without blanks at their ends, and no blank lines at the end. -/
def verbatimText (text : List Char) : List Char :=
  (lines (trimEnd text)).flatMap fun line => trimEnd line ++ ['\n']

/-- The output of a program that succeeds. -/
def outputOf (name : String) : ProgramRun → Except Error (List Char)
  | .cannotStart reason => .error (.formatter ("cannot run " ++ name ++ ": " ++ reason))
  | .finished status output errors =>
    if status ≠ 0 then .error (.formatter (String.ofList (trim (Utf8.decodeLossy errors))))
    else
      match Utf8.decode output with
      | .ok text => .ok text
      | .error fault => .error (.formatter ("non UTF-8 output: " ++ fault.message))

def format (programs : Programs) (f : Formatter) (text : List Char) : Except Error (List Char) :=
  match f with
  | .verbatim => .ok (verbatimText text)
  | .program name => outputOf name (programs name text)

end Formatter

end GoOutline
