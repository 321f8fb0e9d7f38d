import GoOutline.Text.Numeral
import GoOutline.Text.Utf8

/-!
Scripts of simple commands, in as much of the shell language as a formatter needs: words with
quotes, a choice of output channel, and commands that depend on the success of the one before.
-/

namespace GoOutline.Script

open Text

inductive Lexeme where
  | word (text : List Char)
  /-- An operator character, and whether it stands right behind something else. -/
  | operator (c : Char) (glued : Bool)
  | lineEnd
deriving DecidableEq, Repr

inductive Mode where
  | plain
  | escaped
  | single
  | double
  | doubleEscaped
  | comment
deriving DecidableEq, Repr

/-- The lexemes so far, the last one first, and the word that is being read. -/
structure Reader where
  mode : Mode
  word : Option (List Char)
  lexemes : List Lexeme

namespace Reader

def start : Reader := ⟨.plain, none, []⟩

def push (r : Reader) (c : Char) : Reader := { r with word := some (c :: r.word.getD []) }

def endWord (r : Reader) : Reader :=
  match r.word with
  | some w => { r with word := none, lexemes := .word w.reverse :: r.lexemes }
  | none => r

def add (r : Reader) (l : Lexeme) : Reader := { r with lexemes := l :: r.lexemes }

def plain (r : Reader) (c : Char) : Reader :=
  if c = '\\' then { r with mode := .escaped }
  else if c = '\'' then { r with mode := .single, word := some (r.word.getD []) }
  else if c = '"' then { r with mode := .double, word := some (r.word.getD []) }
  else if c = '\n' then r.endWord.add .lineEnd
  else if c = ' ' ∨ c = '\t' then r.endWord.add (.operator ' ' false)
  else if c = ';' ∨ c = '&' ∨ c = '|' ∨ c = '>' then
    let glued := r.word.isSome || r.lexemes.head?.any fun
      | .operator c _ => c != ' '
      | _ => false
    r.endWord.add (.operator c glued)
  else if c = '#' ∧ r.word.isNone then { r with mode := .comment }
  else r.push c

def read (r : Reader) (c : Char) : Reader :=
  match r.mode with
  | .plain => r.plain c
  | .escaped => { (if c = '\n' then r else r.push c) with mode := .plain }
  | .single => if c = '\'' then { r with mode := .plain } else r.push c
  | .double =>
    if c = '"' then { r with mode := .plain }
    else if c = '\\' then { r with mode := .doubleEscaped }
    else r.push c
  | .doubleEscaped =>
    let special := c == '"' || c == '\\' || c == '$' || c == Char.ofNat 0x60
    { ((if special then r else r.push '\\').push c) with mode := .double }
  | .comment => if c = '\n' then { r.add .lineEnd with mode := .plain } else r

end Reader

def lexemes (script : List Char) : List Lexeme :=
  (((script.foldl Reader.read .start).endWord.lexemes.reverse).filter
    fun l => l != .operator ' ' false)

/-- On what a command depends. -/
inductive Condition where
  | always
  | success
  | failure
deriving DecidableEq, Repr

structure Command where
  line : Nat
  condition : Condition
  words : List (List Char)
  toErrors : Bool
deriving Repr

/-- Collects the commands; the one that is being read has its words in reverse. -/
def commandsFrom (c : Command) : List Lexeme → List Command
  | [] => finish c
  | .lineEnd :: rest => finish c ++ commandsFrom ⟨c.line + 1, .always, [], false⟩ rest
  | .operator ';' _ :: rest => finish c ++ commandsFrom ⟨c.line, .always, [], false⟩ rest
  | .operator '&' _ :: .operator '&' true :: rest =>
    finish c ++ commandsFrom ⟨c.line, .success, [], false⟩ rest
  | .operator '|' _ :: .operator '|' true :: rest =>
    finish c ++ commandsFrom ⟨c.line, .failure, [], false⟩ rest
  | .operator '>' glued :: .operator '&' true :: .word channel :: rest =>
    let words := if glued && c.words.head? == some ['1'] then c.words.tail else c.words
    commandsFrom { c with words := words, toErrors := c.toErrors || channel == ['2'] } rest
  | .operator _ _ :: rest => commandsFrom c rest
  | .word w :: rest => commandsFrom { c with words := w :: c.words } rest
where
  finish (c : Command) : List Command :=
    if c.words.isEmpty then [] else [{ c with words := c.words.reverse }]

def commands (script : List Char) : List Command :=
  commandsFrom ⟨1, .always, [], false⟩ (lexemes script)

def bytesOf (s : List Char) : List UInt8 := Utf8.encode s

def letterEscape? : Char → Option Char
  | 'a' => some '\x07'
  | 'b' => some '\x08'
  | 'f' => some '\x0c'
  | 'n' => some '\n'
  | 'r' => some '\r'
  | 't' => some '\t'
  | 'v' => some '\x0b'
  | '\\' => some '\\'
  | _ => none

/-- The byte of up to three octal digits, and the rest. -/
def octal (s : List Char) : UInt8 × List Char :=
  let n := ((s.take 3).takeWhile (isDigitOf 8)).length
  (UInt8.ofNat (numeralValue 8 (s.take n)), s.drop n)

theorem length_octal (s : List Char) : (octal s).2.length ≤ s.length := by
  simp [octal]

/-- What `echo` makes of its text. -/
def unescape (s : List Char) : List UInt8 :=
  match s with
  | [] => []
  | ['\\'] => bytesOf ['\\']
  | '\\' :: c :: rest =>
    match letterEscape? c with
    | some d => bytesOf [d] ++ unescape rest
    | none =>
      if c = '0' then (octal rest).1 :: unescape (octal rest).2
      else bytesOf ['\\', c] ++ unescape rest
  | c :: rest => bytesOf [c] ++ unescape rest
termination_by s.length
decreasing_by
  · simp only [List.length_cons]; omega
  · have := length_octal rest
    simp only [List.length_cons]; omega
  · simp only [List.length_cons]; omega
  · simp

/-- What `printf` makes of its format, and the arguments that are left. -/
def fill (args : List (List Char)) (s : List Char) : List UInt8 × List (List Char) :=
  match s with
  | [] => ([], args)
  | '\\' :: c :: rest =>
    if isDigitOf 8 c then
      let (out, left) := fill args (octal (c :: rest)).2
      ((octal (c :: rest)).1 :: out, left)
    else
      let (out, left) := fill args rest
      (bytesOf ((letterEscape? c).elim ['\\', c] fun d => [d]) ++ out, left)
  | '%' :: '%' :: rest =>
    let (out, left) := fill args rest
    (bytesOf ['%'] ++ out, left)
  | '%' :: _ :: rest =>
    let (out, left) := fill args.tail rest
    (bytesOf (args.headD []) ++ out, left)
  | c :: rest =>
    let (out, left) := fill args rest
    (bytesOf [c] ++ out, left)
termination_by s.length
decreasing_by
  · rename_i h
    have : 1 ≤ (((c :: rest).take 3).takeWhile (isDigitOf 8)).length := by simp [h]
    simp only [octal, List.length_drop, List.length_cons]
    omega
  all_goals simp only [List.length_cons]; omega

/-- The format is used again as long as arguments are left. -/
def printf (format : List Char) : Nat → List (List Char) → List UInt8
  | 0, _ => []
  | n + 1, args =>
    let (out, left) := fill args format
    if left.isEmpty || left.length = args.length then out else out ++ printf format n left

structure State where
  status : Nat
  output : List UInt8
  errors : List UInt8
  stopped : Bool

def State.write (st : State) (toErrors : Bool) (bytes : List UInt8) : State :=
  if toErrors then { st with status := 0, errors := st.errors ++ bytes }
  else { st with status := 0, output := st.output ++ bytes }

def run (c : Command) (st : State) : State :=
  match c.words.map String.ofList, c.words with
  | "echo" :: "-n" :: _, _ :: _ :: args =>
    st.write c.toErrors (unescape ([' '].intercalate args))
  | "echo" :: _, _ :: args => st.write c.toErrors (unescape ([' '].intercalate args) ++ [10])
  | "printf" :: _, _ :: format :: args =>
    st.write c.toErrors (printf format (args.length + 1) args)
  | "exit" :: _, _ :: args =>
    { st with
      status := (args.head?.bind (numeral? 10)).getD st.status % 256
      stopped := true }
  | "false" :: _, _ => { st with status := 1 }
  | "true" :: _, _ | ":" :: _, _ | "cat" :: _, _ => { st with status := 0 }
  | name :: _, _ =>
    { st with
      status := 127
      errors := st.errors ++ bytesOf ("sh: " ++ toString c.line ++ ": " ++ name ++
        ": not found\n").toList }
  | [], _ => st

def step (st : State) (c : Command) : State :=
  if st.stopped then st
  else
    match c.condition with
    | .always => run c st
    | .success => if st.status = 0 then run c st else st
    | .failure => if st.status = 0 then st else run c st

/-- The state behind the last command. -/
def execute (script : List Char) : State :=
  (commands script).foldl step ⟨0, [], [], false⟩

end GoOutline.Script
