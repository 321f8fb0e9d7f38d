import GoOutline.Disk
import GoOutline.Table

/-!
Finding the package behind an import path.
-/

namespace GoOutline

structure Package where
  dir : String
  name : String
deriving DecidableEq, Repr

inductive PackageError where
  | unresolved (reason : String)
  | unreadable (cause : ReadError)
deriving DecidableEq, Repr

/-- The cause of a failure in one line. -/
def PackageError.reason : PackageError → String
  | .unresolved reason => reason
  | .unreadable cause => "IO error: " ++ cause.message

/-- Answers import paths. -/
abbrev Finder := String → Except PackageError Package

namespace Package

/-- Finds the packages of a fixed table. -/
def findInTable (table : Table Package) : Finder := fun path =>
  match table.get? path with
  | some p => .ok p
  | none => .error (.unresolved "not in import table")

/-- The answers given so far. -/
structure Memo where
  answers : List (String × Except String Package)

namespace Memo

def empty : Memo := ⟨[]⟩

def get? (m : Memo) (path : String) : Option (Except String Package) := m.answers.lookup path

/-- Asks for what has not been asked before. Of a failure only the reason is kept. -/
def ask (m : Memo) (find : Finder) (path : String) : Memo :=
  match m.get? path with
  | some _ => m
  | none => ⟨m.answers ++ [(path, (find path).mapError PackageError.reason)]⟩

def askAll (m : Memo) (find : Finder) (paths : List String) : Memo :=
  paths.foldl (fun m path => m.ask find path) m

/-- Gives the answers in the memo. -/
def find (m : Memo) : Finder := fun path =>
  match m.get? path with
  | some (.ok p) => .ok p
  | some (.error reason) => .error (.unresolved reason)
  | none => .error (.unresolved "not asked for")

end Memo

end Package

end GoOutline
