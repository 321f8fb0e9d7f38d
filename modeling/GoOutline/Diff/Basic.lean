/-!
Scripts that turn one list of lines into another.
-/

namespace GoOutline.Diff

abbrev Lines := Array (List Char)

/-- A piece of a script. Each starts at a line of both lists. -/
inductive Step where
  | keep (old new length : Nat)
  | delete (old new length : Nat)
  | insert (old new length : Nat)
deriving DecidableEq, Repr, Inhabited

namespace Step

def old : Step → Nat
  | keep o _ _ | delete o _ _ | insert o _ _ => o

def new : Step → Nat
  | keep _ n _ | delete _ n _ | insert _ n _ => n

def length : Step → Nat
  | keep _ _ l | delete _ _ l | insert _ _ l => l

def isKeep : Step → Bool
  | keep .. => true
  | _ => false

def isDelete : Step → Bool
  | delete .. => true
  | _ => false

/-- The line behind the step in the old list. -/
def oldStop : Step → Nat
  | keep o _ l | delete o _ l => o + l
  | insert o _ _ => o

/-- The line behind the step in the new list. -/
def newStop : Step → Nat
  | keep _ n l | insert _ n l => n + l
  | delete _ n _ => n

/-- The same kind of step elsewhere. -/
def withPlace (old new length : Nat) : Step → Step
  | keep .. => keep old new length
  | delete .. => delete old new length
  | insert .. => insert old new length

/-- Without lines at the start. -/
def behead (n : Nat) (s : Step) : Step := s.withPlace (s.old + n) (s.new + n) (s.length - n)

def moveUp (n : Nat) (s : Step) : Step := s.withPlace (s.old - n) (s.new - n) s.length

def moveDown (n : Nat) (s : Step) : Step := s.withPlace (s.old + n) (s.new + n) s.length

/-- With more lines at the end. -/
def extend (n : Nat) (s : Step) : Step := s.withPlace s.old s.new (s.length + n)

/-- With more lines at the start. -/
def extendUp (n : Nat) (s : Step) : Step := s.withPlace (s.old - n) (s.new - n) (s.length + n)

end Step

/-- How many lines agree from two places on, up to a limit. -/
def agreeing (a b : Lines) (i j : Nat) : Nat → Nat
  | 0 => 0
  | n + 1 => if a[i]? == b[j]? then agreeing a b (i + 1) (j + 1) n + 1 else 0

/-- How many lines agree in front of two places, up to a limit. -/
def agreeingBack (a b : Lines) (i j : Nat) : Nat → Nat
  | 0 => 0
  | n + 1 => if a[i - 1]? == b[j - 1]? then agreeingBack a b (i - 1) (j - 1) n + 1 else 0

end GoOutline.Diff
