import GoOutline.Diff.Basic

/-!
A shortest script, found from both ends at once: two searches go along diagonals until they meet,
and each half is solved in the same way.
-/

namespace GoOutline.Diff

/-- A part of both lists. -/
structure Box where
  old : Nat
  oldStop : Nat
  new : Nat
  newStop : Nat
deriving Repr

def Box.width (b : Box) : Nat := b.oldStop - b.old

def Box.height (b : Box) : Nat := b.newStop - b.new

/-- The furthest point on each diagonal. -/
structure Front where
  middle : Nat
  reach : Array Nat

namespace Front

def ofRadius (n : Nat) : Front := ⟨n, Array.replicate (2 * n + 1) 0⟩

def get (f : Front) (k : Int) : Nat := f.reach.getD (k + f.middle).toNat 0

def set (f : Front) (k : Int) (x : Nat) : Front :=
  { f with reach := f.reach.setIfInBounds (k + f.middle).toNat x }

/-- Where a path of `d` changes on a diagonal starts, coming from a neighbour. -/
def next (f : Front) (d k : Int) : Nat :=
  if k = -d ∨ (k ≠ d ∧ f.get (k - 1) < f.get (k + 1)) then f.get (k + 1) else f.get (k - 1) + 1

end Front

/-- The diagonals that `d` changes can reach, from the outermost down. -/
def diagonals (d : Nat) : List Int := (List.range (d + 1)).map fun (i : Nat) => (d : Int) - 2 * (i : Int)

def Box.skew (b : Box) : Int := (b.width : Int) - b.height

def Box.isOdd (b : Box) : Bool := (b.width + b.height) % 2 == 1

/-- The outcome of a round of search: a point to split at, or the next front. -/
abbrev Round := Except (Nat × Nat) Front

def forward (a b : Lines) (box : Box) (d : Nat) (back : Front) : List Int → Front → Round
  | [], f => .ok f
  | k :: ks, f =>
    let x := f.next d k
    let y := ((x : Int) - k).toNat
    let run :=
      if x < box.width ∧ y < box.height then
        agreeing a b (box.old + x) (box.new + y) (min (box.width - x) (box.height - y))
      else 0
    let f := f.set k (x + run)
    if box.isOdd ∧ (k - box.skew).natAbs + 1 ≤ d ∧
        box.width ≤ f.get k + back.get (-(k - box.skew)) then
      .error (box.old + x, box.new + y)
    else forward a b box d back ks f

def backward (a b : Lines) (box : Box) (d : Nat) (front : Front) : List Int → Front → Round
  | [], f => .ok f
  | k :: ks, f =>
    let x := f.next d k
    let y := ((x : Int) - k).toNat
    let run :=
      if x < box.width ∧ y < box.height then
        agreeingBack a b (box.oldStop - x) (box.newStop - y)
          (min (box.width - x) (box.height - y))
      else 0
    let f := f.set k (x + run)
    if !box.isOdd ∧ (k - box.skew).natAbs ≤ d ∧
        box.width ≤ f.get k + front.get (-(k - box.skew)) then
      .error (box.oldStop - (x + run), box.newStop - (y + run))
    else backward a b box d front ks f

/-- Rounds with more and more changes. -/
def search (a b : Lines) (box : Box) (d : Nat) (front back : Front) : Nat → Option (Nat × Nat)
  | 0 => none
  | n + 1 =>
    match forward a b box d back (diagonals d) front with
    | .error p => some p
    | .ok front =>
      match backward a b box d front (diagonals d) back with
      | .error p => some p
      | .ok back => search a b box (d + 1) front back n

/-- A point that a shortest script goes through. -/
def meeting? (a b : Lines) (box : Box) : Option (Nat × Nat) :=
  let n := (box.width + box.height + 1) / 2 + 1
  search a b box 0 (.ofRadius (n + 1)) (.ofRadius (n + 1)) n

def keepSteps (old new length : Nat) : List Step :=
  if length = 0 then [] else [.keep old new length]

/-- The bound is on how often the box is split. -/
def solve (a b : Lines) (n : Nat) (box : Box) : List Step :=
  let first := agreeing a b box.old box.new (min box.width box.height)
  let rest : Box := { box with old := box.old + first, new := box.new + first }
  let last := agreeingBack a b rest.oldStop rest.newStop (min rest.width rest.height)
  let inner : Box := { rest with oldStop := rest.oldStop - last, newStop := rest.newStop - last }
  let replaced :=
    [.delete inner.old inner.new inner.width, .insert inner.old inner.new inner.height]
  let middle :=
    if inner.width = 0 ∧ inner.height = 0 then []
    else if inner.height = 0 then [.delete inner.old inner.new inner.width]
    else if inner.width = 0 then [.insert inner.old inner.new inner.height]
    else
      match n, meeting? a b inner with
      | n + 1, some (i, j) =>
        solve a b n { inner with oldStop := i, newStop := j } ++
          solve a b n { inner with old := i, new := j }
      | _, _ => replaced
  keepSteps box.old box.new first ++ middle ++ keepSteps inner.oldStop inner.newStop last

def shortest (a b : Lines) : List Step := solve a b (a.size + b.size) ⟨0, a.size, 0, b.size⟩

end GoOutline.Diff
