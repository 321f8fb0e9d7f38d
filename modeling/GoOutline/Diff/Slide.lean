import GoOutline.Diff.Basic

/-!
Sliding insertions along equal lines: an insertion goes up as far as it can, joining others on the
way, and then down as far as it can. A deletion meets its own kind across insertions, but stays
between the kept lines around it.
-/

namespace GoOutline.Diff

/-- A script with one step in focus, the steps before it in reverse. -/
structure Focus where
  before : List Step
  step : Step
  after : List Step

namespace Focus

/-- Kept lines in front of the steps that follow. -/
def pushAfter (keep : Step) : List Step → List Step
  | .keep o n l :: rest => (Step.keep o n l).extendUp keep.length :: rest
  | rest => keep :: rest

/-- Kept lines behind the steps before. -/
def pushBefore (keep : Step) : List Step → List Step
  | .keep o n l :: rest => (Step.keep o n l).extend keep.length :: rest
  | rest => keep :: rest

/-- The bound is on the number of moves. -/
def up (a b : Lines) : Nat → Focus → Focus
  | 0, f => f
  | n + 1, f =>
    match f.before with
    | [] => f
    | .keep o n' l :: rest =>
      let k := agreeingBack a b (o + l) f.step.newStop (min l (f.step.newStop - f.step.new))
      if k = 0 then f
      else
        let kept := Step.keep (o + l - k) (f.step.newStop - k) k
        let before := if l = k then rest else .keep o n' (l - k) :: rest
        up a b n ⟨before, f.step.moveUp k, pushAfter kept f.after⟩
    | s :: rest =>
      if s.isDelete == f.step.isDelete then
        up a b n ⟨rest, s.extend f.step.length, f.after⟩
      else up a b n ⟨rest, f.step, s :: f.after⟩

def down (a b : Lines) : Nat → Focus → Focus
  | 0, f => f
  | n + 1, f =>
    match f.after with
    | [] => f
    | .keep o n' l :: rest =>
      let k := agreeing a b o f.step.new (min l (f.step.newStop - f.step.new))
      if k = 0 then f
      else
        let kept := Step.keep o f.step.new k
        let after := if l = k then rest else (Step.keep o n' l).behead k :: rest
        down a b n ⟨pushBefore kept f.before, f.step.moveDown k, after⟩
    | s :: rest =>
      if s.isDelete == f.step.isDelete then
        down a b n ⟨f.before, f.step.extend s.length, rest⟩
      else down a b n ⟨s :: f.before, f.step, rest⟩

end Focus

/-- Slides the steps of one kind, one after the other. -/
def slideAll (a b : Lines) (pick : Step → Bool) (moves : Nat) :
    Nat → List Step → List Step → List Step
  | 0, before, steps => before.reverse ++ steps
  | _, before, [] => before.reverse
  | n + 1, before, s :: rest =>
    let f : Focus := ⟨before, s, rest⟩
    let f := if pick s then (f.up a b moves).down a b moves else f
    slideAll a b pick moves n (f.step :: f.before) f.after

/-- Gathers deletions, then slides insertions. -/
def slide (a b : Lines) (steps : List Step) : List Step :=
  let moves := 2 * (a.size + b.size + steps.length + 1)
  let steps := slideAll a b Step.isDelete moves moves [] steps
  slideAll a b (fun s => !s.isDelete && !s.isKeep) moves moves [] steps

end GoOutline.Diff
