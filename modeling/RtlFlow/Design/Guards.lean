import RtlFlow.Flow.Reorder

/-!
# Guarded trees

An assignment under conditions is a tree of branches. A guard is a list of conditions, outermost
first, each with the outcome under which the assignment is reached. A further assignment to the
same destination goes into the tree that is there: it follows the branches on the conditions of its
guard as far as they agree, and takes the place of what it finds.
-/

namespace RtlFlow

/-- Conditions, outermost first, with the outcomes that they must have. -/
abbrev Guard := List (Tree × Bool)

/-- Where a guard leads: the subtree, the rest of the guard, the arms taken. -/
structure GuardPlace where
  tree : Tree
  rest : Guard
  arms : List Bool
deriving Inhabited

namespace Tree

def follow : Tree → Guard → Result GuardPlace
  | t, [] => pure ⟨t, [], []⟩
  | .branch cond yes no, (c, b) :: guard => do
    if !(← c.equal cond) then return ⟨.branch cond yes no, (c, b) :: guard, []⟩
    let found ← if b then follow yes guard else follow no guard
    return { found with arms := b :: found.arms }
  | t, guard => pure ⟨t, guard, []⟩

/-- A tree that is reached only under a guard. -/
def underGuard (t : Tree) : Guard → Tree
  | [] => t
  | (c, true) :: guard => .branch c (underGuard t guard) .hole
  | (c, false) :: guard => .branch c .hole (underGuard t guard)

/-- Puts a tree in the place at the end of some arms. -/
def plug (new : Tree) : Tree → List Bool → Result Tree
  | _, [] => pure new
  | .branch cond yes no, true :: arms => do return .branch cond (← plug new yes arms) no
  | .branch cond yes no, false :: arms => do return .branch cond yes (← plug new no arms)
  | _, _ :: _ => throw .noMember

/-- The tree of a destination after one more assignment: `new` where the guard holds, and what was
there elsewhere. -/
def assign (old new : Tree) (guard : Guard) : Result Tree := do
  let place ← old.follow guard
  let added := new.underGuard place.rest
  let added ← match place.rest with
    | [] => pure added
    | (_, b) :: _ => if place.tree.isHole then pure added else plug place.tree added [!b]
  (← plug added old place.arms).reorder

end Tree

end RtlFlow
