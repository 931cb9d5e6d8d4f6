import Aburi.Air.Function

/-!
# The dominator tree

The iterative computation of immediate dominators over a reverse postorder.
Every loop of the source carries fuel, and `none` means that it ran out.
-/

namespace Aburi.Air

/-- The blocks that the terminator of a block can transfer to. -/
def Function.successorBlocks (f : Function) (block : BlockId) : List BlockId :=
  match f.lastInst? block with
  | none => []
  | some last =>
    if (f.inst last).op.isTerminator then
      (f.successors last).map fun call => (f.blockCall call).target
    else []

structure DominatorTree where
  rpo : List BlockId
  idomTable : BlockId → BlockId
  entry : BlockId

namespace DominatorTree

/-- Depth-first search with an explicit stack.  An entry of the stack is a
block with the successors it has not looked at yet; a finished block goes in
front of the blocks that finished before it. -/
def search (f : Function) :
    ℕ → List BlockId → List (BlockId × List BlockId) → List BlockId → Option (List BlockId)
  | 0, _, _, _ => none
  | _ + 1, _, [], rpo => some rpo
  | fuel + 1, visited, (block, []) :: stack, rpo =>
    search f fuel visited stack (block :: rpo)
  | fuel + 1, visited, (block, succ :: rest) :: stack, rpo =>
    if succ ∈ visited then
      search f fuel visited ((block, rest) :: stack) rpo
    else
      search f fuel (succ :: visited) ((succ, f.successorBlocks succ) :: (block, rest) :: stack) rpo

def rpoOf (f : Function) (fuel : ℕ) : Option (List BlockId) :=
  search f fuel [f.entryBlock] [(f.entryBlock, f.successorBlocks f.entryBlock)] []

/-- Whether a block comes after another in reverse postorder.  The source
gives blocks that it did not reach the largest index. -/
def comesAfter (rpo : List BlockId) (block bound : BlockId) : Bool :=
  match rpo.idxOf? block, rpo.idxOf? bound with
  | some index, some boundIndex => decide (boundIndex < index)
  | none, some _ => true
  | _, none => false

/-- One entry for each edge, in the order in which the walk over the reverse
postorder meets them. -/
def predecessors (f : Function) (rpo : List BlockId) (block : BlockId) :
    List BlockId :=
  rpo.flatMap fun pred =>
    (f.successorBlocks pred).filterMap fun succ =>
      if succ = block then some pred else none

/-- Follows immediate dominators while the block comes after `bound`. -/
def climb (rpo : List BlockId) (idom : BlockId → BlockId) :
    ℕ → BlockId → BlockId → Option BlockId
  | 0, _, _ => none
  | fuel + 1, block, bound =>
    if comesAfter rpo block bound then
      climb rpo idom fuel (idom block) bound
    else some block

def intersect (rpo : List BlockId) (idom : BlockId → BlockId) :
    ℕ → BlockId → BlockId → Option BlockId
  | 0, _, _ => none
  | fuel + 1, a, b =>
    if a = b then some a
    else do
      let a' ← climb rpo idom fuel a b
      let b' ← climb rpo idom fuel b a'
      intersect rpo idom fuel a' b'

/-- The common dominator of the predecessors that have one already. -/
def newIdom (rpo : List BlockId) (idom : BlockId → BlockId) (fuel : ℕ)
    (preds : List BlockId) : Option BlockId :=
  preds.foldlM (fun found pred =>
    if idom pred = 0 then some found
    else if found ≠ 0 then intersect rpo idom fuel found pred
    else some pred) 0

/-- One round over the reverse postorder, with the flag that tells whether an
entry of the table changed. -/
def round (f : Function) (rpo : List BlockId) (fuel : ℕ) :
    List BlockId → (BlockId → BlockId) → Bool → Option ((BlockId → BlockId) × Bool)
  | [], idom, changed => some (idom, changed)
  | block :: rest, idom, changed =>
    if block = f.entryBlock then round f rpo fuel rest idom changed
    else do
      let found ← newIdom rpo idom fuel (predecessors f rpo block)
      if idom block ≠ found then
        round f rpo fuel rest (Function.update idom block found) true
      else round f rpo fuel rest idom changed

def fixpoint (f : Function) (rpo : List BlockId) (fuel : ℕ) :
    ℕ → (BlockId → BlockId) → Option (BlockId → BlockId)
  | 0, _ => none
  | rounds + 1, idom => do
      let (next, changed) ← round f rpo fuel rpo idom false
      if changed then fixpoint f rpo fuel rounds next else some next

def compute (fuel : ℕ) (f : Function) : Option DominatorTree :=
  if f.isDeclaration then some ⟨[], fun _ => 0, 0⟩
  else do
    let rpo ← rpoOf f fuel
    let idom ← fixpoint f rpo fuel fuel
      (Function.update (fun _ => 0) f.entryBlock f.entryBlock)
    some ⟨rpo, idom, f.entryBlock⟩

def reachable (tree : DominatorTree) (block : BlockId) : Bool :=
  tree.rpo.contains block

def idom (tree : DominatorTree) (block : BlockId) : BlockId :=
  if !tree.reachable block || block == tree.entry then 0
  else tree.idomTable block

def dominates (tree : DominatorTree) (fuel : ℕ) (a b : BlockId) : Option Bool :=
  if !tree.reachable a || !tree.reachable b then some false
  else do
    let top ← climb tree.rpo tree.idomTable fuel b a
    some (a == top)

end DominatorTree

end Aburi.Air
