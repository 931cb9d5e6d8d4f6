import Mathlib.Data.List.Nodup
import Mathlib.Logic.Function.Basic

/-!
# Parallel moves one after the other

Moves with different destinations, all reading the registers as they were, are
carried out one at a time.  A move whose destination no other move still reads
can go first; otherwise a destination is saved to a fresh register, which the
moves that wait for it read instead.
-/

namespace Aburi.Lib

open List Function

structure RegMove (R : Type) where
  dest : R
  source : R
  deriving DecidableEq

variable {R V : Type} [DecidableEq R]

def RegMove.apply (regs : R → V) (move : RegMove R) : R → V :=
  update regs move.dest (regs move.source)

/-- The registers after all moves at once. -/
def together (moves : List (RegMove R)) (regs : R → V) (reg : R) : V :=
  match moves.find? (fun move => decide (move.dest = reg)) with
  | some move => regs move.source
  | none => regs reg

/-- Reads of `saved` become reads of `temp`. -/
def RegMove.renamed (saved temp : R) (move : RegMove R) : RegMove R :=
  if move.source = saved then { move with source := temp } else move

@[simp] theorem RegMove.renamed_dest (saved temp : R) (move : RegMove R) :
    (move.renamed saved temp).dest = move.dest := by
  rw [RegMove.renamed]
  split <;> rfl

theorem together_of_mem {moves : List (RegMove R)} (distinct : (moves.map RegMove.dest).Nodup)
    (regs : R → V) {move : RegMove R} (member : move ∈ moves) :
    together moves regs move.dest = regs move.source := by
  induction moves with
  | nil => cases member
  | cons first rest ih =>
    rw [map_cons, nodup_cons] at distinct
    rcases mem_cons.mp member with rfl | later
    · simp [together]
    · have differs : first.dest ≠ move.dest := by
        intro same
        exact distinct.1 (same ▸ mem_map_of_mem later)
      have rest := ih distinct.2 later
      simpa [together, find?_cons, differs] using rest

theorem together_of_not_mem {moves : List (RegMove R)} (regs : R → V) {reg : R}
    (outside : reg ∉ moves.map RegMove.dest) : together moves regs reg = regs reg := by
  have none : moves.find? (fun move => decide (move.dest = reg)) = none := by
    rw [find?_eq_none]
    intro move member same
    exact outside (of_decide_eq_true same ▸ mem_map_of_mem member)
  rw [together, none]

/-- The moves still to be made, and the registers of before that hold their
final values. -/
structure Remaining (old : R → Prop) (goal regs : R → V) (pending : List (RegMove R)) : Prop where
  distinct : (pending.map RegMove.dest).Nodup
  destsOld : ∀ move ∈ pending, old move.dest
  sources : ∀ move ∈ pending, regs move.source = goal move.dest
  settled : ∀ reg, old reg → reg ∉ pending.map RegMove.dest → regs reg = goal reg

namespace Remaining

variable {old : R → Prop} {goal regs : R → V} {pending : List (RegMove R)}

theorem start {moves : List (RegMove R)} (distinct : (moves.map RegMove.dest).Nodup)
    (destsOld : ∀ move ∈ moves, old move.dest) (regs : R → V) :
    Remaining old (together moves regs) regs
      (moves.filter (fun move => decide (move.dest ≠ move.source))) := by
  refine ⟨distinct.sublist (filter_sublist.map _), ?_, ?_, ?_⟩
  · intro move member
    exact destsOld move (mem_of_mem_filter member)
  · intro move member
    exact (together_of_mem distinct regs (mem_of_mem_filter member)).symm
  · intro reg isOld outside
    by_cases isDest : reg ∈ moves.map RegMove.dest
    · obtain ⟨move, member, rfl⟩ := List.mem_map.mp isDest
      rw [together_of_mem distinct regs member]
      -- a destination that was left out is moved to itself
      by_contra differs
      apply outside
      refine mem_map_of_mem (mem_filter.mpr ⟨member, decide_eq_true ?_⟩)
      exact fun same => differs (congrArg regs same)
    · exact (together_of_not_mem regs isDest).symm

/-- A move is made whose destination no move still reads. -/
theorem emit {before after : List (RegMove R)} {move : RegMove R}
    (remaining : Remaining old goal regs (before ++ move :: after))
    (unread : ∀ other ∈ before ++ move :: after, other.source ≠ move.dest) :
    Remaining old goal (RegMove.apply regs move) (before ++ after) := by
  obtain ⟨distinct, destsOld, sources, settled⟩ := remaining
  have still : ∀ {other}, other ∈ before ++ after → other ∈ before ++ move :: after := by
    intro other member
    rcases mem_append.mp member with first | last
    · exact mem_append_left _ first
    · exact mem_append_right _ (mem_cons_of_mem _ last)
  rw [map_append, map_cons, nodup_middle, nodup_cons, ← map_append] at distinct
  refine ⟨distinct.2, fun other member => destsOld other (still member), ?_, ?_⟩
  · intro other member
    rw [RegMove.apply, update_of_ne (unread other (still member))]
    exact sources other (still member)
  · intro reg isOld outside
    by_cases isDest : reg = move.dest
    · subst isDest
      rw [RegMove.apply, update_self]
      exact sources move (mem_append_right _ mem_cons_self)
    · rw [RegMove.apply, update_of_ne isDest]
      apply settled reg isOld
      rw [map_append, map_cons]
      rw [map_append] at outside
      simpa [isDest] using outside

/-- The moves that wait for a register read a copy of it instead. -/
theorem detour (remaining : Remaining old goal regs pending) {temp : R} (fresh : ¬ old temp)
    (unread : ∀ move ∈ pending, move.source ≠ temp) (saved : R) :
    Remaining old goal (RegMove.apply regs ⟨temp, saved⟩) (pending.map (RegMove.renamed saved temp)) := by
  obtain ⟨distinct, destsOld, sources, settled⟩ := remaining
  have sameDests : (pending.map (RegMove.renamed saved temp)).map RegMove.dest =
      pending.map RegMove.dest := by
    rw [map_map]
    exact map_congr_left fun move _ => RegMove.renamed_dest saved temp move
  refine ⟨by rwa [sameDests], ?_, ?_, ?_⟩
  · intro other member
    obtain ⟨move, isPending, rfl⟩ := List.mem_map.mp member
    rw [RegMove.renamed_dest]
    exact destsOld move isPending
  · intro other member
    obtain ⟨move, isPending, rfl⟩ := List.mem_map.mp member
    rw [RegMove.renamed_dest, ← sources move isPending, RegMove.renamed]
    split
    case isTrue same => simp [RegMove.apply, same]
    case isFalse => rw [RegMove.apply, update_of_ne (unread move isPending)]
  · intro reg isOld outside
    rw [sameDests] at outside
    have notTemp : reg ≠ temp := by
      rintro rfl
      exact fresh isOld
    rw [RegMove.apply, update_of_ne notTemp]
    exact settled reg isOld outside

omit [DecidableEq R] in
theorem finished (remaining : Remaining old goal regs []) {reg : R} (isOld : old reg) :
    regs reg = goal reg :=
  remaining.settled reg isOld (by simp)

end Remaining

end Aburi.Lib
