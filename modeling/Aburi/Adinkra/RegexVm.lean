import Aburi.Adinkra.Regex
import Aburi.Lib.OrderedChoice

/-!
# The backtracking machine as an ordered choice

What `run_vm` answers for a program without back-references and lookaheads, when its
budget lasts, is what its first state comes to.
-/

namespace Aburi.Adinkra.Regex

open List Function

open Lib (Move Comes FirstOf)

/-- How an instruction goes on that has consumed nothing. -/
inductive Follow where
  | waits
  | stops
  | goes (pc : Nat) (write : Captures → Captures)
  | splits (first second : Nat) (loop inverted : Bool)

/-- Both machines go on alike behind an instruction; a thread of `run_nfa` waits at what
consumes or accepts. -/
def Instruction.follow (context : Context) (position pc : Nat) : Instruction → Follow
  | .split first second loop inverted => .splits first second loop inverted
  | .jump target => .goes target id
  | .save slot => .goes (pc + 1) fun captures => captures.set slot (some position)
  | .begin => if !atBegin context position then .stops else .goes (pc + 1) id
  | .end => if !atEnd context position then .stops else .goes (pc + 1) id
  | .wordBoundary inverted =>
    if atWordBoundary context position == inverted then .stops else .goes (pc + 1) id
  | _ => .waits

def Context.follow (context : Context) (position pc : Nat) : Option Follow :=
  (context.codes.getD 0 [])[pc]?.map (Instruction.follow context position pc)

def State.enter (state : State) (loop : Bool) : State :=
  if loop then
    { state with loopPositions := update state.loopPositions state.pc (some state.position) }
  else
    state

/-- Out of a loop that is met again. -/
def loopExit (first second : Nat) (inverted : Bool) : Nat :=
  if inverted then second else first

/-- What a state of `run_vm` does where nothing is consumed. -/
def State.perform (context : Context) (mode : Mode) (state : State) (instruction : Instruction) :
    Move State Captures :=
  match instruction.follow context state.position state.pc with
  | .waits =>
    if instruction = .accept ∧ mode.accepts context state.position = true then
      .succeeds (mode.report state.position state.captures)
    else
      .fails
  | .stops => .fails
  | .goes pc write => .goes { state with pc := pc, captures := write state.captures }
  | .splits first second loop inverted =>
    if loop && state.loopPositions state.pc == some state.position then
      .goes { state with pc := loopExit first second inverted }
    else
      .splits { state.enter loop with pc := first } { state.enter loop with pc := second }

def State.move (context : Context) (mode : Mode) (state : State) : Move State Captures :=
  match (context.codes.getD 0 [])[state.pc]? with
  | none => .fails
  | some instruction =>
    if instructionConsumes context instruction state.position then
      .goes { state with pc := state.pc + 1, position := state.position + 1 }
    else
      state.perform context mode instruction

def WithoutBacktracking (instructions : List Instruction) : Prop :=
  ∀ instruction ∈ instructions,
    (∀ number, instruction ≠ .backreference number) ∧
      ∀ assertion inverted, instruction ≠ .lookahead assertion inverted

def Eligible (context : Context) : Prop :=
  WithoutBacktracking (context.codes.getD 0 [])

variable {context : Context} {mode : Mode}

theorem vmLoop_move (eligible : Eligible context) (gas depth steps : Nat) (active : State)
    (pending : List State) :
    vmLoop context (gas + 1) depth 0 mode steps (active :: pending) =
      if steps + 1 > context.budget then
        (.errorComplexity, steps + 1)
      else
        match active.move context mode with
        | .fails => vmLoop context gas depth 0 mode (steps + 1) pending
        | .succeeds captures => (.matched captures, steps + 1)
        | .goes next => vmLoop context gas depth 0 mode (steps + 1) (next :: pending)
        | .splits first second =>
          vmLoop context gas depth 0 mode (steps + 1) (first :: second :: pending) := by
  rw [vmLoop, State.move]
  cases found : (context.codes.getD 0 [])[active.pc]? with
  | none => rfl
  | some instruction =>
    have member := mem_of_getElem? found
    dsimp only
    cases instructionConsumes context instruction active.position with
    | true => rfl
    | false =>
      simp only [Bool.false_eq_true, if_false]
      congr 1
      cases instruction with
      | backreference number => exact ((eligible _ member).1 number rfl).elim
      | lookahead assertion inverted => exact ((eligible _ member).2 assertion inverted rfl).elim
      | character value | any | characterClass index => rfl
      | jump target | save slot => rfl
      | split first second loop inverted =>
        simp only [State.perform, Instruction.follow]
        split <;> rfl
      | begin | «end» | wordBoundary inverted =>
        simp only [State.perform, Instruction.follow]
        split <;> rfl
      | accept =>
        simp only [State.perform, Instruction.follow, true_and]
        split <;> rfl

/-- What the loop answers is the first success of its states. -/
theorem vmLoop_comes (eligible : Eligible context) (gas depth steps : Nat) (states : List State)
    (ends : (vmLoop context gas depth 0 mode steps states).1 ≠ .errorComplexity) :
    ∃ result, FirstOf (Comes (State.move context mode)) states result ∧
      (vmLoop context gas depth 0 mode steps states).1 = finish result := by
  induction gas generalizing steps states with
  | zero => exact (ends rfl).elim
  | succ gas ih =>
    cases states with
    | nil => exact ⟨none, .nil, rfl⟩
    | cons active pending =>
      rw [vmLoop_move eligible] at ends ⊢
      split
      case isTrue spent => simp only [if_pos spent, ne_eq, not_true] at ends
      case isFalse within =>
        rw [if_neg within] at ends
        cases moved : active.move context mode with
        | fails =>
          rw [moved] at ends
          obtain ⟨result, whole, answer⟩ := ih _ _ ends
          exact ⟨result, .later (.fails moved) whole, answer⟩
        | succeeds captures => exact ⟨some captures, .here (.succeeds moved), rfl⟩
        | goes next =>
          rw [moved] at ends
          obtain ⟨result, whole, answer⟩ := ih _ _ ends
          exact ⟨result, whole.goes moved, answer⟩
        | splits first second =>
          rw [moved] at ends
          obtain ⟨result, whole, answer⟩ := ih _ _ ends
          exact ⟨result, whole.splits moved, answer⟩

theorem runVm_comes (eligible : Eligible context) (captures : Captures) (steps : Nat)
    (ends : (runVm context mode captures steps).1 ≠ .errorComplexity) :
    ∃ result, Comes (State.move context mode) (State.initial mode.start captures) result ∧
      (runVm context mode captures steps).1 = finish result := by
  obtain ⟨result, whole, answer⟩ := vmLoop_comes eligible _ _ _ _ ends
  refine ⟨result, ?_, answer⟩
  cases whole with
  | here comes => exact comes
  | later fails rest =>
    cases rest
    exact fails

section Steps

variable {state : State}

theorem State.move_outside (outside : context.follow state.position state.pc = none) :
    state.move context mode = .fails := by
  rw [State.move, Option.map_eq_none_iff.1 outside]

theorem instructionConsumes_eq_false {instruction : Instruction} {position pc : Nat}
    (goes : instruction.follow context position pc ≠ .waits) :
    instructionConsumes context instruction position = false := by
  cases instruction with
  | character value | any | characterClass index => exact (goes rfl).elim
  | _ =>
    unfold instructionConsumes
    split <;> trivial

theorem State.move_follow {follow : Follow}
    (found : context.follow state.position state.pc = some follow) (goes : follow ≠ .waits) :
    state.move context mode =
      match follow with
      | .waits | .stops => .fails
      | .goes pc write => .goes { state with pc := pc, captures := write state.captures }
      | .splits first second loop inverted =>
        if loop && state.loopPositions state.pc == some state.position then
          .goes { state with pc := loopExit first second inverted }
        else
          .splits { state.enter loop with pc := first } { state.enter loop with pc := second } := by
  obtain ⟨instruction, here, follows⟩ := Option.map_eq_some_iff.1 found
  rw [State.move, here]
  dsimp only
  rw [instructionConsumes_eq_false (follows ▸ goes), if_neg Bool.false_ne_true, State.perform, follows]
  cases follow with
  | waits => exact (goes rfl).elim
  | stops | goes pc write | splits first second loop inverted => rfl

end Steps

end Aburi.Adinkra.Regex
