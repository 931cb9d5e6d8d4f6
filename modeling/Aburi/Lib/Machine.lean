import Mathlib.Data.Nat.Notation
import Mathlib.Data.List.Basic

/-!
# Deterministic machines with observable events

A machine steps from state to state and emits events; a state without a step
is final.  Two machines behave alike when they emit the same sequences and
stop with the same outcome.  To show it one relates their states such that
every step of the second machine is answered by one or more steps of the
first: as the first machine is deterministic it has no other behaviour.
-/

namespace Aburi.Lib

open List

structure Machine (State Event : Type) where
  step : State → Option (State × List Event)

namespace Machine

variable {Event Outcome : Type} {State Target Third : Type}

/-- A finite run, with the events it emits. -/
inductive Runs (machine : Machine State Event) :
    ℕ → State → List Event → State → Prop
  | stay (state : State) : Runs machine 0 state [] state
  | step {count : ℕ} {first second last : State} {emitted later : List Event} :
      machine.step first = some (second, emitted) →
      Runs machine count second later last →
      Runs machine (count + 1) first (emitted ++ later) last

/-- The sequence is the beginning of what the machine emits. -/
def Emits (machine : Machine State Event) (state : State)
    (events : List Event) : Prop :=
  ∃ count last later, machine.Runs count state (events ++ later) last

def Stops (machine : Machine State Event) (outcome : State → Outcome) (state : State)
    (events : List Event) (result : Outcome) : Prop :=
  ∃ count last, machine.Runs count state events last ∧ machine.step last = none ∧
    outcome last = result

/-- The same sequences of events, and the same outcomes after them. -/
def SameBehaviour (source : Machine State Event) (sourceOutcome : State → Outcome)
    (start : State) (target : Machine Target Event) (targetOutcome : Target → Outcome)
    (image : Target) : Prop :=
  (∀ events, source.Emits start events ↔ target.Emits image events) ∧
    ∀ events result, source.Stops sourceOutcome start events result ↔
      target.Stops targetOutcome image events result

variable {machine : Machine State Event}

theorem SameBehaviour.refl {outcome : State → Outcome} (state : State) :
    SameBehaviour machine outcome state machine outcome state :=
  ⟨fun _ => Iff.rfl, fun _ _ => Iff.rfl⟩

theorem SameBehaviour.trans {source : Machine State Event}
    {target : Machine Target Event} {third : Machine Third Event}
    {sourceOutcome : State → Outcome} {targetOutcome : Target → Outcome}
    {thirdOutcome : Third → Outcome} {start : State} {image : Target} {last : Third}
    (first : SameBehaviour source sourceOutcome start target targetOutcome image)
    (second : SameBehaviour target targetOutcome image third thirdOutcome last) :
    SameBehaviour source sourceOutcome start third thirdOutcome last :=
  ⟨fun events => (first.1 events).trans (second.1 events),
    fun events result => (first.2 events result).trans (second.2 events result)⟩

variable {events : List Event}

theorem Runs.append {first second third : State} {count more : ℕ} {later : List Event}
    (run : machine.Runs count first events second)
    (continued : machine.Runs more second later third) :
    machine.Runs (count + more) first (events ++ later) third := by
  induction run with
  | stay state => simpa using continued
  | @step count _ _ _ emitted rest stepped _ ih =>
    have run := Runs.step stepped (ih continued)
    rw [append_assoc, Nat.add_right_comm]
    exact run

/-- Of two runs from one state the longer begins with the shorter. -/
theorem Runs.split {count more : ℕ} {start last longer : State} {all : List Event}
    (run : machine.Runs count start events last)
    (whole : machine.Runs (count + more) start all longer) :
    ∃ later, all = events ++ later ∧ machine.Runs more last later longer := by
  induction run generalizing all with
  | stay state =>
    rw [Nat.zero_add] at whole
    exact ⟨all, rfl, whole⟩
  | @step count _ second _ emitted rest stepped _ ih =>
    rw [Nat.add_right_comm] at whole
    cases whole with
    | step otherStep continued =>
      rw [stepped] at otherStep
      cases otherStep
      obtain ⟨later, same, remaining⟩ := ih continued
      exact ⟨later, by rw [same, append_assoc], remaining⟩

theorem Runs.count_le {count longerCount : ℕ} {start last longer : State} {all : List Event}
    (run : machine.Runs count start events last) (final : machine.step last = none)
    (whole : machine.Runs longerCount start all longer) :
    longerCount ≤ count := by
  induction run generalizing longerCount all with
  | stay state =>
    cases whole with
    | stay => exact Nat.le_refl 0
    | step stepped _ =>
      rw [final] at stepped
      cases stepped
  | step stepped _ ih =>
    cases whole with
    | stay => exact Nat.zero_le _
    | step otherStep continued =>
      rw [stepped] at otherStep
      cases otherStep
      exact Nat.succ_le_succ (ih final continued)

theorem progress (machine : Machine State Event) (count : ℕ) (state : State) :
    ∃ length events last, machine.Runs length state events last ∧
      (length = count ∨ machine.step last = none) := by
  induction count generalizing state with
  | zero => exact ⟨0, [], state, .stay state, .inl rfl⟩
  | succ count ih =>
    cases stepped : machine.step state with
    | none => exact ⟨0, [], state, .stay state, .inr stepped⟩
    | some result =>
      obtain ⟨next, emitted⟩ := result
      obtain ⟨length, events, last, run, ends⟩ := ih next
      refine ⟨length + 1, emitted ++ events, last, .step stepped run, ?_⟩
      exact ends.imp (congrArg (· + 1)) id

/-- Every step of the target is answered by at least one step of the source. -/
structure Answers (source : Machine State Event) (sourceOutcome : State → Outcome)
    (target : Machine Target Event) (targetOutcome : Target → Outcome)
    (related : State → Target → Prop) : Prop where
  step : ∀ {state image next emitted}, related state image →
    target.step image = some (next, emitted) →
    ∃ count state', source.Runs (count + 1) state emitted state' ∧ related state' next
  stop : ∀ {state image}, related state image → target.step image = none →
    ∃ count state', source.Runs count state [] state' ∧ source.step state' = none ∧
      sourceOutcome state' = targetOutcome image

/-- Both machines are final with one outcome, or they emit the same and stay
related. -/
def StepsAlike (source : Machine State Event) (sourceOutcome : State → Outcome)
    (target : Machine Target Event) (targetOutcome : Target → Outcome)
    (related : State → Target → Prop) (state : State) (image : Target) : Prop :=
  source.step state = none ∧ target.step image = none ∧ sourceOutcome state = targetOutcome image ∨
    ∃ next next' emitted, source.step state = some (next, emitted) ∧
      target.step image = some (next', emitted) ∧ related next next'

/-- It is enough that the source steps alike after some silent steps. -/
theorem Answers.of_stepsAlike {source : Machine State Event}
    {target : Machine Target Event} {sourceOutcome : State → Outcome}
    {targetOutcome : Target → Outcome} {related : State → Target → Prop}
    (alike : ∀ {state image}, related state image →
      ∃ count middle, source.Runs count state [] middle ∧
        StepsAlike source sourceOutcome target targetOutcome related middle image) :
    Answers source sourceOutcome target targetOutcome related := by
  constructor
  · intro state image next emitted holds stepped
    obtain ⟨count, middle, silent, steps⟩ := alike holds
    rcases steps with ⟨-, final, -⟩ | ⟨after, next', events, moved, moved', kept⟩
    · rw [stepped] at final
      cases final
    · rw [stepped] at moved'
      cases moved'
      have run := silent.append (.step moved (.stay after))
      rw [nil_append, append_nil] at run
      exact ⟨count, after, run, kept⟩
  · intro state image holds final
    obtain ⟨count, middle, silent, steps⟩ := alike holds
    rcases steps with ⟨stuck, -, outcome⟩ | ⟨after, next', events, -, moved', -⟩
    · exact ⟨count, middle, silent, stuck, outcome⟩
    · rw [final] at moved'
      cases moved'

section Answers

variable {source : Machine State Event} {target : Machine Target Event}
  {sourceOutcome : State → Outcome} {targetOutcome : Target → Outcome}
  {related : State → Target → Prop}
  (answers : Answers source sourceOutcome target targetOutcome related)

include answers

theorem Answers.run {count : ℕ} {state : State} {image last : Target} (holds : related state image)
    (run : target.Runs count image events last) :
    ∃ longer state', count ≤ longer ∧ source.Runs longer state events state' ∧
      related state' last := by
  induction run generalizing state with
  | stay image => exact ⟨0, state, Nat.le_refl 0, .stay state, holds⟩
  | step stepped _ ih =>
    obtain ⟨more, middle, answered, related⟩ := answers.step holds stepped
    obtain ⟨longer, state', bounded, continued, last⟩ := ih related
    refine ⟨more + 1 + longer, state', by omega, answered.append continued, last⟩

theorem Answers.sameBehaviour {state : State} {image : Target}
    (holds : related state image) :
    SameBehaviour source sourceOutcome state target targetOutcome image := by
  -- a run of the source, next to a run of the target that is at least as long
  have covered : ∀ {count events last}, source.Runs count state events last →
      ∃ length later targetLast, target.Runs length image (events ++ later) targetLast ∧
        (source.step last = none → later = [] ∧ target.step targetLast = none ∧
          sourceOutcome last = targetOutcome targetLast) := by
    intro count events last run
    obtain ⟨length, emitted, targetLast, targetRun, ends⟩ := target.progress (count + 1) image
    obtain ⟨longer, state', bounded, sourceRun, related⟩ := answers.run holds targetRun
    rcases ends with full | final
    · obtain ⟨extra, rfl⟩ := Nat.exists_eq_add_of_le (show count + 1 ≤ longer by omega)
      rw [Nat.add_assoc] at sourceRun
      obtain ⟨later, same, rest⟩ := run.split sourceRun
      refine ⟨length, later, targetLast, same ▸ targetRun, ?_⟩
      intro sourceFinal
      have short := run.count_le sourceFinal sourceRun
      omega
    · obtain ⟨more, sourceLast, silent, sourceFinal, sameOutcome⟩ := answers.stop related final
      have whole := sourceRun.append silent
      rw [append_nil] at whole
      have short := whole.count_le sourceFinal run
      obtain ⟨extra, same⟩ := Nat.exists_eq_add_of_le short
      rw [same] at whole
      obtain ⟨later, equal, rest⟩ := run.split whole
      refine ⟨length, later, targetLast, equal ▸ targetRun, ?_⟩
      intro lastFinal
      cases rest with
      | stay => exact ⟨rfl, final, sameOutcome⟩
      | step stepped _ =>
        rw [lastFinal] at stepped
        cases stepped
  constructor
  · intro events
    constructor
    · rintro ⟨count, last, later, run⟩
      obtain ⟨length, rest, targetLast, targetRun, -⟩ := covered run
      rw [append_assoc] at targetRun
      exact ⟨length, targetLast, later ++ rest, targetRun⟩
    · rintro ⟨count, last, later, run⟩
      obtain ⟨longer, state', -, sourceRun, -⟩ := answers.run holds run
      exact ⟨longer, state', later, sourceRun⟩
  · intro events result
    constructor
    · rintro ⟨count, last, run, final, sameOutcome⟩
      obtain ⟨length, later, targetLast, targetRun, whenFinal⟩ := covered run
      obtain ⟨none, targetFinal, outcome⟩ := whenFinal final
      rw [none, append_nil] at targetRun
      exact ⟨length, targetLast, targetRun, targetFinal, outcome.symm.trans sameOutcome⟩
    · rintro ⟨count, last, run, final, sameOutcome⟩
      obtain ⟨longer, state', -, sourceRun, related⟩ := answers.run holds run
      obtain ⟨more, sourceLast, silent, sourceFinal, outcome⟩ := answers.stop related final
      have whole := sourceRun.append silent
      rw [append_nil] at whole
      exact ⟨_, sourceLast, whole, sourceFinal, outcome.trans sameOutcome⟩

end Answers

end Machine

end Aburi.Lib
