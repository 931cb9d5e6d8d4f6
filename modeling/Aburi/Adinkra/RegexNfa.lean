import Aburi.Adinkra.RegexVm

/-!
# The lockstep machine as an ordered choice

`add_nfa_thread` drops a thread at an instruction that was visited for an earlier one.
Where all ways of that instruction have been added this is right: the earlier threads
try them, and whether they match depends neither on the captures nor on the loops that
were entered elsewhere.  At the head of a loop that is still being added the thread
leaves the loop, as `run_vm` does.  Everywhere else a way is lost.
-/

namespace Aburi.Adinkra.Regex

open List Function

open Lib (Move Comes FirstOf)

def Threads.visit (target : Threads) (pc : Nat) : Threads :=
  { target with visited := update target.visited pc true }

theorem Threads.visit_of_ne (target : Threads) {pc other : Nat} (differs : other ≠ pc) :
    (target.visit pc).visited other = target.visited other :=
  update_of_ne differs ..

section

variable (context : Context)

/-- Whether `add_nfa_thread` drops no thread at an instruction of which some way is still
to be added. -/
def addsApart (position : Nat) : Nat → Nat → List Nat → Threads → Thread → Bool
  | 0, _, _, _, _ => true
  | gas + 1, steps, unfinished, target, active =>
    match context.follow position active.pc, target.visited active.pc with
    | some (.splits first second true inverted), true =>
      addsApart position gas (steps + 1) unfinished target
        { active with pc := loopExit first second inverted }
    | some _, true => !unfinished.contains active.pc
    | some (.goes pc write), false =>
      addsApart position gas (steps + 1) (active.pc :: unfinished) (target.visit active.pc)
        ⟨pc, write active.captures⟩
    | some (.splits first second _ _), false =>
      addsApart position gas (steps + 1) (active.pc :: unfinished) (target.visit active.pc)
          { active with pc := first } &&
        match addNfaThread context position gas (steps + 1) (target.visit active.pc)
            { active with pc := first } with
        | none => true
        | some (target, steps) =>
          addsApart position gas steps (active.pc :: unfinished) target
            { active with pc := second }
    | _, _ => true

def advancesApart (position gas : Nat) : Nat → Threads → List Thread → Bool
  | _, _, [] => true
  | steps, next, thread :: rest =>
    match (context.codes.getD 0 [])[thread.pc]? with
    | none => advancesApart position gas steps next rest
    | some instruction =>
      if instructionConsumes context instruction position then
        addsApart context (position + 1) gas steps [] next { thread with pc := thread.pc + 1 } &&
          match addNfaThread context (position + 1) gas steps next
              { thread with pc := thread.pc + 1 } with
          | none => true
          | some (next, steps) => advancesApart position gas steps next rest
      else
        advancesApart position gas steps next rest

def loopApart (mode : Mode) (gas : Nat) : Nat → Nat → List Thread → Nat → Bool
  | 0, _, _, _ => true
  | remaining + 1, position, active, steps =>
    let (before, _) := scanThreads context mode position active
    advancesApart context position gas steps ⟨[], fun _ => false⟩ before &&
      match advanceThreads context position gas steps ⟨[], fun _ => false⟩ before with
      | none => true
      | some (next, steps) => loopApart mode gas remaining (position + 1) next.threads steps

/-- No thread of `run_nfa` is dropped at an instruction of which some way is still to be
added for the same position. -/
def dropsNoUnfinished (mode : Mode) (captures : Captures) (steps : Nat) : Bool :=
  addsApart context mode.start (context.budget + 2) steps [] ⟨[], fun _ => false⟩ ⟨0, captures⟩ &&
    match addNfaThread context mode.start (context.budget + 2) steps ⟨[], fun _ => false⟩
        ⟨0, captures⟩ with
    | none => true
    | some (initial, steps) =>
      loopApart context mode (context.budget + 2) (context.input.length - mode.start) mode.start
        initial.threads steps

end

variable {context : Context} {mode : Mode}

theorem addNfaThread_succ (position gas steps : Nat) (target : Threads) (active : Thread) :
    addNfaThread context position (gas + 1) steps target active =
      if steps + 1 > context.budget then
        none
      else
        match context.follow position active.pc, target.visited active.pc with
        | none, _ => some (target, steps + 1)
        | some (.splits first second true inverted), true =>
          addNfaThread context position gas (steps + 1) target
            { active with pc := loopExit first second inverted }
        | some _, true => some (target, steps + 1)
        | some .waits, false =>
          some ({ target.visit active.pc with threads := target.threads ++ [active] }, steps + 1)
        | some .stops, false => some (target.visit active.pc, steps + 1)
        | some (.goes pc write), false =>
          addNfaThread context position gas (steps + 1) (target.visit active.pc)
            ⟨pc, write active.captures⟩
        | some (.splits first second _ _), false =>
          match addNfaThread context position gas (steps + 1) (target.visit active.pc)
              { active with pc := first } with
          | none => none
          | some (target, steps) =>
            addNfaThread context position gas steps target { active with pc := second } := by
  rw [addNfaThread, Context.follow]
  congr 1
  cases (context.codes.getD 0 [])[active.pc]? with
  | none => rfl
  | some instruction =>
    dsimp only [Option.map_some]
    cases target.visited active.pc <;> cases instruction with
    | split first second loop inverted => cases loop <;> rfl
    | begin =>
      dsimp only [Instruction.follow]
      cases atBegin context position <;> rfl
    | «end» =>
      dsimp only [Instruction.follow]
      cases atEnd context position <;> rfl
    | wordBoundary inverted =>
      dsimp only [Instruction.follow]
      cases atWordBoundary context position == inverted <;> rfl
    | _ => rfl

def Bounded (position : Nat) (memory : Nat → Option Nat) : Prop :=
  ∀ loop last, memory loop = some last → last ≤ position

/-- The two states differ at most in their captures and in what they remember of other
positions. -/
structure SameWay (one other : State) : Prop where
  pc : one.pc = other.pc
  position : one.position = other.position
  bounded : Bounded one.position one.loopPositions
  bounded' : Bounded one.position other.loopPositions
  agree : ∀ loop, one.loopPositions loop = some one.position ↔
    other.loopPositions loop = some one.position

theorem Bounded.enter {position : Nat} {memory : Nat → Option Nat} (bounded : Bounded position memory)
    (pc : Nat) : Bounded position (update memory pc (some position)) := by
  intro loop last remembered
  by_cases same : loop = pc
  · subst same
    rw [update_self] at remembered
    exact Nat.le_of_eq (Option.some.inj remembered).symm
  · rw [update_of_ne same] at remembered
    exact bounded loop last remembered

/-- States at one place move alike; where a thread waits, no loop is looked up. -/
theorem State.move_alike {pc position : Nat} {captures captures' : Captures}
    {memory memory' : Nat → Option Nat} (bounded : Bounded position memory)
    (bounded' : Bounded position memory')
    (agree : context.follow position pc = some .waits ∨
      ∀ loop, memory loop = some position ↔ memory' loop = some position) :
    (State.move context mode ⟨pc, position, captures, memory⟩).Alike SameWay
      (State.move context mode ⟨pc, position, captures', memory'⟩) := by
  have next : ∀ pc captures captures',
      SameWay ⟨pc, position + 1, captures, memory⟩ ⟨pc, position + 1, captures', memory'⟩ := by
    intro pc captures captures'
    refine ⟨rfl, rfl, fun _ _ here => Nat.le_succ_of_le (bounded _ _ here),
      fun _ _ here => Nat.le_succ_of_le (bounded' _ _ here), fun loop => ⟨fun here => ?_, fun here => ?_⟩⟩
    · exact (Nat.not_succ_le_self _ (bounded _ _ here)).elim
    · exact (Nat.not_succ_le_self _ (bounded' _ _ here)).elim
  cases found : (context.codes.getD 0 [])[pc]? with
  | none =>
    simp only [State.move, found]
    exact .fails
  | some instruction =>
    simp only [State.move, found]
    split
    · exact .goes (next _ _ _)
    · simp only [Context.follow, found, Option.map_some, Option.some.injEq] at agree
      simp only [State.perform]
      cases follow : instruction.follow context position pc with
      | waits =>
        dsimp only
        split
        · exact .succeeds
        · exact .fails
      | stops => exact .fails
      | goes target write =>
        rcases agree with absurd | agree
        · cases follow.symm.trans absurd
        · exact .goes ⟨rfl, rfl, bounded, bounded', agree⟩
      | splits first second loop inverted =>
        rcases agree with absurd | agree
        · cases follow.symm.trans absurd
        dsimp only
        have same : (memory pc == some position) = (memory' pc == some position) := by
          rw [Bool.eq_iff_iff, beq_iff_eq, beq_iff_eq]
          exact agree pc
        rw [same]
        split
        · exact .goes ⟨rfl, rfl, bounded, bounded', agree⟩
        · cases loop with
          | false => exact .splits ⟨rfl, rfl, bounded, bounded', agree⟩ ⟨rfl, rfl, bounded, bounded', agree⟩
          | true =>
            have entered : ∀ loop, update memory pc (some position) loop = some position ↔
                update memory' pc (some position) loop = some position := by
              intro loop
              by_cases here : loop = pc
              · subst here
                rw [update_self, update_self]
              · rw [update_of_ne here, update_of_ne here]
                exact agree loop
            exact .splits ⟨rfl, rfl, bounded.enter pc, bounded'.enter pc, entered⟩
              ⟨rfl, rfl, bounded.enter pc, bounded'.enter pc, entered⟩

/-- What a waiting thread comes to: the loops it has met no longer matter. -/
def Thread.Comes (context : Context) (mode : Mode) (position : Nat) (thread : Thread)
    (result : Option Captures) : Prop :=
  ∃ memory, Bounded position memory ∧
    Lib.Comes (State.move context mode) ⟨thread.pc, position, thread.captures, memory⟩ result

/-- Where one waiting thread fails, no state at its instruction succeeds. -/
theorem Thread.Comes.fails_again {position : Nat} {thread : Thread} {captures : Captures}
    {memory : Nat → Option Nat} {result : Option Captures}
    (fails : thread.Comes context mode position none)
    (waits : context.follow position thread.pc = some .waits) (bounded : Bounded position memory)
    (comes : Lib.Comes (State.move context mode) ⟨thread.pc, position, captures, memory⟩ result) :
    result = none := by
  obtain ⟨memory', bounded', fails⟩ := fails
  apply Lib.Comes.fails_of_alike _ (State.move_alike bounded' bounded (.inl waits)) fails comes
  rintro ⟨pc, position, captures, memory⟩ ⟨_, _, captures', memory'⟩ same
  obtain ⟨rfl, rfl, bounded, bounded', agree⟩ := same
  exact State.move_alike bounded bounded' (.inr agree)

def Follow.targets : Follow → List Nat
  | .goes pc _ => [pc]
  | .splits first second _ _ => [first, second]
  | _ => []

/-- Everything from this instruction on is visited: its ways have been added, or it is the
head of a loop that is still being added and its exit is reached. -/
inductive Reached (context : Context) (position : Nat) (visited : Nat → Bool)
    (unfinished : List Nat) : Nat → Prop where
  | outside {pc : Nat} : context.follow position pc = none →
      Reached context position visited unfinished pc
  | finished {pc : Nat} : visited pc = true → pc ∉ unfinished →
      Reached context position visited unfinished pc
  | again {pc first second : Nat} {inverted : Bool} : pc ∈ unfinished → visited pc = true →
      context.follow position pc = some (.splits first second true inverted) →
      Reached context position visited unfinished (loopExit first second inverted) →
      Reached context position visited unfinished pc

/-- The visited instructions are closed under their ways, but for those whose ways are
still being added. -/
structure Closed (context : Context) (position : Nat) (unfinished : List Nat)
    (target : Threads) : Prop where
  seen : ∀ pc ∈ unfinished, target.visited pc = true
  waits : ∀ thread ∈ target.threads, context.follow position thread.pc = some .waits
  threads : ∀ pc, target.visited pc = true → context.follow position pc = some .waits →
    ∃ thread ∈ target.threads, thread.pc = pc
  ways : ∀ pc follow, target.visited pc = true → pc ∉ unfinished →
    context.follow position pc = some follow →
    ∀ way ∈ follow.targets, Reached context position target.visited unfinished way

section

variable {position pc other : Nat} {unfinished : List Nat} {visited more : Nat → Bool}
  {target next : Threads}

namespace Reached

theorem mono (reached : Reached context position visited unfinished pc)
    (grows : ∀ pc, visited pc = true → more pc = true) :
    Reached context position more unfinished pc := by
  induction reached with
  | outside none => exact .outside none
  | finished here done => exact .finished (grows _ here) done
  | again member here head _ ih => exact .again member (grows _ here) head ih

theorem push (reached : Reached context position visited unfinished pc)
    (fresh : visited other = false) :
    Reached context position (update visited other true) (other :: unfinished) pc := by
  have grows : ∀ pc, visited pc = true → pc ≠ other ∧ update visited other true pc = true := by
    intro pc here
    have differs : pc ≠ other := by
      rintro rfl
      exact Bool.false_ne_true (fresh.symm.trans here)
    exact ⟨differs, by rwa [update_of_ne differs]⟩
  induction reached with
  | outside none => exact .outside none
  | finished here done =>
    obtain ⟨differs, visited⟩ := grows _ here
    apply Reached.finished visited
    rw [mem_cons, not_or]
    exact ⟨differs, done⟩
  | again member here head _ ih => exact .again (mem_cons_of_mem _ member) (grows _ here).2 head ih

theorem pop (reached : Reached context position visited (other :: unfinished) pc) :
    Reached context position visited unfinished pc := by
  induction reached with
  | outside none => exact .outside none
  | finished here done => exact .finished here fun member => done (mem_cons_of_mem _ member)
  | @again pc _ _ _ member here head _ ih =>
    by_cases still : pc ∈ unfinished
    · exact .again still here head ih
    · exact .finished here still

end Reached

namespace Closed

theorem empty : Closed context position [] ⟨[], fun _ => false⟩ where
  seen := nofun
  waits := nofun
  threads _ visited := nomatch visited
  ways _ _ visited := nomatch visited

theorem open_ (closed : Closed context position unfinished target)
    (fresh : target.visited pc = false) (goes : context.follow position pc ≠ some .waits) :
    Closed context position (pc :: unfinished) (target.visit pc) := by
  have before : ∀ other, (target.visit pc).visited other = true → other ≠ pc →
      target.visited other = true := by
    intro other visited differs
    exact (target.visit_of_ne differs).symm.trans visited
  refine ⟨?_, closed.waits, ?_, ?_⟩
  · intro other member
    by_cases same : other = pc
    · exact same ▸ update_self ..
    · rw [target.visit_of_ne same]
      exact closed.seen other ((mem_cons.1 member).resolve_left same)
  · intro other visited waits
    apply closed.threads other _ waits
    apply before other visited
    rintro rfl
    exact goes waits
  · intro other follow visited done here way member
    rw [mem_cons, not_or] at done
    exact (closed.ways other follow (before other visited done.1) done.2 here way member).push fresh

theorem finish (closed : Closed context position (pc :: unfinished) next)
    (ways : ∀ follow, context.follow position pc = some follow →
      ∀ way ∈ follow.targets, Reached context position next.visited (pc :: unfinished) way) :
    Closed context position unfinished next where
  seen other member := closed.seen other (mem_cons_of_mem _ member)
  waits := closed.waits
  threads := closed.threads
  ways other follow visited done here way member := by
    apply Reached.pop
    by_cases same : other = pc
    · exact ways follow (same ▸ here) way member
    · apply closed.ways other follow visited _ here way member
      rw [mem_cons, not_or]
      exact ⟨same, done⟩

end Closed

theorem addNfaThread_unchanged (closed : Closed context position unfinished target)
    {gas steps later : Nat} {active : Thread}
    (reached : Reached context position target.visited unfinished active.pc)
    (added : addNfaThread context position gas steps target active = some (next, later)) :
    next = target := by
  induction gas generalizing steps active with
  | zero => exact nomatch added
  | succ gas ih =>
    rw [addNfaThread_succ] at added
    split at added
    · exact nomatch added
    cases reached with
    | outside none =>
      rw [none] at added
      cases added
      rfl
    | finished visited done =>
      rw [visited] at added
      cases found : context.follow position active.pc with
      | none =>
        rw [found] at added
        cases added
        rfl
      | some follow =>
        rw [found] at added
        have exits := closed.ways _ _ visited done found
        cases follow with
        | splits first second loop inverted =>
          cases loop with
          | true =>
            apply ih _ added
            apply exits
            cases inverted with
            | true => exact mem_cons_of_mem _ (mem_singleton_self _)
            | false => exact mem_cons_self ..
          | false =>
            cases added
            rfl
        | waits | stops | goes pc write =>
          cases added
          rfl
    | again member visited head exit =>
      rw [visited, head] at added
      exact ih exit added

end

/-- What a state of `run_vm` remembers while a thread is added: the loops being added
were met here. -/
structure Keeps (context : Context) (position : Nat) (unfinished : List Nat)
    (memory : Nat → Option Nat) : Prop where
  bounded : Bounded position memory
  heads : ∀ loop ∈ unfinished, ∀ first second inverted,
    context.follow position loop = some (.splits first second true inverted) →
    memory loop = some position

/-- And no other loop was. -/
structure Remembers (context : Context) (position : Nat) (unfinished : List Nat)
    (memory : Nat → Option Nat) : Prop extends Keeps context position unfinished memory where
  only : ∀ loop, memory loop = some position → loop ∈ unfinished

/-- A state of `run_vm` at an instruction that is reached. -/
structure Stays (context : Context) (position : Nat) (unfinished : List Nat) (target : Threads)
    (state : State) : Prop where
  here : state.position = position
  reached : Reached context position target.visited unfinished state.pc
  keeps : Keeps context position unfinished state.loopPositions

section

variable {position : Nat} {unfinished : List Nat} {target next : Threads} {state : State}

theorem Keeps.enter {memory : Nat → Option Nat} (keeps : Keeps context position unfinished memory)
    (pc : Nat) : Keeps context position unfinished (update memory pc (some position)) where
  bounded := keeps.bounded.enter pc
  heads loop member first second inverted head := by
    by_cases same : loop = pc
    · exact same ▸ update_self ..
    · rw [update_of_ne same]
      exact keeps.heads loop member first second inverted head

namespace Remembers

variable {pc : Nat}

theorem fresh {memory : Nat → Option Nat} (bounded : Bounded position memory) :
    Remembers context (position + 1) [] memory where
  bounded loop last here := Nat.le_succ_of_le (bounded loop last here)
  heads := nofun
  only loop here := (Nat.not_succ_le_self _ (bounded loop _ here)).elim

variable (remembers : Remembers context position unfinished state.loopPositions)
include remembers

theorem pass {follow : Follow} (found : context.follow position pc = some follow)
    (other : ∀ first second inverted, follow ≠ .splits first second true inverted) :
    Remembers context position (pc :: unfinished) state.loopPositions where
  bounded := remembers.bounded
  heads loop member first second inverted head := by
    rcases mem_cons.1 member with rfl | member
    · exact (other _ _ _ (Option.some.inj (found.symm.trans head))).elim
    · exact remembers.heads loop member first second inverted head
  only loop here := mem_cons_of_mem _ (remembers.only loop here)

/-- A split is opened, and entered if it is a loop. -/
theorem enter {first second : Nat} {loop inverted : Bool} (here : state.position = position)
    (found : context.follow position state.pc = some (.splits first second loop inverted)) :
    Remembers context position (state.pc :: unfinished) (state.enter loop).loopPositions := by
  cases loop with
  | false => exact remembers.pass found nofun
  | true =>
    subst here
    refine ⟨⟨remembers.bounded.enter state.pc, ?_⟩, ?_⟩
    · intro loop member first second inverted head
      by_cases same : loop = state.pc
      · exact same ▸ update_self ..
      · simp only [State.enter, if_true]
        rw [update_of_ne same]
        exact remembers.heads loop ((mem_cons.1 member).resolve_left same) _ _ _ head
    · intro loop met
      by_cases same : loop = state.pc
      · exact same ▸ mem_cons_self ..
      · simp only [State.enter, if_true] at met
        rw [update_of_ne same] at met
        exact mem_cons_of_mem _ (remembers.only loop met)

end Remembers

theorem State.enter_position (state : State) (loop : Bool) :
    (state.enter loop).position = state.position := by
  cases loop <;> rfl

theorem Stays.step (stays : Stays context position unfinished target state)
    (closed : Closed context position unfinished target) :
    (context.follow position state.pc = some .waits ∧ target.visited state.pc = true) ∨
      state.move context mode = .fails ∨
      (∃ next, state.move context mode = .goes next ∧
        Stays context position unfinished target next) ∨
      ∃ first second, state.move context mode = .splits first second ∧
        Stays context position unfinished target first ∧
        Stays context position unfinished target second := by
  obtain ⟨rfl, reached, keeps⟩ := stays
  cases found : context.follow state.position state.pc with
  | none => exact .inr (.inl (State.move_outside found))
  | some follow =>
    cases reached with
    | outside absurd => exact nomatch found.symm.trans absurd
    | again member _ head exit =>
      cases found.symm.trans head
      have met := keeps.heads _ member _ _ _ head
      have moved := @State.move_follow context mode _ _ found nofun
      simp only [met, beq_self_eq_true, Bool.and_self, if_true] at moved
      exact .inr (.inr (.inl ⟨_, moved, rfl, exit, keeps⟩))
    | finished visited done =>
      have ways := closed.ways _ _ visited done found
      cases follow with
      | waits => exact .inl ⟨rfl, visited⟩
      | stops => exact .inr (.inl (State.move_follow found nofun))
      | goes pc write =>
        exact .inr (.inr (.inl ⟨_, State.move_follow found nofun, rfl,
          ways pc (mem_singleton_self _), keeps⟩))
      | splits first second loop inverted =>
        have left := ways first (mem_cons_self ..)
        have right := ways second (mem_cons_of_mem _ (mem_singleton_self _))
        have moved := @State.move_follow context mode _ _ found nofun
        dsimp only at moved
        split at moved
        case isTrue =>
          refine .inr (.inr (.inl ⟨_, moved, rfl, ?_, keeps⟩))
          cases inverted with
          | true => exact right
          | false => exact left
        case isFalse =>
          have entered : Keeps context state.position unfinished (state.enter loop).loopPositions := by
            cases loop with
            | true => exact keeps.enter state.pc
            | false => exact keeps
          exact .inr (.inr (.inr ⟨_, _, moved, ⟨state.enter_position loop, left, entered⟩,
            state.enter_position loop, right, entered⟩))

theorem Stays.fails (closed : Closed context position unfinished target)
    (fails : ∀ thread ∈ target.threads, thread.Comes context mode position none)
    (stays : Stays context position unfinished target state) {result : Option Captures}
    (comes : Lib.Comes (State.move context mode) state result) : result = none := by
  have waiting : ∀ {state : State} {result}, Stays context position unfinished target state →
      context.follow position state.pc = some .waits → target.visited state.pc = true →
      Lib.Comes (State.move context mode) state result → result = none := by
    rintro ⟨pc, _, captures, memory⟩ result ⟨rfl, _, keeps⟩ waits visited comes
    obtain ⟨thread, member, rfl⟩ := closed.threads pc visited waits
    exact (fails thread member).fails_again waits keeps.bounded comes
  induction comes with
  | fails => rfl
  | succeeds moved =>
    rcases @Stays.step _ mode _ _ _ _ stays closed with
      ⟨waits, visited⟩ | moved' | ⟨_, moved', _⟩ | ⟨_, _, moved', _⟩
    · exact waiting stays waits visited (.succeeds moved)
    all_goals cases moved.symm.trans moved'
  | goes moved comes ih =>
    rcases @Stays.step _ mode _ _ _ _ stays closed with
      ⟨waits, visited⟩ | moved' | ⟨_, moved', next⟩ | ⟨_, _, moved', _⟩
    · exact waiting stays waits visited (.goes moved comes)
    · cases moved.symm.trans moved'
    · cases moved.symm.trans moved'
      exact ih next
    · cases moved.symm.trans moved'
  | first moved comes ih =>
    rcases @Stays.step _ mode _ _ _ _ stays closed with
      ⟨waits, visited⟩ | moved' | ⟨_, moved', _⟩ | ⟨_, _, moved', first, _⟩
    · exact waiting stays waits visited (.first moved comes)
    · cases moved.symm.trans moved'
    · cases moved.symm.trans moved'
    · cases moved.symm.trans moved'
      exact ih first
  | second moved none comes _ ih =>
    rcases @Stays.step _ mode _ _ _ _ stays closed with
      ⟨waits, visited⟩ | moved' | ⟨_, moved', _⟩ | ⟨_, _, moved', _, second⟩
    · exact waiting stays waits visited (.second moved none comes)
    · cases moved.symm.trans moved'
    · cases moved.symm.trans moved'
    · cases moved.symm.trans moved'
      exact ih second

end

/-- What adding a thread does: its instruction is reached, and while the threads before
fail, its state comes to the first success of the new threads. -/
structure Added (context : Context) (mode : Mode) (position : Nat) (unfinished : List Nat)
    (target : Threads) (active : Thread) (next : Threads) : Prop where
  grows : ∀ pc, target.visited pc = true → next.visited pc = true
  closed : Closed context position unfinished next
  reached : Reached context position next.visited unfinished active.pc
  answers : ∃ added, next.threads = target.threads ++ added ∧
    ((∀ thread ∈ target.threads, thread.Comes context mode position none) →
      ∀ memory result, Remembers context position unfinished memory →
      Lib.Comes (State.move context mode) ⟨active.pc, position, active.captures, memory⟩ result →
      FirstOf (Thread.Comes context mode position) added result)

section

variable {position : Nat} {unfinished : List Nat} {target next : Threads} {active : Thread}
  (closed : Closed context position unfinished target)
include closed

theorem Added.dropped (reached : Reached context position target.visited unfinished active.pc) :
    Added context mode position unfinished target active target where
  grows _ visited := visited
  closed := closed
  reached := reached
  answers := by
    refine ⟨[], (append_nil _).symm, ?_⟩
    intro fails memory result remembers comes
    rw [@Stays.fails _ _ _ _ _ ⟨_, _, _, _⟩ closed fails ⟨rfl, reached, remembers.toKeeps⟩ _ comes]
    exact .nil

/-- At the head of a loop that is being added, the thread leaves the loop. -/
theorem Added.again {first second : Nat} {inverted : Bool} (member : active.pc ∈ unfinished)
    (head : context.follow position active.pc = some (.splits first second true inverted))
    (exit : Added context mode position unfinished target
      { active with pc := loopExit first second inverted } next) :
    Added context mode position unfinished target active next where
  grows := exit.grows
  closed := exit.closed
  reached := .again member (exit.grows _ (closed.seen _ member)) head exit.reached
  answers := by
    obtain ⟨added, threads, answers⟩ := exit.answers
    refine ⟨added, threads, ?_⟩
    intro fails memory result remembers comes
    have moved := @State.move_follow context mode ⟨active.pc, position, active.captures, memory⟩ _
      head nofun
    simp only [remembers.heads _ member _ _ _ head, beq_self_eq_true, Bool.and_self, if_true]
      at moved
    apply answers fails memory result remembers
    cases comes with
    | goes moved' comes =>
      cases moved.symm.trans moved'
      exact comes
    | fails moved' | succeeds moved' | first moved' | second moved' =>
      cases moved.symm.trans moved'

theorem Added.waiting (fresh : target.visited active.pc = false)
    (waits : context.follow position active.pc = some .waits) :
    Added context mode position unfinished target active
      { target.visit active.pc with threads := target.threads ++ [active] } := by
  have grows : ∀ pc, target.visited pc = true → (target.visit active.pc).visited pc = true := by
    intro pc visited
    rwa [target.visit_of_ne]
    rintro rfl
    exact Bool.false_ne_true (fresh.symm.trans visited)
  have here : (target.visit active.pc).visited active.pc = true := update_self ..
  have before : ∀ pc, (target.visit active.pc).visited pc = true → pc = active.pc ∨
      target.visited pc = true := by
    intro pc visited
    by_cases same : pc = active.pc
    · exact .inl same
    · exact .inr ((target.visit_of_ne same).symm.trans visited)
  refine ⟨grows, ⟨?_, ?_, ?_, ?_⟩, ?_, [active], rfl, ?_⟩
  · intro pc member
    exact grows pc (closed.seen pc member)
  · intro thread member
    rcases mem_append.1 member with member | member
    · exact closed.waits thread member
    · exact mem_singleton.1 member ▸ waits
  · intro pc visited waits
    rcases before pc visited with rfl | visited
    · exact ⟨active, mem_append_right _ (mem_singleton_self _), rfl⟩
    · obtain ⟨thread, member, same⟩ := closed.threads pc visited waits
      exact ⟨thread, mem_append_left _ member, same⟩
  · intro pc follow visited done found way member
    rcases before pc visited with rfl | visited
    · cases waits.symm.trans found
      exact nomatch member
    · exact (closed.ways pc follow visited done found way member).mono grows
  · apply Reached.finished here
    intro member
    exact Bool.false_ne_true (fresh.symm.trans (closed.seen _ member))
  · intro fails memory result remembers comes
    have whole : active.Comes context mode position result := ⟨memory, remembers.bounded, comes⟩
    cases result with
    | none => exact .later whole .nil
    | some report => exact .here whole

omit closed in
theorem Threads.visit_grows {pc other : Nat} (visited : target.visited other = true) :
    (target.visit pc).visited other = true := by
  by_cases same : other = pc
  · exact same ▸ update_self ..
  · rwa [target.visit_of_ne same]

/-- The ways of a fresh instruction have been added: it is reached from now on. -/
theorem Closed.reached_of_visited (fresh : target.visited active.pc = false)
    (visited : next.visited active.pc = true) :
    Reached context position next.visited unfinished active.pc := by
  apply Reached.finished visited
  intro member
  exact Bool.false_ne_true (fresh.symm.trans (closed.seen _ member))

theorem Added.stopped (fresh : target.visited active.pc = false)
    (stops : context.follow position active.pc = some .stops) :
    Added context mode position unfinished target active (target.visit active.pc) where
  grows _ visited := Threads.visit_grows visited
  closed := by
    apply (closed.open_ fresh (by rw [stops]; exact nofun)).finish
    intro follow found way member
    cases stops.symm.trans found
    exact nomatch member
  reached := closed.reached_of_visited fresh (update_self ..)
  answers := by
    refine ⟨[], (append_nil _).symm, ?_⟩
    intro _ memory result _ comes
    have moved := @State.move_follow context mode ⟨active.pc, position, active.captures, memory⟩ _
      stops nofun
    cases comes with
    | fails => exact .nil
    | succeeds moved' | goes moved' | first moved' | second moved' =>
      cases moved.symm.trans moved'

theorem Added.going {pc : Nat} {write : Captures → Captures}
    (fresh : target.visited active.pc = false)
    (goes : context.follow position active.pc = some (.goes pc write))
    (through : Added context mode position (active.pc :: unfinished) (target.visit active.pc)
      ⟨pc, write active.captures⟩ next) :
    Added context mode position unfinished target active next where
  grows _ visited := through.grows _ (Threads.visit_grows visited)
  closed := by
    apply through.closed.finish
    intro follow found way member
    cases goes.symm.trans found
    exact mem_singleton.1 member ▸ through.reached
  reached := closed.reached_of_visited fresh (through.grows _ (update_self ..))
  answers := by
    obtain ⟨added, threads, answers⟩ := through.answers
    refine ⟨added, threads, ?_⟩
    intro fails memory result remembers comes
    have moved := @State.move_follow context mode ⟨active.pc, position, active.captures, memory⟩ _
      goes nofun
    cases comes with
    | goes moved' comes =>
      cases moved.symm.trans moved'
      have passed := @Remembers.pass _ _ _ ⟨active.pc, position, active.captures, memory⟩ _
        remembers _ goes nofun
      exact answers fails memory result passed comes
    | fails moved' | succeeds moved' | first moved' | second moved' =>
      cases moved.symm.trans moved'

theorem Added.splitting {first second : Nat} {loop inverted : Bool} {middle : Threads}
    (fresh : target.visited active.pc = false)
    (head : context.follow position active.pc = some (.splits first second loop inverted))
    (one : Added context mode position (active.pc :: unfinished) (target.visit active.pc)
      { active with pc := first } middle)
    (other : Added context mode position (active.pc :: unfinished) middle
      { active with pc := second } next) :
    Added context mode position unfinished target active next where
  grows _ visited := other.grows _ (one.grows _ (Threads.visit_grows visited))
  closed := by
    apply other.closed.finish
    intro follow found way member
    cases head.symm.trans found
    rcases mem_cons.1 member with rfl | member
    · exact one.reached.mono other.grows
    · exact mem_singleton.1 member ▸ other.reached
  reached := closed.reached_of_visited fresh (other.grows _ (one.grows _ (update_self ..)))
  answers := by
    obtain ⟨added, threads, answers⟩ := one.answers
    obtain ⟨added', threads', answers'⟩ := other.answers
    refine ⟨added ++ added', ?_, ?_⟩
    · rw [threads', threads, append_assoc]
      rfl
    intro fails memory result remembers comes
    let state : State := ⟨active.pc, position, active.captures, memory⟩
    have moved := @State.move_follow context mode state _ head nofun
    have new : (loop && memory active.pc == some position) = false := by
      rw [Bool.and_eq_false_iff, beq_eq_false_iff_ne]
      right
      intro met
      exact Bool.false_ne_true (fresh.symm.trans (closed.seen _ (remembers.only _ met)))
    have entered := @Remembers.enter _ _ _ state remembers _ _ _ _ rfl head
    have starts : ∀ pc, { state.enter loop with pc := pc } =
        (⟨pc, position, active.captures, (state.enter loop).loopPositions⟩ : State) := by
      intro pc
      cases loop <;> rfl
    dsimp only [state] at moved entered starts
    rw [new, if_neg Bool.false_ne_true, starts, starts] at moved
    cases comes with
    | first moved' comes =>
      cases moved.symm.trans moved'
      exact (answers fails _ _ entered comes).append_some added'
    | second moved' none comes =>
      cases moved.symm.trans moved'
      have before := answers fails _ _ entered none
      apply before.append
      apply answers' _ _ _ entered comes
      intro thread member
      rw [threads] at member
      rcases mem_append.1 member with member | member
      · exact fails thread member
      · exact before.all_fail thread member
    | fails moved' | succeeds moved' | goes moved' => cases moved.symm.trans moved'

end

/-- `add_nfa_thread` where no way is lost: one case for every instruction it meets. -/
theorem addNfaThread_added {position gas steps later : Nat} {unfinished : List Nat}
    {target next : Threads} {active : Thread}
    (added : addNfaThread context position gas steps target active = some (next, later))
    (apart : addsApart context position gas steps unfinished target active = true)
    (closed : Closed context position unfinished target) :
    Added context mode position unfinished target active next := by
  induction gas generalizing steps unfinished target active next later with
  | zero => exact nomatch added
  | succ gas ih =>
    rw [addNfaThread_succ] at added
    rw [addsApart] at apart
    split at added
    · exact nomatch added
    cases found : context.follow position active.pc with
    | none =>
      rw [found] at added
      cases added
      exact .dropped closed (.outside found)
    | some follow =>
      rw [found] at added apart
      cases visited : target.visited active.pc with
      | true =>
        rw [visited] at added apart
        have finished : active.pc ∉ unfinished →
            Reached context position target.visited unfinished active.pc := .finished visited
        cases follow with
        | splits first second loop inverted =>
          cases loop with
          | true =>
            by_cases member : active.pc ∈ unfinished
            · exact .again closed member found (ih added apart closed)
            · have exit := closed.ways _ _ visited member found (loopExit first second inverted) (by
                cases inverted with
                | true => exact mem_cons_of_mem _ (mem_singleton_self _)
                | false => exact mem_cons_self ..)
              cases addNfaThread_unchanged closed exit added
              exact .dropped closed (finished member)
          | false =>
            cases added
            exact .dropped closed (finished (by simpa using apart))
        | waits | stops | goes pc write =>
          cases added
          exact .dropped closed (finished (by simpa using apart))
      | false =>
        rw [visited] at added apart
        cases follow with
        | waits =>
          cases added
          exact .waiting closed visited found
        | stops =>
          cases added
          exact .stopped closed visited found
        | goes pc write =>
          have opened := closed.open_ visited (by rw [found]; exact nofun)
          exact .going closed visited found (ih added apart opened)
        | splits first second loop inverted =>
          have opened := closed.open_ visited (by rw [found]; exact nofun)
          cases loop
          all_goals
            dsimp only at added apart
            split at added
            · exact nomatch added
            case h_2 middle steps firstAdded =>
              rw [firstAdded, Bool.and_eq_true] at apart
              have one := ih firstAdded apart.1 opened
              exact .splitting closed visited found one (ih added apart.2 one.closed)

section

variable {position : Nat} {thread : Thread} {instruction : Instruction} {result : Option Captures}
  (found : (context.codes.getD 0 [])[thread.pc]? = some instruction)
  (comes : thread.Comes context mode position result)
include found comes

theorem Thread.Comes.consumes (consumes : instructionConsumes context instruction position = true) :
    ∃ memory, Bounded position memory ∧ Lib.Comes (State.move context mode)
      ⟨thread.pc + 1, position + 1, thread.captures, memory⟩ result := by
  obtain ⟨memory, bounded, comes⟩ := comes
  have moved : State.move context mode ⟨thread.pc, position, thread.captures, memory⟩ =
      .goes ⟨thread.pc + 1, position + 1, thread.captures, memory⟩ := by
    simp only [State.move, found, consumes, if_true]
  cases comes with
  | goes moved' comes =>
    cases moved.symm.trans moved'
    exact ⟨memory, bounded, comes⟩
  | fails moved' | succeeds moved' | first moved' | second moved' =>
    cases moved.symm.trans moved'

variable (waits : instruction.follow context position thread.pc = .waits)
  (stays : instructionConsumes context instruction position = false)
include waits stays

theorem Thread.Comes.accepts (accept : instruction = .accept)
    (counts : mode.accepts context position = true) :
    result = some (mode.report position thread.captures) := by
  obtain ⟨memory, _, comes⟩ := comes
  subst accept
  have moved : State.move context mode ⟨thread.pc, position, thread.captures, memory⟩ =
      .succeeds (mode.report position thread.captures) := by
    simp only [State.move, found, stays, Bool.false_eq_true, if_false, State.perform, waits, counts,
      and_self, if_true]
  cases comes with
  | succeeds moved' =>
    cases moved.symm.trans moved'
    rfl
  | fails moved' | goes moved' | first moved' | second moved' =>
    cases moved.symm.trans moved'

theorem Thread.Comes.rejected
    (rejected : instruction = .accept → mode.accepts context position = false) :
    result = none := by
  obtain ⟨memory, _, comes⟩ := comes
  have moved : State.move context mode ⟨thread.pc, position, thread.captures, memory⟩ =
      .fails := by
    have missed : ¬(instruction = .accept ∧ mode.accepts context position = true) := by
      rintro ⟨accept, counts⟩
      exact Bool.false_ne_true ((rejected accept).symm.trans counts)
    simp only [State.move, found, stays, State.perform, waits, missed, Bool.false_eq_true, if_false]
  cases comes with
  | fails => rfl
  | succeeds moved' | goes moved' | first moved' | second moved' =>
    cases moved.symm.trans moved'

end

theorem follow_of_waits {position : Nat} {thread : Thread}
    (waits : context.follow position thread.pc = some .waits) :
    ∃ instruction, (context.codes.getD 0 [])[thread.pc]? = some instruction ∧
      instruction.follow context position thread.pc = .waits :=
  Option.map_eq_some_iff.1 waits

/-- The threads before the first that accepts: all come to what these come to, or else to
what that one reports. -/
theorem scanThreads_comes {position : Nat} {threads : List Thread} {result : Option Captures}
    (waits : ∀ thread ∈ threads, context.follow position thread.pc = some .waits)
    (whole : FirstOf (Thread.Comes context mode position) threads result) :
    ∃ first, FirstOf (Thread.Comes context mode position)
        (scanThreads context mode position threads).1 first ∧
      result = first.or (scanThreads context mode position threads).2 := by
  induction threads generalizing result with
  | nil =>
    cases whole
    exact ⟨none, .nil, rfl⟩
  | cons thread rest ih =>
    rw [scanThreads]
    split
    case isTrue accepting =>
      obtain ⟨accept, counts⟩ := accepting
      have reports : ∀ {result}, thread.Comes context mode position result →
          result = some (mode.report position thread.captures) := by
        intro result comes
        apply comes.accepts accept rfl _ rfl counts
        unfold instructionConsumes
        split <;> trivial
      refine ⟨none, .nil, ?_⟩
      cases whole with
      | here comes => exact reports comes
      | later fails => exact nomatch reports fails
    case isFalse =>
      cases whole with
      | here comes => exact ⟨_, .here comes, rfl⟩
      | later fails others =>
        obtain ⟨first, before, equal⟩ :=
          ih (fun thread member => waits thread (mem_cons_of_mem _ member)) others
        exact ⟨first, .later fails before, equal⟩

theorem scanThreads_before {position : Nat} {threads : List Thread} :
    ∀ thread ∈ (scanThreads context mode position threads).1, thread ∈ threads ∧
      ((context.codes.getD 0 [])[thread.pc]? = some .accept →
        mode.accepts context position = false) := by
  induction threads with
  | nil => exact nofun
  | cons head rest ih =>
    rw [scanThreads]
    split
    case isTrue => exact nofun
    case isFalse other =>
      intro thread member
      rcases mem_cons.1 member with rfl | member
      · exact ⟨mem_cons_self .., fun accept => Bool.not_eq_true _ ▸ fun counts =>
          other ⟨accept, counts⟩⟩
      · exact ⟨mem_cons_of_mem _ (ih thread member).1, (ih thread member).2⟩

theorem advanceThreads_comes {position gas steps later : Nat} {target next : Threads}
    {threads : List Thread}
    (waits : ∀ thread ∈ threads, context.follow position thread.pc = some .waits)
    (rejected : ∀ thread ∈ threads, (context.codes.getD 0 [])[thread.pc]? = some .accept →
      mode.accepts context position = false)
    (advanced : advanceThreads context position gas steps target threads = some (next, later))
    (apart : advancesApart context position gas steps target threads = true)
    (closed : Closed context (position + 1) [] target) :
    Closed context (position + 1) [] next ∧
      ∃ added, next.threads = target.threads ++ added ∧
        ((∀ thread ∈ target.threads, thread.Comes context mode (position + 1) none) →
          ∀ result, FirstOf (Thread.Comes context mode position) threads result →
          FirstOf (Thread.Comes context mode (position + 1)) added result) := by
  induction threads generalizing steps target with
  | nil =>
    cases advanced
    refine ⟨closed, [], (append_nil _).symm, ?_⟩
    intro _ result whole
    cases whole
    exact .nil
  | cons thread rest ih =>
    obtain ⟨instruction, found, follows⟩ := follow_of_waits (waits thread (mem_cons_self ..))
    have ih := fun {steps target} => @ih steps target
      (fun thread member => waits thread (mem_cons_of_mem _ member))
      (fun thread member => rejected thread (mem_cons_of_mem _ member))
    rw [advanceThreads, found] at advanced
    rw [advancesApart, found] at apart
    dsimp only at advanced apart
    split at advanced
    case isTrue consumes =>
      rw [if_pos consumes, Bool.and_eq_true] at apart
      split at advanced
      · exact nomatch advanced
      case h_2 middle steps moved =>
        rw [moved] at apart
        have one := @addNfaThread_added _ mode _ _ _ _ _ _ _ _ moved apart.1 closed
        obtain ⟨added, threads, answers⟩ := one.answers
        obtain ⟨closed, added', threads', answers'⟩ := ih advanced apart.2 one.closed
        refine ⟨closed, added ++ added', ?_, ?_⟩
        · rw [threads', threads, append_assoc]
        intro fails result whole
        have goes : ∀ {result}, thread.Comes context mode position result →
            FirstOf (Thread.Comes context mode (position + 1)) added result := by
          intro result comes
          obtain ⟨memory, bounded, comes⟩ := comes.consumes found consumes
          exact answers fails memory result (.fresh bounded) comes
        cases whole with
        | here comes => exact (goes comes).append_some added'
        | later none others =>
          apply (goes none).append
          apply answers' _ result others
          intro thread member
          rw [threads] at member
          rcases mem_append.1 member with member | member
          · exact fails thread member
          · exact (goes none).all_fail thread member
    case isFalse stays =>
      rw [if_neg stays] at apart
      obtain ⟨closed, added, threads, answers⟩ := ih advanced apart closed
      refine ⟨closed, added, threads, ?_⟩
      intro fails result whole
      apply answers fails result
      cases whole with
      | here comes =>
        exact nomatch comes.rejected found follows (Bool.not_eq_true _ ▸ stays)
          fun accept => rejected thread (mem_cons_self ..) (accept ▸ found)
      | later _ others => exact others

theorem atEnd_fails {position : Nat} {thread : Thread} {result : Option Captures}
    (waits : context.follow position thread.pc = some .waits)
    (far : context.input.length ≤ position)
    (rejected : (context.codes.getD 0 [])[thread.pc]? = some .accept →
      mode.accepts context position = false)
    (comes : thread.Comes context mode position result) : result = none := by
  obtain ⟨instruction, found, follows⟩ := follow_of_waits waits
  apply comes.rejected found follows
  · unfold instructionConsumes
    rw [getElem?_eq_none far]
  · exact fun accept => rejected (accept ▸ found)

/-- The loop of `run_nfa` reports what its threads come to, or else the candidate of an
earlier position. -/
theorem nfaLoop_comes {gas remaining position steps : Nat} {active : Threads}
    {candidate result : Option Captures} (closed : Closed context position [] active)
    (far : context.input.length ≤ position + remaining)
    (whole : FirstOf (Thread.Comes context mode position) active.threads result)
    (apart : loopApart context mode gas remaining position active.threads steps = true)
    (ends : (nfaLoop context mode gas remaining position active.threads candidate steps).1 ≠
      .errorComplexity) :
    (nfaLoop context mode gas remaining position active.threads candidate steps).1 =
      finish (result.or candidate) := by
  induction remaining generalizing position active candidate result steps with
  | zero =>
    obtain ⟨first, before, rfl⟩ := scanThreads_comes closed.waits whole
    have fine := @scanThreads_before context mode position active.threads
    have none : first = none := before.eq_none fun thread member _ =>
      atEnd_fails (closed.waits thread (fine thread member).1) far (fine thread member).2
    rw [nfaLoop, none]
    dsimp only
    split <;> rfl
  | succ remaining ih =>
    obtain ⟨first, before, rfl⟩ := scanThreads_comes closed.waits whole
    have fine := @scanThreads_before context mode position active.threads
    rw [nfaLoop] at ends ⊢
    rw [loopApart, Bool.and_eq_true] at apart
    dsimp only at ends apart ⊢
    split
    case isTrue stops =>
      rw [List.isEmpty_iff.1 (Bool.and_eq_true_iff.1 stops).2] at before
      cases before
      rfl
    case isFalse onward =>
      rw [if_neg onward] at ends
      split at ends
      · exact (ends rfl).elim
      case h_2 next steps advanced =>
        rw [advanced] at apart
        obtain ⟨closed', added, threads, answers⟩ := @advanceThreads_comes _ mode _ _ _ _ _ _ _
          (fun thread member => closed.waits thread (fine thread member).1)
          (fun thread member => (fine thread member).2) advanced apart.1 .empty
        have next' := answers nofun first before
        rw [← nil_append added, ← threads] at next'
        split
        case isTrue empty =>
          rw [List.isEmpty_iff.1 empty] at next'
          cases next'
          rfl
        case isFalse more =>
          rw [if_neg more] at ends
          rw [ih closed' (by omega) next' apart.2 ends, Option.or_assoc]

theorem runNfa_comes {captures : Captures} {steps : Nat} {result : Option Captures}
    (apart : dropsNoUnfinished context mode captures steps = true)
    (comes : Lib.Comes (State.move context mode) (State.initial mode.start captures) result)
    (ends : (runNfa context mode captures steps).1 ≠ .errorComplexity) :
    (runNfa context mode captures steps).1 = finish result := by
  rw [runNfa] at ends ⊢
  rw [dropsNoUnfinished, Bool.and_eq_true] at apart
  split at ends
  · exact (ends rfl).elim
  case h_2 initial later added =>
    rw [added] at apart
    have first := @addNfaThread_added _ mode _ _ _ _ _ _ _ _ added apart.1 .empty
    obtain ⟨threads, equal, answers⟩ := first.answers
    have start : Remembers context mode.start [] fun _ => none := ⟨⟨nofun, nofun⟩, nofun⟩
    have whole := answers nofun _ result start comes
    rw [← nil_append threads, ← equal] at whole
    rw [nfaLoop_comes first.closed (by omega) whole apart.2 ends, Option.or_none]

namespace WithoutBacktracking

variable {instruction : Instruction}

theorem nil : WithoutBacktracking [] := nofun

theorem append {first second : List Instruction} (one : WithoutBacktracking first)
    (other : WithoutBacktracking second) : WithoutBacktracking (first ++ second) := by
  intro instruction member
  rcases mem_append.1 member with member | member
  · exact one instruction member
  · exact other instruction member

theorem cons {rest : List Instruction} (reference : ∀ number, instruction ≠ .backreference number)
    (assertion : ∀ assertion inverted, instruction ≠ .lookahead assertion inverted)
    (others : WithoutBacktracking rest) : WithoutBacktracking (instruction :: rest) := by
  intro other member
  rcases mem_cons.1 member with rfl | member
  · exact ⟨reference, assertion⟩
  · exact others other member

theorem single (reference : ∀ number, instruction ≠ .backreference number)
    (assertion : ∀ assertion inverted, instruction ≠ .lookahead assertion inverted) :
    WithoutBacktracking [instruction] :=
  .cons reference assertion .nil

end WithoutBacktracking

/-- What was emitted has neither back-references nor lookaheads, and so no further code. -/
structure Emitted.Straight (emitted : Emitted) : Prop where
  instructions : WithoutBacktracking emitted.instructions
  codes : emitted.codes = []

namespace Emitted.Straight

theorem andThen {first : Emitted} {second : Nat → Nat → Emitted} (base codes : Nat)
    (one : first.Straight) (other : ∀ base codes, (second base codes).Straight) :
    (first.andThen base codes second).Straight where
  instructions := one.instructions.append (other _ _).instructions
  codes := by
    rw [Emitted.andThen, one.codes, (other _ _).codes]
    rfl

section

variable {emit : Nat → Nat → Emitted} (all : ∀ base codes, (emit base codes).Straight)
include all

theorem copies (count base codes : Nat) : (emitCopies emit count base codes).Straight := by
  induction count generalizing base codes with
  | zero => exact ⟨.nil, rfl⟩
  | succ count ih => exact (all base codes).andThen base codes ih

theorem repeated (minimum : Nat) (maximum : Option Nat) (greedy : Bool) (base codes : Nat) :
    (compileRepeat emit minimum maximum greedy base codes).Straight := by
  apply andThen base codes (copies all minimum base codes)
  cases maximum with
  | none =>
    intro base codes
    exact ⟨.cons nofun nofun ((all _ _).instructions.append (.single nofun nofun)), (all _ _).codes⟩
  | some maximum =>
    apply copies
    intro base codes
    exact ⟨.cons nofun nofun (all _ _).instructions, (all _ _).codes⟩

end

end Emitted.Straight

theorem compileNode_straight (node : Node) (eligible : node.requiresBacktracking = false)
    (base codes : Nat) : (compileNode node base codes).Straight := by
  induction node generalizing base codes with
  | empty => exact ⟨.nil, rfl⟩
  | literal value | dot | characterClass index | begin | «end» | wordBoundary inverted =>
    exact ⟨.single nofun nofun, rfl⟩
  | sequence left right leftIh rightIh =>
    obtain ⟨leftEligible, rightEligible⟩ := Bool.or_eq_false_iff.1 eligible
    exact (leftIh leftEligible base codes).andThen base codes
      (rightIh rightEligible)
  | alternative left right leftIh rightIh =>
    obtain ⟨leftEligible, rightEligible⟩ := Bool.or_eq_false_iff.1 eligible
    have one := leftIh leftEligible (base + 1) codes
    have other := rightIh rightEligible
    constructor
    · exact .cons nofun nofun (one.instructions.append (.cons nofun nofun (other _ _).instructions))
    · simp only [compileNode, one.codes, (other _ _).codes, append_nil]
  | repetition body minimum maximum greedy ih =>
    exact .repeated (ih eligible) minimum maximum greedy base codes
  | capture body number ih =>
    have inner := ih eligible (base + 1) codes
    exact ⟨.cons nofun nofun (inner.instructions.append (.single nofun nofun)), inner.codes⟩
  | backreference number | lookahead body inverted => exact nomatch eligible

theorem compileRoot_eq {root : Node} {codes : List (List Instruction)}
    (compiled : compileRoot root = some codes) :
    codes = ((compileNode root 0 1).instructions ++ [Instruction.accept]) ::
      (compileNode root 0 1).codes := by
  rw [compileRoot] at compiled
  split at compiled
  · cases compiled
    rfl
  · exact nomatch compiled

theorem compileRoot_straight {root : Node} {codes : List (List Instruction)}
    (compiled : compileRoot root = some codes) (eligible : root.requiresBacktracking = false) :
    codes = [(compileNode root 0 1).instructions ++ [Instruction.accept]] := by
  rw [compileRoot_eq compiled, (compileNode_straight root eligible 0 1).codes]

/-- The character traits of the C locale, for the class of word characters. -/
def plainTraits : Traits where
  translate character _ := character
  inRange character first last _ _ := decide (first ≤ character ∧ character ≤ last)
  isClass character _ _ :=
    decide (48 ≤ character ∧ character ≤ 57 ∨ 65 ≤ character ∧ character ≤ 90 ∨
      97 ≤ character ∧ character ≤ 122 ∨ character = 95)
  isEquivalent character sequence := sequence == [character]

/-- A match of an expression without character classes, and without flags. -/
def plainContext (root : Node) (input : List Nat) : Context where
  codes := (compileRoot root).getD []
  classes := []
  traits := plainTraits
  icase := false
  collate := false
  multiline := false
  input := input
  previous := none
  flags := ⟨false, false, false, false, false, false, false, false⟩

/-- `(a?)*`. -/
def optionalLetters : Node :=
  .repetition (.capture (.repetition (.literal 97) 0 (some 1) true) 1) 0 none true

/-- `(a?)*([bc])*`. -/
def lettersPattern : Node :=
  .sequence optionalLetters
    (.repetition (.capture (.alternative (.literal 98) (.literal 99)) 2) 0 none true)

end Aburi.Adinkra.Regex
