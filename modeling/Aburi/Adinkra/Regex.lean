import Mathlib.Algebra.Ring.Nat
import Mathlib.Logic.Function.Basic

/-!
# The regular expression runtime

`adinkra/runtime/regex.cpp` for the ECMAScript grammar: the syntax tree, the bytecode
compiler, the backtracking machine `run_vm` and the lockstep machine `run_nfa`.
Characters are numbers, an index of `-1` or `unlimited` is `none`, and the
functions of the character traits are parameters.  Loops carry the step counter of the
source; `gas` bounds their recursion and never ends before the budget does.
-/

namespace Aburi.Adinkra.Regex

structure NamedClass where
  name : List Nat
  inverted : Bool

structure CharacterClass where
  inverted : Bool
  singles : List Nat
  ranges : List (Nat × Nat)
  names : List NamedClass
  equivalents : List (List Nat)

inductive Node where
  | empty
  | literal (value : Nat)
  | dot
  | characterClass (index : Nat)
  | sequence (left right : Node)
  | alternative (left right : Node)
  | repetition (body : Node) (minimum : Nat) (maximum : Option Nat) (greedy : Bool)
  | capture (body : Node) (number : Nat)
  | backreference (number : Nat)
  | begin
  | «end»
  | wordBoundary (inverted : Bool)
  | lookahead (body : Node) (inverted : Bool)

/-- `parser::requires_backtracking`: there is a back-reference or a lookahead. -/
def Node.requiresBacktracking : Node → Bool
  | .sequence left right | .alternative left right =>
    left.requiresBacktracking || right.requiresBacktracking
  | .repetition body _ _ _ | .capture body _ => body.requiresBacktracking
  | .backreference _ | .lookahead _ _ => true
  | _ => false

def maximumParseDepth : Nat :=
  1024

inductive Instruction where
  | character (value : Nat)
  | any
  | characterClass (index : Nat)
  | split (first second : Nat) (loop inverted : Bool)
  | jump (target : Nat)
  | save (slot : Nat)
  | backreference (number : Nat)
  | begin
  | «end»
  | wordBoundary (inverted : Bool)
  | lookahead (code : Nat) (inverted : Bool)
  | accept
deriving DecidableEq

/-- What the compiler has emitted for a node: its instructions in the current code,
and the further codes of its lookaheads. -/
structure Emitted where
  instructions : List Instruction
  codes : List (List Instruction)

/-- One after another; `second` is told where it begins and which code is the next. -/
def Emitted.andThen (first : Emitted) (base codes : Nat) (second : Nat → Nat → Emitted) :
    Emitted :=
  let next := second (base + first.instructions.length) (codes + first.codes.length)
  ⟨first.instructions ++ next.instructions, first.codes ++ next.codes⟩

/-- The same piece emitted `count` times. -/
def emitCopies (emit : Nat → Nat → Emitted) : Nat → Nat → Nat → Emitted
  | 0, _, _ => ⟨[], []⟩
  | count + 1, base, codes => (emit base codes).andThen base codes (emitCopies emit count)

/-- An optional piece: the split is followed by the piece, and its other branch goes
behind it. -/
def emitOptional (greedy : Bool) (emit : Nat → Nat → Emitted) (base codes : Nat) : Emitted :=
  let body := emit (base + 1) codes
  let first := base + 1
  let last := base + 1 + body.instructions.length
  ⟨.split (if greedy then first else last) (if greedy then last else first) false false ::
    body.instructions, body.codes⟩

/-- The loop of an unlimited repetition. -/
def emitLoop (greedy : Bool) (emit : Nat → Nat → Emitted) (base codes : Nat) : Emitted :=
  let body := emit (base + 1) codes
  let first := base + 1
  let last := base + 1 + body.instructions.length + 1
  ⟨.split (if greedy then first else last) (if greedy then last else first) true greedy ::
    body.instructions ++ [Instruction.jump base], body.codes⟩

/-- `compile_repeat`. -/
def compileRepeat (emit : Nat → Nat → Emitted) (minimum : Nat) (maximum : Option Nat)
    (greedy : Bool) (base codes : Nat) : Emitted :=
  (emitCopies emit minimum base codes).andThen base codes
    (match maximum with
      | none => emitLoop greedy emit
      | some maximum => emitCopies (emitOptional greedy emit) (maximum - minimum))

/-- `compile_node`, at the position `base` of its code and with `codes` codes so far. -/
def compileNode : Node → Nat → Nat → Emitted
  | .empty, _, _ => ⟨[], []⟩
  | .literal value, _, _ => ⟨[.character value], []⟩
  | .dot, _, _ => ⟨[.any], []⟩
  | .characterClass index, _, _ => ⟨[.characterClass index], []⟩
  | .sequence left right, base, codes =>
    (compileNode left base codes).andThen base codes (compileNode right)
  | .alternative left right, base, codes =>
    let first := compileNode left (base + 1) codes
    let second := compileNode right (base + 1 + first.instructions.length + 1)
      (codes + first.codes.length)
    let last := base + 1 + first.instructions.length + 1 + second.instructions.length
    ⟨.split (base + 1) (base + 1 + first.instructions.length + 1) false false ::
      first.instructions ++ .jump last :: second.instructions, first.codes ++ second.codes⟩
  | .repetition body minimum maximum greedy, base, codes =>
    compileRepeat (compileNode body) minimum maximum greedy base codes
  | .capture body number, base, codes =>
    let inner := compileNode body (base + 1) codes
    ⟨.save (number * 2) :: inner.instructions ++ [Instruction.save (number * 2 + 1)], inner.codes⟩
  | .backreference number, _, _ => ⟨[.backreference number], []⟩
  | .begin, _, _ => ⟨[.begin], []⟩
  | .end, _, _ => ⟨[.end], []⟩
  | .wordBoundary inverted, _, _ => ⟨[.wordBoundary inverted], []⟩
  | .lookahead body inverted, _, codes =>
    let inner := compileNode body 0 (codes + 1)
    ⟨[.lookahead codes inverted], (inner.instructions ++ [Instruction.accept]) :: inner.codes⟩

def maximumProgramSize : Nat :=
  2 ^ 20

/-- `bytecode_compiler::compile`; a code that becomes too long is an error. -/
def compileRoot (root : Node) : Option (List (List Instruction)) :=
  let emitted := compileNode root 0 1
  let codes := (emitted.instructions ++ [Instruction.accept]) :: emitted.codes
  if codes.all fun code => decide (code.length ≤ maximumProgramSize) then some codes else none

structure Traits where
  translate : Nat → Bool → Nat
  inRange : Nat → Nat → Nat → Bool → Bool → Bool
  isClass : Nat → List Nat → Bool → Bool
  isEquivalent : Nat → List Nat → Bool

structure MatchFlags where
  notBol : Bool
  notEol : Bool
  notBow : Bool
  notEow : Bool
  notNull : Bool
  continuous : Bool
  prevAvail : Bool
  iteratorProgress : Bool

/-- The compiled program with the input and the flags of a match; `previous` is the
character before the input, if there is one. -/
structure Context where
  codes : List (List Instruction)
  classes : List CharacterClass
  traits : Traits
  icase : Bool
  collate : Bool
  multiline : Bool
  input : List Nat
  previous : Option Nat
  flags : MatchFlags

/-- The step budget of a search in its input. -/
def Context.budget (context : Context) : Nat :=
  let size := context.input.length
  let budget := 4096 * (if size = 0 then 1 else size) % 2 ^ 64
  if budget < size then 2 ^ 64 - 1 else budget

abbrev Captures := List (Option Nat)

inductive Status where
  | noMatch
  | matched (captures : Captures)
  | errorComplexity
  | errorStack
deriving DecidableEq

section Matching

variable (context : Context)

def translatedEqual (left right : Nat) : Bool :=
  context.traits.translate left context.icase == context.traits.translate right context.icase

def classMatches (set : CharacterClass) (character : Nat) : Bool :=
  let found :=
    set.singles.any (fun single => translatedEqual context single character) ||
    set.ranges.any (fun range => context.traits.inRange character range.1 range.2
      context.collate context.icase) ||
    set.names.any (fun named =>
      context.traits.isClass character named.name context.icase != named.inverted) ||
    set.equivalents.any (fun sequence => context.traits.isEquivalent character sequence)
  if set.inverted then !found else found

def isLineTerminator (character : Nat) : Bool :=
  character == 10 || character == 13 || character == 0x2028 || character == 0x2029

def isWord (character : Nat) : Bool :=
  context.traits.isClass character [119, 111, 114, 100] context.icase

def atBegin (position : Nat) : Bool :=
  if position ≠ 0 then
    context.multiline && (context.input[position - 1]?).any isLineTerminator
  else if context.flags.iteratorProgress then
    context.multiline && context.previous.any isLineTerminator
  else if context.flags.prevAvail && context.previous.isSome then
    true
  else
    !context.flags.notBol

def atEnd (position : Nat) : Bool :=
  if position ≠ context.input.length then
    context.multiline && (context.input[position]?).any isLineTerminator
  else
    !context.flags.notEol

def atWordBoundary (position : Nat) : Bool :=
  let before :=
    if position = 0 then
      context.flags.prevAvail && context.previous.any (isWord context)
    else
      (context.input[position - 1]?).any (isWord context)
  let after := (context.input[position]?).any (isWord context)
  if before == after then
    false
  else if !before && after && context.flags.notBow && !context.flags.prevAvail then
    false
  else if before && !after && context.flags.notEow then
    false
  else
    true

/-- `instruction_consumes`: whether the character at the position is consumed. -/
def instructionConsumes (instruction : Instruction) (position : Nat) : Bool :=
  match context.input[position]?, instruction with
  | some character, .character value => translatedEqual context value character
  | some character, .any => !isLineTerminator character
  | some character, .characterClass index =>
    (context.classes[index]?).any fun set => classMatches context set character
  | _, _ => false

/-- The position behind what a back-reference matches. -/
def matchBackreference (number position : Nat) (captures : Captures) : Option Nat :=
  match (captures[number * 2]?).join, (captures[number * 2 + 1]?).join with
  | some first, some last =>
    let length := last - first
    -- a length below zero wraps around, and no input is that long
    if last < first then
      none
    else if position + length > context.input.length then
      none
    else if (List.range length).all fun index =>
        match context.input[first + index]?, context.input[position + index]? with
        | some left, some right => translatedEqual context left right
        | _, _ => false then
      some (position + length)
    else
      none
  | _, _ => some position

/-- Where a match starts, whether it has to reach the end of the input, and whether it
has to be longer than nothing. -/
structure Mode where
  start : Nat
  requireFullMatch : Bool
  notNull : Bool

/-- Whether an accepting state at this position counts. -/
def Mode.accepts (mode : Mode) (position : Nat) : Bool :=
  (!mode.requireFullMatch || position == context.input.length) &&
    (!mode.notNull || position != mode.start)

def Mode.report (mode : Mode) (position : Nat) (captures : Captures) : Captures :=
  (captures.set 0 (some mode.start)).set 1 (some position)

structure State where
  pc : Nat
  position : Nat
  captures : Captures
  loopPositions : Nat → Option Nat

def State.initial (start : Nat) (captures : Captures) : State :=
  ⟨0, start, captures, fun _ => none⟩

/-- The loops of `run_vm`: the first state is active and the others are pending. -/
def vmLoop : Nat → Nat → Nat → Mode → Nat → List State → Status × Nat
  | 0, _, _, _, steps, _ => (.errorComplexity, steps)
  | _ + 1, _, _, _, steps, [] => (.noMatch, steps)
  | gas + 1, depth, code, mode, steps, active :: pending =>
    if steps + 1 > context.budget then
      (.errorComplexity, steps + 1)
    else
      match (context.codes.getD code [])[active.pc]? with
      | none => vmLoop gas depth code mode (steps + 1) pending
      | some instruction =>
        if instructionConsumes context instruction active.position then
          vmLoop gas depth code mode (steps + 1)
            ({ active with pc := active.pc + 1, position := active.position + 1 } :: pending)
        else
          match instruction with
          | .character _ | .any | .characterClass _ =>
            vmLoop gas depth code mode (steps + 1) pending
          | .split first second loop inverted =>
            if loop && active.loopPositions active.pc == some active.position then
              vmLoop gas depth code mode (steps + 1)
                ({ active with pc := if inverted then second else first } :: pending)
            else
              let active := if loop then
                  { active with
                    loopPositions := Function.update active.loopPositions active.pc
                      (some active.position) }
                else active
              vmLoop gas depth code mode (steps + 1)
                ({ active with pc := first } :: { active with pc := second } :: pending)
          | .jump target =>
            vmLoop gas depth code mode (steps + 1) ({ active with pc := target } :: pending)
          | .save slot =>
            vmLoop gas depth code mode (steps + 1)
              ({ active with pc := active.pc + 1,
                             captures := active.captures.set slot
                               (some active.position) } :: pending)
          | .backreference number =>
            match matchBackreference context number active.position active.captures with
            | none => vmLoop gas depth code mode (steps + 1) pending
            | some position =>
              vmLoop gas depth code mode (steps + 1)
                ({ active with pc := active.pc + 1, position := position } :: pending)
          | .begin =>
            if !atBegin context active.position then
              vmLoop gas depth code mode (steps + 1) pending
            else
              vmLoop gas depth code mode (steps + 1)
                ({ active with pc := active.pc + 1 } :: pending)
          | .end =>
            if !atEnd context active.position then
              vmLoop gas depth code mode (steps + 1) pending
            else
              vmLoop gas depth code mode (steps + 1)
                ({ active with pc := active.pc + 1 } :: pending)
          | .wordBoundary inverted =>
            if atWordBoundary context active.position == inverted then
              vmLoop gas depth code mode (steps + 1) pending
            else
              vmLoop gas depth code mode (steps + 1)
                ({ active with pc := active.pc + 1 } :: pending)
          | .lookahead assertion inverted =>
            if depth + 1 > maximumParseDepth then
              (.errorStack, steps + 1)
            else
              match vmLoop gas (depth + 1) assertion ⟨active.position, false, false⟩
                  (steps + 1) [State.initial active.position active.captures] with
              | (.errorComplexity, steps) => (.errorComplexity, steps)
              | (.errorStack, steps) => (.errorStack, steps)
              | (.noMatch, steps) =>
                if inverted then
                  vmLoop gas depth code mode steps ({ active with pc := active.pc + 1 } :: pending)
                else
                  vmLoop gas depth code mode steps pending
              | (.matched captures, steps) =>
                if inverted then
                  vmLoop gas depth code mode steps pending
                else
                  vmLoop gas depth code mode steps
                    ({ active with pc := active.pc + 1, captures := captures } :: pending)
          | .accept =>
            if mode.accepts context active.position then
              (.matched (mode.report active.position active.captures), steps + 1)
            else
              vmLoop gas depth code mode (steps + 1) pending

/-- `run_vm` of the whole program, from a step counter of `steps` on. -/
def runVm (mode : Mode) (captures : Captures) (steps : Nat) : Status × Nat :=
  vmLoop context (context.budget + 2) 0 0 mode steps [State.initial mode.start captures]

structure Thread where
  pc : Nat
  captures : Captures

/-- The threads of one position and the instructions that were visited for them. -/
structure Threads where
  threads : List Thread
  visited : Nat → Bool

/-- `add_nfa_thread`; `none` is `error_complexity`. -/
def addNfaThread (position : Nat) :
    Nat → Nat → Threads → Thread → Option (Threads × Nat)
  | 0, _, _, _ => none
  | gas + 1, steps, target, active =>
    if steps + 1 > context.budget then
      none
    else
      match (context.codes.getD 0 [])[active.pc]? with
      | none => some (target, steps + 1)
      | some instruction =>
        if target.visited active.pc then
          match instruction with
          | .split first second true inverted =>
            addNfaThread position gas (steps + 1) target
              { active with pc := if inverted then second else first }
          | _ => some (target, steps + 1)
        else
          let target := { target with visited := Function.update target.visited active.pc true }
          match instruction with
          | .split first second _ _ =>
            match addNfaThread position gas (steps + 1) target
                { active with pc := first } with
            | none => none
            | some (target, steps) =>
              addNfaThread position gas steps target { active with pc := second }
          | .jump destination =>
            addNfaThread position gas (steps + 1) target { active with pc := destination }
          | .save slot =>
            addNfaThread position gas (steps + 1) target
              ⟨active.pc + 1, active.captures.set slot (some position)⟩
          | .begin =>
            if !atBegin context position then
              some (target, steps + 1)
            else
              addNfaThread position gas (steps + 1) target { active with pc := active.pc + 1 }
          | .end =>
            if !atEnd context position then
              some (target, steps + 1)
            else
              addNfaThread position gas (steps + 1) target { active with pc := active.pc + 1 }
          | .wordBoundary inverted =>
            if atWordBoundary context position == inverted then
              some (target, steps + 1)
            else
              addNfaThread position gas (steps + 1) target { active with pc := active.pc + 1 }
          | _ => some ({ target with threads := target.threads ++ [active] }, steps + 1)

/-- The threads before the first accepting one that counts, and what that one reports. -/
def scanThreads (mode : Mode) (position : Nat) : List Thread → List Thread × Option Captures
  | [] => ([], none)
  | thread :: rest =>
    if (context.codes.getD 0 [])[thread.pc]? = some .accept ∧
        mode.accepts context position = true then
      ([], some (mode.report position thread.captures))
    else
      let (before, accepted) := scanThreads mode position rest
      (thread :: before, accepted)

/-- The threads that consume the character at the position go on behind it. -/
def advanceThreads (position gas : Nat) :
    Nat → Threads → List Thread → Option (Threads × Nat)
  | steps, next, [] => some (next, steps)
  | steps, next, thread :: rest =>
    match (context.codes.getD 0 [])[thread.pc]? with
    | none => advanceThreads position gas steps next rest
    | some instruction =>
      if instructionConsumes context instruction position then
        match addNfaThread context (position + 1) gas steps next
            { thread with pc := thread.pc + 1 } with
        | none => none
        | some (next, steps) => advanceThreads position gas steps next rest
      else
        advanceThreads position gas steps next rest

/-- What is reported when no thread is left. -/
def finish (candidate : Option Captures) : Status :=
  match candidate with
  | none => .noMatch
  | some captures => .matched captures

/-- The loop of `run_nfa`; `remaining` is how far the end of the input is. -/
def nfaLoop (mode : Mode) (gas : Nat) :
    Nat → Nat → List Thread → Option Captures → Nat → Status × Nat
  | remaining, position, active, candidate, steps =>
    let (before, accepted) := scanThreads context mode position active
    let candidate := accepted.or candidate
    if accepted.isSome && before.isEmpty then
      (finish candidate, steps)
    else
      match remaining with
      | 0 => (finish candidate, steps)
      | remaining + 1 =>
        match advanceThreads context position gas steps ⟨[], fun _ => false⟩ before with
        | none => (.errorComplexity, steps)
        | some (next, steps) =>
          if next.threads.isEmpty then
            (finish candidate, steps)
          else
            nfaLoop mode gas remaining (position + 1) next.threads candidate steps

def runNfa (mode : Mode) (captures : Captures) (steps : Nat) : Status × Nat :=
  match addNfaThread context mode.start (context.budget + 2) steps ⟨[], fun _ => false⟩
      ⟨0, captures⟩ with
  | none => (.errorComplexity, steps)
  | some (initial, steps) =>
    nfaLoop context mode (context.budget + 2) (context.input.length - mode.start) mode.start
      initial.threads none steps

end Matching

end Aburi.Adinkra.Regex
