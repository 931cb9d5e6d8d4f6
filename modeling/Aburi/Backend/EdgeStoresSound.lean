import Aburi.Backend.EdgeStores

/-!
# Edges as simultaneous assignments

The stores of an edge are a simultaneous assignment exactly when no argument is
loaded from its slot after the slot was overwritten by the edge itself.
-/

namespace Aburi.Backend

open Aburi.Air List Option Function Prod Nat

/-- The registers, the contents of the frame objects and the x87 stack. -/
structure EdgeMachine where
  vregs : ℕ → Val
  slots : ℕ → Val
  x87 : List Val

namespace EdgeMachine

def setReg (machine : EdgeMachine) (vreg : ℕ) (value : Val) : EdgeMachine :=
  { machine with vregs := update machine.vregs vreg value }

def setSlot (machine : EdgeMachine) (frame : ℕ) (value : Val) : EdgeMachine :=
  { machine with slots := update machine.slots frame value }

end EdgeMachine

/-- One half of a 64-bit value. -/
def halfOf (value : Val) (high : Bool) : BitVec 32 :=
  if high then (value >>> 32).setWidth 32 else value.setWidth 32

/-- An 8-byte slot after one half was stored. -/
def withHalf (old : Val) (half : BitVec 32) (high : Bool) : Val :=
  if high then (half ++ halfOf old false).setWidth 128
  else (halfOf old true ++ half).setWidth 128

/-- `env` gives the values of the function where the edge is taken and
`objects` the addresses of its frame objects. -/
def runEdgeInst (env : ValueId → Val) (objects : ℕ → Val) (machine : EdgeMachine) :
    EdgeInst → EdgeMachine
  | .load vreg frame => machine.setReg vreg (machine.slots frame)
  | .store vreg frame => machine.setSlot frame (machine.vregs vreg)
  | .frameAddr vreg frame => machine.setReg vreg (objects frame)
  | .build vreg v => machine.setReg vreg (env v)
  | .loadHalf vreg frame high =>
    machine.setReg vreg ((halfOf (machine.slots frame) high).setWidth 128)
  | .storeHalf vreg frame high =>
    machine.setSlot frame (withHalf (machine.slots frame) ((machine.vregs vreg).setWidth 32) high)
  | .buildHalf vreg v high => machine.setReg vreg ((halfOf (env v) high).setWidth 128)
  | .pushF80 frame => { machine with x87 := machine.slots frame :: machine.x87 }
  | .pushConstF80 v => { machine with x87 := env v :: machine.x87 }
  | .popF80 frame =>
    { machine.setSlot frame (machine.x87.headD 0) with x87 := machine.x87.tail }

def runEdge (env : ValueId → Val) (objects : ℕ → Val) (code : List EdgeInst)
    (machine : EdgeMachine) : EdgeMachine :=
  code.foldl (runEdgeInst env objects) machine

/-- The machine where an edge is taken: cached values are in their registers,
values with slots in their slots, and 64-bit integers fit their slots. -/
structure AtEdge (frame : SelectedFrame) (sel : Selector) (env : ValueId → Val)
    (objects : ℕ → Val) (machine : EdgeMachine) : Prop where
  cached : ∀ v vreg, sel.blockValues v = some vreg → machine.vregs vreg = env v
  slots : ∀ v slot, frame.slots v = some slot → machine.slots slot = env v
  addresses : ∀ v object, frame.frameAddrs v = some object → objects object = env v
  fits : ∀ v, frame.legacyI64 (frame.function.valueType v) = true → (env v).toNat < 2 ^ 64

/-- Afterwards the slot of each parameter holds what its argument was, and
all other slots hold what they held. -/
def Assigns (frame : SelectedFrame) (sel : Selector) (code : List EdgeInst)
    (pairs : List (ValueId × ValueId)) : Prop :=
  ∀ env objects machine, AtEdge frame sel env objects machine →
    (∀ arg param slot, (arg, param) ∈ pairs → frame.slots param = some slot →
      (runEdge env objects code machine).slots slot = env arg) ∧
    ∀ v slot, frame.slots v = some slot → v ∉ pairs.map snd →
      (runEdge env objects code machine).slots slot = machine.slots slot

section Tracking

variable (tier : FastTier) (frame : SelectedFrame)

def isLegacy (param : ValueId) : Bool :=
  tier == .x86 && (frame.legacyI64 (frame.function.valueType param) ||
    frame.legacyF80 (frame.function.valueType param))

/-- Which value's contents the registers and the slots hold. -/
structure Tracked where
  held : ValueId → Option ValueId
  current : ValueId → ValueId

/-- The contents that are stored for an argument. -/
def Tracked.source (tracked : Tracked) (arg param : ValueId) : ValueId :=
  if isLegacy tier frame param then
    if isComputed frame.function arg then tracked.current arg else arg
  else
    (tracked.held arg).getD
      (if (frame.frameAddrs arg).isNone && isComputed frame.function arg then tracked.current arg
        else arg)

def Tracked.next (tracked : Tracked) (arg param : ValueId) : Tracked where
  held :=
    if isLegacy tier frame param then tracked.held
    else update tracked.held arg (some (tracked.source tier frame arg param))
  current := update tracked.current param (tracked.source tier frame arg param)

def track : List (ValueId × ValueId) → Tracked → Tracked
  | [], tracked => tracked
  | (arg, param) :: rest, tracked => track rest (tracked.next tier frame arg param)

def Selector.tracked (sel : Selector) : Tracked where
  held v := (sel.blockValues v).map fun _ => v
  current v := v

/-- Registers and slots hold what is tracked. -/
structure Holds (sel : Selector) (env : ValueId → Val) (machine : EdgeMachine)
    (tracked : Tracked) : Prop where
  cached : ∀ v vreg, sel.blockValues v = some vreg → vreg < sel.nextVreg ∧
    ∃ source, tracked.held v = some source ∧ machine.vregs vreg = env source
  uncached : ∀ v, sel.blockValues v = none → tracked.held v = none
  slots : ∀ v slot, frame.slots v = some slot → machine.slots slot = env (tracked.current v)
  types : ∀ v, frame.function.valueType (tracked.current v) = frame.function.valueType v
  heldTypes : ∀ v source, tracked.held v = some source →
    frame.function.valueType source = frame.function.valueType v

end Tracking

variable {pairs : List (ValueId × ValueId)}

section Steps

variable {tier : FastTier} {frame : SelectedFrame} {env : ValueId → Val} {objects : ℕ → Val}

theorem runEdge_append (first second : List EdgeInst) (machine : EdgeMachine) :
    runEdge env objects (first ++ second) machine =
      runEdge env objects second (runEdge env objects first machine) := by
  rw [runEdge, foldl_append]
  rfl

theorem toNat_append_halves (high low : BitVec 32) :
    (high ++ low).toNat = 2 ^ 32 * high.toNat + low.toNat := by
  rw [BitVec.toNat_append, shiftLeft_eq, Nat.mul_comm, two_pow_add_eq_or_of_lt low.isLt]

theorem withHalf_withHalf {value : Val} (fits : value.toNat < 2 ^ 64) (old : Val) :
    withHalf (withHalf old (((halfOf value false).setWidth 128).setWidth 32) false)
      (((halfOf value true).setWidth 128).setWidth 32) true = value := by
  have narrow : ∀ half : BitVec 32, (half.setWidth 128).setWidth 32 = half := by
    intro half
    rw [BitVec.setWidth_setWidth_of_le _ (by decide), BitVec.setWidth_eq]
  have low : ∀ half, halfOf (withHalf old half false) false = half := by
    intro half
    apply BitVec.eq_of_toNat_eq
    simp only [halfOf, withHalf, Bool.false_eq_true, if_false]
    rw [BitVec.toNat_setWidth, BitVec.toNat_setWidth, toNat_append_halves]
    have := half.isLt
    omega
  rw [narrow, narrow]
  conv_lhs => rw [withHalf]
  simp only [if_true]
  rw [low]
  apply BitVec.eq_of_toNat_eq
  simp only [halfOf, if_true, Bool.false_eq_true, if_false]
  rw [BitVec.toNat_setWidth, toNat_append_halves, BitVec.toNat_setWidth, BitVec.toNat_setWidth,
    BitVec.toNat_ushiftRight, shiftRight_eq_div_pow]
  omega

attribute [local grind =] runEdgeInst

theorem Holds.cacheNew {sel : Selector} {machine : EdgeMachine} {tracked : Tracked}
    (holds : Holds frame sel env machine tracked) {arg source : ValueId}
    (sameType : frame.function.valueType source = frame.function.valueType arg)
    {inst : ℕ → EdgeInst} {vreg : ℕ} {sel' : Selector}
    (isNew : sel.cacheNew arg inst = (vreg, sel'))
    (sets : runEdgeInst env objects machine (inst sel.nextVreg) =
      machine.setReg sel.nextVreg (env source)) :
    ∃ new, sel'.code = sel.code ++ new ∧
      (runEdge env objects new machine).vregs vreg = env source ∧
      (runEdge env objects new machine).slots = machine.slots ∧
      Holds frame sel' env (runEdge env objects new machine)
        { tracked with held := update tracked.held arg (some source) } := by
  obtain rfl : (sel.cacheNew arg inst).1 = vreg := by rw [isNew]
  obtain rfl : (sel.cacheNew arg inst).2 = sel' := by rw [isNew]
  have run : runEdge env objects [inst sel.nextVreg] machine =
      machine.setReg sel.nextVreg (env source) := sets
  refine ⟨[inst sel.nextVreg], rfl, ?_, ?_, ?_⟩
  · rw [run]
    simp [EdgeMachine.setReg, Selector.cacheNew]
  · rw [run]
    rfl
  · rw [run]
    refine ⟨?_, ?_, holds.slots, holds.types, ?_⟩
    · intro v vreg cached
      by_cases isArg : v = arg
      · subst isArg
        have isNew : sel.nextVreg = vreg := by simpa [Selector.cacheNew] using cached
        subst isNew
        exact ⟨lt_succ_self _, source, by simp, by simp [EdgeMachine.setReg]⟩
      · have old : sel.blockValues v = some vreg := by
          simpa [Selector.cacheNew, update_of_ne isArg] using cached
        obtain ⟨bounded, held, isHeld, contents⟩ := holds.cached v vreg old
        refine ⟨lt_succ_of_lt bounded, held, ?_, ?_⟩
        · exact (update_of_ne isArg _ _).trans isHeld
        · exact (update_of_ne (Nat.ne_of_lt bounded) _ _).trans contents
    · intro v uncached
      have isOther : v ≠ arg := by
        rintro rfl
        simp [Selector.cacheNew] at uncached
      refine (update_of_ne isOther _ _).trans (holds.uncached v ?_)
      simpa [Selector.cacheNew, update_of_ne isOther] using uncached
    · intro v held isHeld
      by_cases isArg : v = arg
      · subst isArg
        have same : source = held := by simpa using isHeld
        exact same ▸ sameType
      · exact holds.heldTypes v held ((update_of_ne isArg _ _).symm.trans isHeld)

theorem Holds.useReg
    (addresses : ∀ v object, frame.frameAddrs v = some object → objects object = env v)
    {sel sel' : Selector} {machine : EdgeMachine} {tracked : Tracked}
    (holds : Holds frame sel env machine tracked) {arg vreg : ℕ}
    (used : useReg tier frame arg sel = some (vreg, sel')) :
    let source := (tracked.held arg).getD
      (if (frame.frameAddrs arg).isNone && isComputed frame.function arg then
        tracked.current arg else arg)
    ∃ new, sel'.code = sel.code ++ new ∧
      (runEdge env objects new machine).vregs vreg = env source ∧
      (runEdge env objects new machine).slots = machine.slots ∧
      Holds frame sel' env (runEdge env objects new machine)
        { tracked with held := update tracked.held arg (some source) } := by
  rw [Backend.useReg] at used
  split at used
  case h_1 cachedReg cached =>
    cases used
    obtain ⟨-, held, isHeld, contents⟩ := holds.cached arg _ cached
    refine ⟨[], by simp, ?_, rfl, ?_⟩
    · rw [isHeld]
      exact contents
    · have same : update tracked.held arg (some held) = tracked.held := by
        rw [← isHeld, update_eq_self]
      simp only [isHeld, getD_some, same]
      exact holds
  case h_2 notCached =>
    have notHeld := holds.uncached arg notCached
    simp only [notHeld, getD_none]
    split at used
    case h_1 object isObject =>
      simp only [isObject, isNone_some, Bool.false_and, Bool.false_eq_true, if_false]
      refine holds.cacheNew rfl (Option.some.inj used) ?_
      rw [runEdgeInst, addresses arg object isObject]
    case h_2 noObject =>
      simp only [noObject, isNone_none, Bool.true_and]
      split at used
      · cases used
      split at used
      case h_3 kind =>
        have notComputed : isComputed frame.function arg = false := by
          simp [isComputed, kind]
        simp only [notComputed, Bool.false_eq_true, if_false]
        split at used
        · cases used
        · exact holds.cacheNew rfl (Option.some.inj used) rfl
      case h_4 kind notParam notFloat =>
        have notComputed : isComputed frame.function arg = false := by
          rw [isComputed]
          split <;> simp_all
        simp only [notComputed, Bool.false_eq_true, if_false]
        exact holds.cacheNew rfl (Option.some.inj used) rfl
      all_goals
        rename_i kind
        obtain ⟨slot, isSlot, isNew⟩ := map_eq_some_iff.mp used
        have computed : isComputed frame.function arg = true := by simp [isComputed, kind]
        simp only [computed, if_true]
        refine holds.cacheNew (holds.types arg) isNew ?_
        rw [runEdgeInst, holds.slots arg slot isSlot]

section

variable {sel : Selector} {machine : EdgeMachine} {tracked : Tracked}
  (holds : Holds frame sel env machine tracked)
include holds

theorem Holds.setSlot {param source : ValueId} {slot : ℕ} (isSlot : frame.slots param = some slot)
    (sameType : frame.function.valueType source = frame.function.valueType param)
    {machine' : EdgeMachine} (vregs : machine'.vregs = machine.vregs)
    (slots : machine'.slots = update machine.slots slot (env source)) :
    Holds frame sel env machine'
      { tracked with current := update tracked.current param source } := by
  refine ⟨?_, holds.uncached, ?_, ?_, holds.heldTypes⟩
  · intro v vreg cached
    rw [vregs]
    exact holds.cached v vreg cached
  · intro v other isOther
    by_cases isParam : v = param
    · subst isParam
      have same : slot = other := Option.some.inj (isSlot.symm.trans isOther)
      subst same
      simp [slots]
    · have apart : other ≠ slot := by
        rintro rfl
        exact isParam (frame.slotsApart v param other isOther isSlot)
      rw [slots, update_of_ne apart]
      refine (holds.slots v other isOther).trans ?_
      exact congrArg env (update_of_ne isParam _ _).symm
  · intro v
    by_cases isParam : v = param
    · subst isParam
      simpa using sameType
    · simpa [update_of_ne isParam] using holds.types v

theorem Holds.sourceType (arg param : ValueId) :
    frame.function.valueType (tracked.source tier frame arg param) =
      frame.function.valueType arg := by
  rw [Tracked.source]
  split
  · split
    · exact holds.types arg
    · rfl
  · cases isHeld : tracked.held arg with
    | some held => exact holds.heldTypes arg held isHeld
    | none =>
      simp only [getD_none]
      split
      · exact holds.types arg
      · rfl

/-- Registers that no value is cached in may change. -/
theorem Holds.scratch {sel' : Selector} {machine' : EdgeMachine}
    (sameValues : sel'.blockValues = sel.blockValues) (more : sel.nextVreg ≤ sel'.nextVreg)
    (vregs : ∀ vreg < sel.nextVreg, machine'.vregs vreg = machine.vregs vreg)
    (slots : machine'.slots = machine.slots) :
    Holds frame sel' env machine' tracked := by
  refine ⟨?_, ?_, ?_, holds.types, holds.heldTypes⟩
  · intro v vreg cached
    rw [sameValues] at cached
    obtain ⟨bounded, held, isHeld, contents⟩ := holds.cached v vreg cached
    exact ⟨Nat.lt_of_lt_of_le bounded more, held, isHeld, (vregs vreg bounded).trans contents⟩
  · intro v uncached
    rw [sameValues] at uncached
    exact holds.uncached v uncached
  · intro v slot isSlot
    rw [slots]
    exact holds.slots v slot isSlot

end

section Turns

variable {sel sel' : Selector} {machine : EdgeMachine} {tracked : Tracked}
  {arg param : ValueId} {slot : ℕ}

/-- A turn that goes through a register. -/
theorem Holds.storeReg
    (addresses : ∀ v object, frame.frameAddrs v = some object → objects object = env v)
    (holds : Holds frame sel env machine tracked) (isSlot : frame.slots param = some slot)
    (sameType : frame.function.valueType arg = frame.function.valueType param)
    (notLegacy : isLegacy tier frame param = false)
    (emitted : (Backend.useReg tier frame arg sel).map
      (fun (vreg, sel) => sel.emit [.store vreg slot]) = some sel') :
    ∃ new, sel'.code = sel.code ++ new ∧
      Holds frame sel' env (runEdge env objects new machine)
        (tracked.next tier frame arg param) := by
  obtain ⟨⟨vreg, sel₁⟩, used, rfl⟩ := map_eq_some_iff.mp emitted
  obtain ⟨new, code, contents, sameSlots, holds'⟩ := holds.useReg addresses used
  have source : tracked.source tier frame arg param = (tracked.held arg).getD
      (if (frame.frameAddrs arg).isNone && isComputed frame.function arg then
        tracked.current arg else arg) := by
    simp [Tracked.source, notLegacy]
  rw [← source] at contents holds'
  refine ⟨new ++ [EdgeInst.store vreg slot], ?_, ?_⟩
  · simp [Selector.emit, code]
  · have run : runEdge env objects (new ++ [EdgeInst.store vreg slot]) machine =
        (runEdge env objects new machine).setSlot slot
          (env (tracked.source tier frame arg param)) := by
      rw [runEdge_append, ← contents]
      rfl
    have stored : Holds frame sel₁ env (runEdge env objects (new ++ [EdgeInst.store vreg slot]) machine) _ :=
      holds'.setSlot isSlot ((holds.sourceType arg param).trans sameType)
        (by rw [run]; rfl) (by rw [run]; rfl)
    rw [Tracked.next, notLegacy]
    exact ⟨stored.cached, stored.uncached, stored.slots, stored.types, stored.heldTypes⟩

/-- A turn that leaves the cache alone and copies one slot, or a constant. -/
theorem Holds.storeLegacy (holds : Holds frame sel env machine tracked)
    (isSlot : frame.slots param = some slot)
    (sameType : frame.function.valueType arg = frame.function.valueType param)
    (legacy : isLegacy tier frame param = true) {new : List EdgeInst}
    (code : sel'.code = sel.code ++ new) (sameValues : sel'.blockValues = sel.blockValues)
    (more : sel.nextVreg ≤ sel'.nextVreg)
    (vregs : ∀ vreg < sel.nextVreg,
      (runEdge env objects new machine).vregs vreg = machine.vregs vreg)
    (slots : (runEdge env objects new machine).slots =
      update machine.slots slot (env (tracked.source tier frame arg param))) :
    ∃ new, sel'.code = sel.code ++ new ∧
      Holds frame sel' env (runEdge env objects new machine)
        (tracked.next tier frame arg param) := by
  refine ⟨new, code, ?_⟩
  have kept : Holds frame sel' env
      { runEdge env objects new machine with slots := machine.slots } tracked :=
    holds.scratch sameValues more vregs rfl
  have stored : Holds frame sel' env (runEdge env objects new machine) _ :=
    kept.setSlot isSlot ((holds.sourceType arg param).trans sameType) rfl slots
  rw [Tracked.next, legacy]
  exact stored

variable (fits : ∀ v, frame.legacyI64 (frame.function.valueType v) = true → (env v).toNat < 2 ^ 64)

section

variable (holds : Holds frame sel env machine tracked) (isSlot : frame.slots param = some slot)
  (sameType : frame.function.valueType arg = frame.function.valueType param)
include holds isSlot sameType

include fits in
theorem Holds.storeI64 (isI64 : frame.legacyI64 (frame.function.valueType param) = true)
    (emitted : (i64Load frame arg sel).map (fun (lo, hi, sel) =>
      sel.emit [.storeHalf lo slot false, .storeHalf hi slot true]) = some sel') :
    ∃ new, sel'.code = sel.code ++ new ∧
      Holds frame sel' env (runEdge env objects new machine)
        (tracked.next .x86 frame arg param) := by
  have legacy : isLegacy .x86 frame param = true := by simp [isLegacy, isI64]
  have fitting := fits (tracked.source .x86 frame arg param) (by
    rw [holds.sourceType, sameType]
    exact isI64)
  obtain ⟨⟨lo, hi, sel₁⟩, loaded, rfl⟩ := map_eq_some_iff.mp emitted
  have notLow : sel.nextVreg + 1 ≠ sel.nextVreg := Nat.succ_ne_self _
  have kept : ∀ vreg < sel.nextVreg, vreg ≠ sel.nextVreg ∧ vreg ≠ sel.nextVreg + 1 := by
    intro vreg bounded
    omega
  rw [i64Load] at loaded
  split at loaded
  case h_4 isSource =>
    obtain ⟨home, isHome, found⟩ := map_eq_some_iff.mp loaded
    cases found
    have source : tracked.source .x86 frame arg param = tracked.current arg := by
      simp [Tracked.source, legacy, frame.slotsComputed arg home isHome]
    refine holds.storeLegacy isSlot sameType legacy
      (by simp [Selector.emit]; rfl) rfl (Nat.le_add_right _ _) ?_ ?_
    · intro vreg bounded
      obtain ⟨notLo, notHi⟩ := kept vreg bounded
      simp [runEdge, runEdgeInst, EdgeMachine.setReg, EdgeMachine.setSlot, notLo, notHi]
    · rw [source] at fitting ⊢
      have contents := holds.slots arg home isHome
      have both := withHalf_withHalf fitting (machine.slots slot)
      simp only [runEdge, foldl_cons, foldl_nil, runEdgeInst, EdgeMachine.setReg,
        EdgeMachine.setSlot, update_self, update_of_ne notLow.symm,
        update_idem, contents]
      rw [both]
  all_goals
    rename_i kind
    cases loaded
    have notComputed : isComputed frame.function arg = false := by simp [isComputed, kind]
    have source : tracked.source .x86 frame arg param = arg := by
      simp [Tracked.source, legacy, notComputed]
    refine holds.storeLegacy isSlot sameType legacy
      (by simp [Selector.emit]; rfl) rfl (Nat.le_add_right _ _) ?_ ?_
    · intro vreg bounded
      obtain ⟨notLo, notHi⟩ := kept vreg bounded
      simp [runEdge, runEdgeInst, EdgeMachine.setReg, EdgeMachine.setSlot, notLo, notHi]
    · rw [source] at fitting ⊢
      have both := withHalf_withHalf fitting (machine.slots slot)
      simp only [runEdge, foldl_cons, foldl_nil, runEdgeInst, EdgeMachine.setReg,
        EdgeMachine.setSlot, update_self, update_of_ne notLow.symm,
        update_idem]
      rw [both]

theorem Holds.storeF80 (isF80 : frame.legacyF80 (frame.function.valueType param) = true)
    (emitted : (f80Push frame arg sel).map (fun sel => sel.emit [.popF80 slot]) = some sel') :
    ∃ new, sel'.code = sel.code ++ new ∧
      Holds frame sel' env (runEdge env objects new machine)
        (tracked.next .x86 frame arg param) := by
  have legacy : isLegacy .x86 frame param = true := by simp [isLegacy, isF80]
  obtain ⟨sel₁, pushed, rfl⟩ := map_eq_some_iff.mp emitted
  rw [f80Push] at pushed
  split at pushed
  case h_4 isSource =>
    obtain ⟨home, isHome, rfl⟩ := map_eq_some_iff.mp pushed
    have source : tracked.source .x86 frame arg param = tracked.current arg := by
      simp [Tracked.source, legacy, frame.slotsComputed arg home isHome]
    refine holds.storeLegacy isSlot sameType legacy
      (by simp [Selector.emit]; rfl) rfl (Nat.le_refl _) (fun _ _ => rfl) ?_
    rw [source, ← holds.slots arg home isHome]
    rfl
  all_goals
    rename_i kind
    cases pushed
    have notComputed : isComputed frame.function arg = false := by simp [isComputed, kind]
    have source : tracked.source .x86 frame arg param = arg := by
      simp [Tracked.source, legacy, notComputed]
    refine holds.storeLegacy isSlot sameType legacy
      (by simp [Selector.emit]; rfl) rfl (Nat.le_refl _) (fun _ _ => rfl) ?_
    rw [source]
    rfl

end

include fits in
/-- One turn of the loop moves the tracked contents. -/
theorem Holds.storeArg
    (addresses : ∀ v object, frame.frameAddrs v = some object → objects object = env v)
    (holds : Holds frame sel env machine tracked)
    (hasSlot : (frame.slots param).isSome = true)
    (sameType : frame.function.valueType arg = frame.function.valueType param)
    (stored : Backend.storeArg tier frame sel arg param = some sel') :
    ∃ new, sel'.code = sel.code ++ new ∧
      Holds frame sel' env (runEdge env objects new machine)
        (tracked.next tier frame arg param) := by
  obtain ⟨slot, isSlot⟩ := isSome_iff_exists.mp hasSlot
  cases tier with
  | aarch64 | or1k =>
    simp only [Backend.storeArg, isSlot] at stored
    exact holds.storeReg addresses isSlot sameType rfl stored
  | x86 =>
    simp only [Backend.storeArg, isSlot] at stored
    split at stored
    case isTrue isI64 => exact holds.storeI64 fits isSlot sameType isI64 stored
    case isFalse notI64 =>
      split at stored
      case isTrue isF80 => exact holds.storeF80 isSlot sameType isF80 stored
      case isFalse notF80 =>
        have notLegacy : isLegacy .x86 frame param = false := by
          simp [isLegacy, notI64, notF80]
        exact holds.storeReg addresses isSlot sameType notLegacy stored

end Turns

theorem Holds.emitStores
    (fits : ∀ v, frame.legacyI64 (frame.function.valueType v) = true → (env v).toNat < 2 ^ 64)
    (addresses : ∀ v object, frame.frameAddrs v = some object → objects object = env v)
    (hasSlots : ∀ pair ∈ pairs, (frame.slots pair.2).isSome = true)
    (typed : ∀ pair ∈ pairs, frame.function.valueType pair.1 = frame.function.valueType pair.2) :
    ∀ {sel sel' : Selector} {machine : EdgeMachine} {tracked : Tracked},
      Holds frame sel env machine tracked →
      emitStores tier frame pairs sel = some sel' →
      ∃ new, sel'.code = sel.code ++ new ∧
        Holds frame sel' env (runEdge env objects new machine) (track tier frame pairs tracked) := by
  induction pairs with
  | nil =>
    intro sel sel' machine tracked holds stored
    cases stored
    exact ⟨[], by simp, holds⟩
  | cons pair rest ih =>
    intro sel sel' machine tracked holds stored
    obtain ⟨next, first, more⟩ := bind_eq_some_iff.mp stored
    obtain ⟨new, code, holds'⟩ := holds.storeArg fits addresses (hasSlots pair (.head _))
      (typed pair (.head _)) first
    obtain ⟨others, othersCode, final⟩ := ih (fun p mem => hasSlots p (.tail _ mem))
      (fun p mem => typed p (.tail _ mem)) holds' more
    refine ⟨new ++ others, ?_, ?_⟩
    · rw [othersCode, code, List.append_assoc]
    · rw [runEdge_append]
      exact final

end Steps

/-- Values that agree in every machine: one value, or two in one register. -/
def Selector.Same (sel : Selector) (left right : ValueId) : Prop :=
  left = right ∨ (sel.blockValues left).isSome = true ∧ sel.blockValues left = sel.blockValues right

instance (sel : Selector) (left right : ValueId) : Decidable (sel.Same left right) :=
  inferInstanceAs (Decidable (_ ∨ _))

namespace Selector

variable {sel : Selector}

theorem Same.rfl {v : ValueId} : sel.Same v v := .inl (Eq.refl v)

theorem Same.symm {left right : ValueId} (same : sel.Same left right) : sel.Same right left := by
  rcases same with rfl | ⟨cached, sameReg⟩
  · exact .rfl
  · exact .inr ⟨sameReg ▸ cached, sameReg.symm⟩

theorem Same.trans {first second third : ValueId} (left : sel.Same first second)
    (right : sel.Same second third) : sel.Same first third := by
  rcases left with rfl | ⟨cached, sameReg⟩
  · exact right
  rcases right with rfl | ⟨-, sameReg'⟩
  · exact .inr ⟨cached, sameReg⟩
  · exact .inr ⟨cached, sameReg.trans sameReg'⟩

end Selector

theorem AtEdge.same {frame : SelectedFrame} {sel : Selector} {env : ValueId → Val}
    {objects : ℕ → Val} {machine : EdgeMachine} (at_ : AtEdge frame sel env objects machine)
    {left right : ValueId} (same : sel.Same left right) : env left = env right := by
  rcases same with rfl | ⟨cached, sameReg⟩
  · rfl
  · obtain ⟨vreg, isReg⟩ := isSome_iff_exists.mp cached
    exact (at_.cached left vreg isReg).symm.trans (at_.cached right vreg (sameReg ▸ isReg))

/-- One where everything that agrees with a value is set. -/
def indicator (sel : Selector) (v w : ValueId) : Val := if sel.Same w v then 1 else 0

/-- Values that do not agree differ in some machine. -/
theorem atEdge_indicator (frame : SelectedFrame) (sel : Selector) (v : ValueId) :
    ∃ objects machine, AtEdge frame sel (indicator sel v) objects machine := by
  classical
  -- a location is set when one of the values it belongs to is
  let spread (place : ValueId → Option ℕ) (location : ℕ) : Val :=
    if ∃ w, place w = some location ∧ sel.Same w v then 1 else 0
  have spread_eq : ∀ place : ValueId → Option ℕ,
      (∀ left right location, place left = some location → place right = some location →
        sel.Same left right) →
      ∀ w location, place w = some location → spread place location = indicator sel v w := by
    intro place agree w location isPlace
    have equivalent : (∃ w, place w = some location ∧ sel.Same w v) ↔ sel.Same w v := by
      constructor
      · rintro ⟨other, isOther, same⟩
        exact (agree w other location isPlace isOther).trans same
      · exact fun same => ⟨w, isPlace, same⟩
    simp only [spread, indicator, equivalent]
  refine ⟨spread frame.frameAddrs,
    { vregs := spread sel.blockValues, slots := spread frame.slots, x87 := [] }, ?_, ?_, ?_, ?_⟩
  · refine spread_eq sel.blockValues fun left right vreg isLeft isRight => .inr ⟨?_, ?_⟩
    · rw [isLeft]
      rfl
    · rw [isLeft, isRight]
  · exact spread_eq frame.slots fun left right slot isLeft isRight =>
      .inl (frame.slotsApart left right slot isLeft isRight)
  · exact spread_eq frame.frameAddrs fun left right object isLeft isRight =>
      .inl (frame.addrsApart left right object isLeft isRight)
  · intro w _
    rw [indicator]
    split <;> decide

/-- A selector that has emitted nothing yet and that has cached nothing on its
own. -/
structure Selector.Starts (sel start : Selector) : Prop where
  code : start.code = []
  bounded : ∀ v vreg, start.blockValues v = some vreg → vreg < start.nextVreg
  cached : ∀ v vreg, start.blockValues v = some vreg → sel.blockValues v = some vreg

section Assignments

variable {tier : FastTier} {frame : SelectedFrame} {sel start sel' : Selector}

theorem AtEdge.holds {env : ValueId → Val} {objects : ℕ → Val} {machine : EdgeMachine}
    (at_ : AtEdge frame sel env objects machine) (starts : sel.Starts start) :
    Holds frame start env machine start.tracked := by
  refine ⟨?_, ?_, at_.slots, fun _ => rfl, ?_⟩
  · intro v vreg cached
    refine ⟨starts.bounded v vreg cached, v, ?_, at_.cached v vreg (starts.cached v vreg cached)⟩
    simp [Selector.tracked, cached]
  · intro v uncached
    simp [Selector.tracked, uncached]
  · intro v source isHeld
    obtain ⟨vreg, -, rfl⟩ := map_eq_some_iff.mp isHeld
    rfl

/-- What the machine holds after the stores decides whether they assign. -/
theorem assigns_iff_same (starts : sel.Starts start) {stores : List (ValueId × ValueId)}
    (hasSlots : ∀ pair ∈ stores, (frame.slots pair.2).isSome = true)
    (typed : ∀ pair ∈ stores, frame.function.valueType pair.1 = frame.function.valueType pair.2)
    (slotted : ∀ pair ∈ pairs, (frame.slots pair.2).isSome = true)
    (emitted : emitStores tier frame stores start = some sel') :
    Assigns frame sel sel'.code pairs ↔
      (∀ pair ∈ pairs, sel.Same ((track tier frame stores start.tracked).current pair.2) pair.1) ∧
      ∀ v, (frame.slots v).isSome = true → v ∉ pairs.map snd →
        sel.Same ((track tier frame stores start.tracked).current v) v := by
  have final : ∀ env objects machine, AtEdge frame sel env objects machine →
      ∀ v slot, frame.slots v = some slot → (runEdge env objects sel'.code machine).slots slot =
        env ((track tier frame stores start.tracked).current v) := by
    intro env objects machine at_
    obtain ⟨new, code, holds⟩ := (at_.holds starts).emitStores at_.fits at_.addresses hasSlots
      typed emitted
    rw [starts.code, nil_append] at code
    rw [code]
    exact holds.slots
  -- contents that are right in the machine set up for one value come from that value
  have recognized : ∀ v w, indicator sel v w = indicator sel v v → sel.Same w v := by
    intro v w equal
    simp only [indicator, if_pos Selector.Same.rfl] at equal
    by_contra differ
    rw [if_neg differ] at equal
    exact absurd equal (by decide)
  constructor
  · intro assigns
    constructor
    · rintro ⟨arg, param⟩ mem
      obtain ⟨slot, isSlot⟩ := isSome_iff_exists.mp (slotted _ mem)
      obtain ⟨objects, machine, at_⟩ := atEdge_indicator frame sel arg
      apply recognized
      rw [← final _ _ _ at_ param slot isSlot]
      exact (assigns _ _ _ at_).1 arg param slot mem isSlot
    · intro v hasSlot notParam
      obtain ⟨slot, isSlot⟩ := isSome_iff_exists.mp hasSlot
      obtain ⟨objects, machine, at_⟩ := atEdge_indicator frame sel v
      apply recognized
      rw [← final _ _ _ at_ v slot isSlot, (assigns _ _ _ at_).2 v slot isSlot notParam]
      exact at_.slots v slot isSlot
  · rintro ⟨params, others⟩ env objects machine at_
    constructor
    · intro arg param slot mem isSlot
      rw [final _ _ _ at_ param slot isSlot]
      exact at_.same (params _ mem)
    · intro v slot isSlot notParam
      rw [final _ _ _ at_ v slot isSlot, at_.slots v slot isSlot]
      exact at_.same (others v (by rw [isSlot]; rfl) notParam)

end Assignments

section Conditions

variable (tier : FastTier) (frame : SelectedFrame) (sel : Selector)

/-- What is known in the middle of an edge: which values are in registers, and
which slots were overwritten with something else. -/
structure EdgeProgress where
  cached : ValueId → Bool
  overwritten : ValueId → Bool

def EdgeProgress.start (sel : Selector) : EdgeProgress where
  cached v := (sel.blockValues v).isSome
  overwritten _ := false

/-- Arguments that are loaded from their slots. -/
def EdgeProgress.loads (progress : EdgeProgress) (arg param : ValueId) : Bool :=
  isComputed frame.function arg &&
    (isLegacy tier frame param || !progress.cached arg && (frame.frameAddrs arg).isNone)

def EdgeProgress.next (progress : EdgeProgress) (arg param : ValueId) : EdgeProgress where
  cached v := progress.cached v || v == arg && !isLegacy tier frame param
  overwritten := update progress.overwritten param (!decide (sel.Same arg param))

def progressAfter : List (ValueId × ValueId) → EdgeProgress → EdgeProgress
  | [], progress => progress
  | (arg, param) :: rest, progress =>
    progressAfter rest (progress.next tier frame sel arg param)

/-- No argument is loaded from its slot after the slot was overwritten. -/
def NoLateLoad : List (ValueId × ValueId) → EdgeProgress → Prop
  | [], _ => True
  | (arg, param) :: rest, progress =>
    (progress.loads tier frame arg param = true → progress.overwritten arg = false) ∧
      NoLateLoad rest (progress.next tier frame sel arg param)

end Conditions

section Decided

variable {tier : FastTier} {frame : SelectedFrame} {sel : Selector}

/-- The tracked contents, as far as the condition looks at them. -/
structure Agrees (sel : Selector) (tracked : Tracked) (progress : EdgeProgress) : Prop where
  held : ∀ v source, tracked.held v = some source → sel.Same source v
  cached : ∀ v, progress.cached v = (tracked.held v).isSome
  overwritten : ∀ v, progress.overwritten v = !decide (sel.Same (tracked.current v) v)

theorem Selector.Starts.agrees {start : Selector} :
    Agrees sel start.tracked (EdgeProgress.start start) := by
  refine ⟨?_, ?_, ?_⟩
  · intro v source isHeld
    obtain ⟨vreg, -, rfl⟩ := map_eq_some_iff.mp isHeld
    exact .rfl
  · intro v
    simp [EdgeProgress.start, Selector.tracked]
  · intro v
    simp [EdgeProgress.start, Selector.tracked, Selector.Same.rfl]

variable {tracked : Tracked} {progress : EdgeProgress}

theorem Agrees.source (agrees : Agrees sel tracked progress) (arg param : ValueId) :
    sel.Same (tracked.source tier frame arg param) arg ↔
      (progress.loads tier frame arg param = true → progress.overwritten arg = false) := by
  have current : sel.Same (tracked.current arg) arg ↔ progress.overwritten arg = false := by
    rw [agrees.overwritten]
    simp
  rw [Tracked.source, EdgeProgress.loads, agrees.cached]
  cases isLegacy tier frame param <;> cases isComputed frame.function arg <;>
    cases isHeld : tracked.held arg <;> cases (frame.frameAddrs arg).isNone <;>
    simp [Selector.Same.rfl, current]
  all_goals exact agrees.held arg _ isHeld

theorem Agrees.next (agrees : Agrees sel tracked progress) {arg param : ValueId}
    (same : sel.Same (tracked.source tier frame arg param) arg) :
    Agrees sel (tracked.next tier frame arg param) (progress.next tier frame sel arg param) := by
  refine ⟨?_, ?_, ?_⟩
  · intro v source isHeld
    rw [Tracked.next] at isHeld
    by_cases legacy : isLegacy tier frame param = true
    · rw [legacy] at isHeld
      exact agrees.held v source isHeld
    by_cases isArg : v = arg
    · subst isArg
      have isSource : tracked.source tier frame v param = source := by
        simpa [legacy] using isHeld
      exact isSource ▸ same
    · refine agrees.held v source ?_
      simpa [legacy, update_of_ne isArg] using isHeld
  · intro v
    rw [Tracked.next, EdgeProgress.next]
    by_cases isArg : v = arg
    · subst isArg
      cases legacy : isLegacy tier frame param <;> simp [agrees.cached]
    · cases legacy : isLegacy tier frame param <;> simp [agrees.cached, isArg]
  · intro v
    rw [Tracked.next, EdgeProgress.next]
    by_cases isParam : v = param
    · subst isParam
      have moved : sel.Same (tracked.source tier frame arg v) v ↔ sel.Same arg v :=
        ⟨same.symm.trans, same.trans⟩
      simp [moved]
    · simp [update_of_ne isParam, agrees.overwritten]

theorem track_current_of_notMem {v : ValueId} (notParam : v ∉ pairs.map snd) :
    ∀ tracked, (track tier frame pairs tracked).current v = tracked.current v := by
  induction pairs with
  | nil => exact fun tracked => rfl
  | cons pair rest ih =>
    intro tracked
    obtain ⟨notFirst, notRest⟩ := ne_and_not_mem_of_not_mem_cons notParam
    refine (ih notRest (tracked.next tier frame pair.1 pair.2)).trans ?_
    exact update_of_ne notFirst _ _

/-- As long as no argument is loaded too late the slots of the parameters get
their arguments, and only then. -/
theorem Agrees.track_iff (nodup : (pairs.map snd).Nodup) :
    ∀ {tracked progress}, Agrees sel tracked progress →
      ((∀ pair ∈ pairs, sel.Same ((track tier frame pairs tracked).current pair.2) pair.1) ↔
        NoLateLoad tier frame sel pairs progress) := by
  induction pairs with
  | nil => simp [NoLateLoad]
  | cons pair rest ih =>
    intro tracked progress agrees
    obtain ⟨arg, param⟩ := pair
    obtain ⟨notLater, nodupRest⟩ := nodup_cons.mp nodup
    have first : (track tier frame ((arg, param) :: rest) tracked).current param =
        tracked.source tier frame arg param := by
      refine (track_current_of_notMem notLater (tracked.next tier frame arg param)).trans ?_
      exact update_self _ _ _
    constructor
    · intro assigned
      have same : sel.Same (tracked.source tier frame arg param) arg :=
        first ▸ assigned (arg, param) (.head _)
      refine ⟨(agrees.source arg param).mp same, (ih nodupRest (agrees.next same)).mp ?_⟩
      exact fun pair mem => assigned pair (.tail _ mem)
    · rintro ⟨early, rest_early⟩
      have same := (agrees.source arg param).mpr early
      intro pair mem
      rcases mem_cons.mp mem with rfl | later
      · exact first ▸ same
      · exact (ih nodupRest (agrees.next same)).mpr rest_early pair later

theorem Agrees.track :
    ∀ {tracked progress}, Agrees sel tracked progress →
      NoLateLoad tier frame sel pairs progress →
      Agrees sel (Backend.track tier frame pairs tracked)
        (progressAfter tier frame sel pairs progress) := by
  induction pairs with
  | nil => exact fun agrees _ => agrees
  | cons pair rest ih =>
    rintro tracked progress agrees ⟨early, later⟩
    exact ih (agrees.next ((agrees.source pair.1 pair.2).mpr early)) later

end Decided

/-- What verification gives for an edge. -/
structure LinkedEdge (frame : SelectedFrame) (call : BlockCallId) : Prop where
  linked : (frame.function.blockCall call).target ∈ frame.function.layout
  typed : ∀ pair ∈ edgePairs frame call,
    frame.function.valueType pair.1 = frame.function.valueType pair.2

theorem map_snd_zip_sublist {α β : Type} (left : List α) (right : List β) :
    ((left.zip right).map snd).Sublist right := by
  induction left generalizing right with
  | nil => exact nil_sublist _
  | cons item items ih =>
    cases right with
    | nil => exact nil_sublist _
    | cons other others => exact (ih others).cons_cons other

namespace LinkedEdge

variable {frame : SelectedFrame} {call : BlockCallId} (edge : LinkedEdge frame call)

include edge

theorem nodup : ((edgePairs frame call).map snd).Nodup := by
  exact (frame.paramsNodup _ edge.linked).sublist (map_snd_zip_sublist _ _)

theorem hasSlots : ∀ pair ∈ edgePairs frame call, (frame.slots pair.2).isSome = true := by
  rintro ⟨arg, param⟩ mem
  exact frame.paramSlots _ edge.linked param (of_mem_zip mem).2

end LinkedEdge

def EdgeTerminator.calls : EdgeTerminator → List BlockCallId
  | .jump call => [call]
  | .invoke normal => [normal]
  | .brIf thenCall elseCall => [thenCall, elseCall]
  | .switch default cases => default :: cases

section Terminators

variable (tier : FastTier) (frame : SelectedFrame) (sel : Selector)

/-- An edge whose code goes on with what the block has cached. -/
def InlineEdge (call : BlockCallId) : Prop :=
  NoLateLoad tier frame sel (edgePairs frame call) (.start sel)

/-- An edge whose code starts without cached values. -/
def BlockEdge (call : BlockCallId) : Prop :=
  NoLateLoad tier frame sel (edgePairs frame call) ⟨fun _ => false, fun _ => false⟩

/-- No edge loads an argument too late.  Where the code of the first edge of a
branch runs for the second as well, it has to leave the second edge its
arguments and all slots the second edge does not write. -/
def EdgeTerminator.InOrder : EdgeTerminator → Prop
  | .jump call => InlineEdge tier frame sel call
  | .invoke normal => InlineEdge tier frame sel normal
  | .brIf thenCall elseCall =>
    if tier = .or1k then
      NoLateLoad tier frame sel (edgePairs frame thenCall ++ edgePairs frame elseCall)
          (.start sel) ∧
        ∀ pair ∈ edgePairs frame thenCall,
          pair.2 ∉ (edgePairs frame elseCall).map snd → sel.Same pair.1 pair.2
    else BlockEdge tier frame sel thenCall ∧ BlockEdge tier frame sel elseCall
  | .switch default cases =>
    (if tier = .or1k then InlineEdge tier frame sel default
      else BlockEdge tier frame sel default) ∧
      ∀ call ∈ cases, BlockEdge tier frame sel call

end Terminators

section Terminator

variable {tier : FastTier} {frame : SelectedFrame} {sel start sel' : Selector}

theorem edge_assigns_iff (starts : sel.Starts start) {call : BlockCallId}
    (edge : LinkedEdge frame call) (emitted : emitEdgeStores tier frame call start = some sel') :
    Assigns frame sel sel'.code (edgePairs frame call) ↔
      NoLateLoad tier frame sel (edgePairs frame call) (.start start) := by
  rw [assigns_iff_same starts edge.hasSlots edge.typed edge.hasSlots emitted,
    ← Selector.Starts.agrees.track_iff edge.nodup]
  apply and_iff_left
  intro v _ notParam
  rw [track_current_of_notMem notParam]
  exact .rfl

section

variable (first second : List (ValueId × ValueId))
include first second

theorem emitStores_append (sel : Selector) :
    emitStores tier frame (first ++ second) sel =
      (emitStores tier frame first sel).bind (emitStores tier frame second) := by
  induction first generalizing sel with
  | nil => rfl
  | cons pair rest ih =>
    simp only [List.cons_append, emitStores, bind_assoc]
    exact congrArg _ (funext ih)

theorem track_append (tracked : Tracked) :
    track tier frame (first ++ second) tracked =
      track tier frame second (track tier frame first tracked) := by
  induction first generalizing tracked with
  | nil => rfl
  | cons pair rest ih => exact ih _

theorem noLateLoad_append (progress : EdgeProgress) :
    NoLateLoad tier frame sel (first ++ second) progress ↔
      NoLateLoad tier frame sel first progress ∧
        NoLateLoad tier frame sel second (progressAfter tier frame sel first progress) := by
  induction first generalizing progress with
  | nil => simp [NoLateLoad, progressAfter]
  | cons pair rest ih =>
    simp only [List.cons_append, NoLateLoad, progressAfter, ih, and_assoc]

end

/-- Two edges whose stores run one after the other when the second is taken. -/
theorem edges_assign_iff (starts : sel.Starts sel) {thenCall elseCall : BlockCallId}
    (thenEdge : LinkedEdge frame thenCall) (elseEdge : LinkedEdge frame elseCall)
    {thenSel elseSel : Selector}
    (emittedThen : emitEdgeStores tier frame thenCall sel = some thenSel)
    (emittedElse : emitEdgeStores tier frame elseCall thenSel = some elseSel) :
    (Assigns frame sel thenSel.code (edgePairs frame thenCall) ∧
      Assigns frame sel elseSel.code (edgePairs frame elseCall)) ↔
      NoLateLoad tier frame sel (edgePairs frame thenCall ++ edgePairs frame elseCall)
          (.start sel) ∧
        ∀ pair ∈ edgePairs frame thenCall,
          pair.2 ∉ (edgePairs frame elseCall).map snd → sel.Same pair.1 pair.2 := by
  have both : emitStores tier frame (edgePairs frame thenCall ++ edgePairs frame elseCall) sel =
      some elseSel := by
    rw [emitStores_append]
    exact bind_eq_some_iff.mpr ⟨thenSel, emittedThen, emittedElse⟩
  have hasSlots := forall_mem_append.mpr ⟨thenEdge.hasSlots, elseEdge.hasSlots⟩
  have typed := forall_mem_append.mpr ⟨thenEdge.typed, elseEdge.typed⟩
  rw [noLateLoad_append, edge_assigns_iff starts thenEdge emittedThen, and_assoc]
  apply and_congr_right
  intro thenInOrder
  have agrees : Agrees sel (track tier frame (edgePairs frame thenCall) sel.tracked) _ :=
    Selector.Starts.agrees.track thenInOrder
  have assigned := (Selector.Starts.agrees.track_iff thenEdge.nodup).mpr thenInOrder
  rw [assigns_iff_same starts hasSlots typed elseEdge.hasSlots both, track_append,
    agrees.track_iff elseEdge.nodup]
  apply and_congr_right
  intro elseInOrder
  constructor
  · intro others pair mem notElse
    have kept := others pair.2 (thenEdge.hasSlots pair mem) notElse
    rw [track_current_of_notMem notElse] at kept
    exact (assigned pair mem).symm.trans kept
  · intro kept v hasSlot notElse
    rw [track_current_of_notMem notElse]
    by_cases isThen : v ∈ (edgePairs frame thenCall).map snd
    · obtain ⟨pair, mem, rfl⟩ := List.mem_map.mp isThen
      exact (assigned pair mem).trans (kept pair mem notElse)
    · rw [track_current_of_notMem isThen]
      exact .rfl

theorem blockEdge_assigns_iff {call : BlockCallId} (edge : LinkedEdge frame call)
    (emitted : emitEdgeBlock tier frame call sel = some sel') :
    Assigns frame sel sel'.code (edgePairs frame call) ↔ BlockEdge tier frame sel call := by
  refine edge_assigns_iff ⟨rfl, ?_, ?_⟩ edge emitted
  · intro v vreg cached
    cases cached
  · intro v vreg cached
    cases cached

/-- Every edge of a terminator is a simultaneous assignment exactly when its
stores and loads are in order. -/
theorem edgeCode_assigns_iff (starts : sel.Starts sel) {terminator : EdgeTerminator}
    (edges : ∀ call ∈ terminator.calls, LinkedEdge frame call)
    (selected : ∀ edge ∈ edgeCode tier frame sel terminator, edge.2.isSome = true) :
    (∀ edge ∈ edgeCode tier frame sel terminator, ∀ sel', edge.2 = some sel' →
      Assigns frame sel sel'.code (edgePairs frame edge.1)) ↔
      terminator.InOrder tier frame sel := by
  -- an edge that was selected has one selector
  have one : ∀ {emitted : Option Selector} {property : Selector → Prop} {condition : Prop},
      emitted.isSome = true → (∀ sel', emitted = some sel' → (property sel' ↔ condition)) →
      ((∀ sel', emitted = some sel' → property sel') ↔ condition) := by
    intro emitted property condition isSome decided
    obtain ⟨sel', rfl⟩ := isSome_iff_exists.mp isSome
    simpa using decided sel' rfl
  have inlineEdge : ∀ call, LinkedEdge frame call →
      (emitEdgeStores tier frame call sel).isSome = true →
      ((∀ sel', emitEdgeStores tier frame call sel = some sel' →
        Assigns frame sel sel'.code (edgePairs frame call)) ↔ InlineEdge tier frame sel call) :=
    fun call edge isSome => one isSome fun _ emitted => edge_assigns_iff starts edge emitted
  have blockEdge : ∀ call, LinkedEdge frame call →
      (emitEdgeBlock tier frame call sel).isSome = true →
      ((∀ sel', emitEdgeBlock tier frame call sel = some sel' →
        Assigns frame sel sel'.code (edgePairs frame call)) ↔ BlockEdge tier frame sel call) :=
    fun call edge isSome => one isSome fun _ emitted => blockEdge_assigns_iff edge emitted
  cases terminator with
  | jump call | invoke call =>
    have edge := inlineEdge call (edges _ (.head _)) (selected _ (.head _))
    simpa [edgeCode, EdgeTerminator.InOrder] using edge
  | brIf thenCall elseCall =>
    have thenEdge := edges thenCall (.head _)
    have elseEdge := edges elseCall (.tail _ (.head _))
    by_cases isOr1k : tier = .or1k
    · simp only [edgeCode, isOr1k, if_true, forall_mem_cons, isSome_iff_exists] at selected
      obtain ⟨⟨thenSel, isThen⟩, ⟨elseSel, isElse⟩, -⟩ := selected
      rw [isThen, bind_some] at isElse
      have both := edges_assign_iff starts thenEdge elseEdge isThen isElse
      simp only [edgeCode, EdgeTerminator.InOrder, isOr1k, if_true, forall_mem_cons, isThen,
        bind_some, isElse, Option.some.injEq, forall_eq', not_mem_nil,
        false_imp_iff, implies_true, and_true]
      exact both
    · simp only [edgeCode, isOr1k, if_false, forall_mem_cons, not_mem_nil,
        false_imp_iff, implies_true, and_true] at selected
      have both := and_congr (blockEdge thenCall thenEdge selected.1)
        (blockEdge elseCall elseEdge selected.2)
      simpa only [edgeCode, EdgeTerminator.InOrder, isOr1k, if_false, forall_mem_cons,
        not_mem_nil, false_imp_iff, implies_true, and_true] using both
  | switch default cases =>
    have caseEdges : (∀ call ∈ cases, ∀ sel', emitEdgeBlock tier frame call sel = some sel' →
        Assigns frame sel sel'.code (edgePairs frame call)) ↔
        ∀ call ∈ cases, BlockEdge tier frame sel call := by
      refine forall₂_congr fun call mem => blockEdge call (edges call (.tail _ mem)) ?_
      exact selected (call, emitEdgeBlock tier frame call sel)
        (.tail _ (List.mem_map.mpr ⟨call, mem, rfl⟩))
    simp only [edgeCode, forall_mem_cons, List.forall_mem_map, caseEdges, EdgeTerminator.InOrder]
    apply and_congr_left'
    have isSome := selected (default, _) (.head _)
    by_cases isOr1k : tier = .or1k
    · simp only [isOr1k, if_true] at isSome ⊢
      exact isOr1k ▸ inlineEdge default (edges default (.head _)) (isOr1k ▸ isSome)
    · simp only [isOr1k, if_false] at isSome ⊢
      exact blockEdge default (edges default (.head _)) isSome

end Terminator

/-- The entry jumps to a block of two parameters, which jumps to itself with
the parameters exchanged.  They are 64-bit integers, whose type has the id 5. -/
def swapLoop : Function :=
  let f := (Function.createBlock { name := "swap", sig := 1 } [5, 5]).2
  let f := (f.createBlock [5, 5]).2
  let f := (f.makeBlockCall 2 [1, 2]).2
  let f := (f.makeBlockCall 2 [4, 3]).2
  let f := (f.makeInst .jump 0 [] 1).2
  let f := (f.makeInst .jump 0 [] 2).2
  (f.appendInst 1 1).appendInst 2 2

/-- The values of a list in the slots of their ids. -/
def slottedFrame (function : Function) (values : List ValueId)
    (computed : ∀ v ∈ values, isComputed function v = true)
    (nodup : ∀ b ∈ function.layout, (function.blockParams b).Nodup)
    (slotted : ∀ b ∈ function.layout, ∀ p ∈ function.blockParams b,
      (if p ∈ values then some p else none).isSome = true) : SelectedFrame where
  function := function
  slots v := if v ∈ values then some v else none
  frameAddrs _ := none
  isScalar _ := true
  legacyI64 _ := false
  legacyF80 _ := false
  slotsComputed := by
    intro v slot isSlot
    split at isSlot
    case isTrue isValue => exact computed v isValue
    case isFalse => cases isSlot
  slotsApart := by
    intro v w slot isLeft isRight
    split at isLeft <;> cases isLeft
    split at isRight <;> cases isRight
    rfl
  addrsApart := by
    intro v w object isLeft
    cases isLeft
  paramsNodup := nodup
  paramSlots := slotted

def swapFrame : SelectedFrame :=
  slottedFrame swapLoop [1, 2, 3, 4] (by decide) (by decide) (by decide)

/-- Where the loop jumps back nothing is cached. -/
def swapSelector : Selector where
  blockValues _ := none
  nextVreg := 1

theorem swapLoop_edge (call : BlockCallId) (isCall : call = 1 ∨ call = 2) :
    LinkedEdge swapFrame call := by
  rcases isCall with rfl | rfl
  · exact ⟨by decide, by decide⟩
  · exact ⟨by decide, by decide⟩

/-- The first iteration enters with both parameters. -/
theorem swapLoop_enters :
    swapSelector.Starts swapSelector ∧
      ∀ edge ∈ edgeCode .aarch64 swapFrame swapSelector (.jump 1), ∀ sel', edge.2 = some sel' →
        Assigns swapFrame swapSelector sel'.code (edgePairs swapFrame edge.1) := by
  have starts : swapSelector.Starts swapSelector :=
    ⟨rfl, fun _ _ cached => (nomatch cached), fun _ _ cached => cached⟩
  refine ⟨starts, (edgeCode_assigns_iff starts ?_ (by decide)).mpr ?_⟩
  · intro call mem
    exact swapLoop_edge call (.inl (mem_singleton.mp mem))
  · refine ⟨?_, ?_, trivial⟩ <;> decide

/-- The second parameter gets its own value back. -/
theorem swapLoop_not_assigns :
    ¬ ∀ edge ∈ edgeCode .aarch64 swapFrame swapSelector (.jump 2), ∀ sel', edge.2 = some sel' →
      Assigns swapFrame swapSelector sel'.code (edgePairs swapFrame edge.1) := by
  intro assigns
  have at_ : AtEdge swapFrame swapSelector (fun v => BitVec.ofNat 128 v) (fun _ => 0)
      { vregs := fun _ => 0, slots := fun slot => BitVec.ofNat 128 slot, x87 := [] } := by
    refine ⟨fun _ _ cached => (nomatch cached), ?_, fun _ _ isObject => (nomatch isObject),
      fun _ isI64 => (nomatch isI64)⟩
    intro v slot isSlot
    simp only [swapFrame, slottedFrame] at isSlot
    split at isSlot <;> cases isSlot
    rfl
  have assigned := (assigns _ (.head _) _ rfl _ _ _ at_).1 3 4 4 (by decide) (by decide)
  revert assigned
  decide

end Aburi.Backend
