import Aburi.Backend.RegAllocFast

/-!
# Steps of the fast allocator

The two register maps stay inverse to each other, and each primitive step of
the walk (spill, eviction, register search) changes the binding of at most
one register and inserts only instructions that name it.
-/

namespace Aburi.Backend.FastRegAllocator

variable {Op : Type}

/-- A virtual register is bound to a physical one iff the latter holds it. -/
def AllocState.Coherent (state : AllocState) : Prop :=
  ∀ vreg phys, state.vregToPhys.lookup vreg = some phys ↔ state.physToVreg.lookup phys = some vreg

variable {vreg phys : Nat}

namespace AllocState

theorem Coherent.empty : Coherent {} := by
  intro vreg phys
  simp

variable {state : AllocState}

theorem Coherent.assign (coherent : state.Coherent) (unbound : state.vregToPhys.lookup vreg = none)
    (free : state.physToVreg.lookup phys = none) :
    (state.assign vreg phys).Coherent := by
  intro otherVreg otherPhys
  by_cases sameVreg : otherVreg = vreg
  · subst otherVreg
    by_cases samePhys : otherPhys = phys
    · subst otherPhys
      simp [AllocState.assign]
    · have notHeld : state.physToVreg.lookup otherPhys ≠ some vreg := by
        intro held
        have bound := (coherent vreg otherPhys).mpr held
        rw [unbound] at bound
        cases bound
      simp [AllocState.assign, AList.lookup_insert_ne samePhys, notHeld, Ne.symm samePhys]
  · by_cases samePhys : otherPhys = phys
    · subst otherPhys
      have notBound : state.vregToPhys.lookup otherVreg ≠ some phys := by
        intro bound
        have held := (coherent otherVreg phys).mp bound
        rw [free] at held
        cases held
      simp [AllocState.assign, AList.lookup_insert_ne sameVreg, notBound, Ne.symm sameVreg]
    · simpa [AllocState.assign, AList.lookup_insert_ne sameVreg,
        AList.lookup_insert_ne samePhys] using coherent otherVreg otherPhys

theorem Coherent.unassign (coherent : state.Coherent) (vreg : Nat) :
    (state.unassign vreg).Coherent := by
  unfold AllocState.unassign
  cases bound : state.vregToPhys.lookup vreg with
  | none => exact coherent
  | some phys =>
    have held := (coherent vreg phys).mp bound
    intro otherVreg otherPhys
    by_cases sameVreg : otherVreg = vreg
    · subst otherVreg
      by_cases samePhys : otherPhys = phys
      · subst otherPhys
        simp
      · have notHeld : state.physToVreg.lookup otherPhys ≠ some vreg := by
          intro otherHeld
          have otherBound := (coherent vreg otherPhys).mpr otherHeld
          rw [bound] at otherBound
          exact samePhys (Option.some.inj otherBound).symm
        simp [AList.lookup_erase_ne samePhys, notHeld]
    · by_cases samePhys : otherPhys = phys
      · subst otherPhys
        have notBound : state.vregToPhys.lookup otherVreg ≠ some phys := by
          intro otherBound
          have otherHeld := (coherent otherVreg phys).mp otherBound
          rw [held] at otherHeld
          exact sameVreg (Option.some.inj otherHeld).symm
        simp [AList.lookup_erase_ne sameVreg, notBound]
      · simpa [AList.lookup_erase_ne sameVreg, AList.lookup_erase_ne samePhys] using
          coherent otherVreg otherPhys

theorem unassign_physToVreg_none (free : state.physToVreg.lookup phys = none) (vreg : Nat) :
    (state.unassign vreg).physToVreg.lookup phys = none := by
  unfold AllocState.unassign
  cases state.vregToPhys.lookup vreg with
  | none => exact free
  | some held =>
    by_cases same : phys = held
    · subst held
      simp
    · simpa [AList.lookup_erase_ne same] using free

theorem unassign_frees (coherent : state.Coherent)
    (held : state.physToVreg.lookup phys = some vreg) :
    (state.unassign vreg).physToVreg.lookup phys = none := by
  have bound := (coherent vreg phys).mpr held
  simp [AllocState.unassign, bound]

theorem unassign_vregToPhys_none (unbound : state.vregToPhys.lookup vreg = none) (other : Nat) :
    (state.unassign other).vregToPhys.lookup vreg = none := by
  unfold AllocState.unassign
  cases bound : state.vregToPhys.lookup other with
  | none => exact unbound
  | some phys =>
    have different : vreg ≠ other := by
      intro same
      subst other
      rw [unbound] at bound
      cases bound
    simpa [AList.lookup_erase_ne different] using unbound

end AllocState

/-- `inst` has physical register `r` among its operands. -/
def Names (r : Nat) (inst : MInst Op) : Prop :=
  MOperand.reg (.phys r) ∈ inst.operands

namespace InstState

@[simp] theorem insertMem_vregToPhys (opcode : Op) (vreg phys : Nat)
    (current : InstState Op) :
    (current.insertMem opcode vreg phys).state.vregToPhys = current.state.vregToPhys := by
  unfold insertMem spillSlotFor
  cases current.state.spillSlots.lookup vreg <;> rfl

@[simp] theorem insertMem_physToVreg (opcode : Op) (vreg phys : Nat)
    (current : InstState Op) :
    (current.insertMem opcode vreg phys).state.physToVreg = current.state.physToVreg := by
  unfold insertMem spillSlotFor
  cases current.state.spillSlots.lookup vreg <;> rfl

theorem insertMem_inserted (opcode : Op) (vreg phys : Nat)
    (current : InstState Op) :
    ∃ access, (current.insertMem opcode vreg phys).inserted = current.inserted ++ [access] ∧
      ∀ r, Names r access ↔ r = phys := by
  unfold insertMem spillSlotFor
  cases current.state.spillSlots.lookup vreg with
  | none | some slot => exact ⟨_, rfl, by simp [Names]⟩

variable {current : InstState Op}

theorem insertMem_coherent (coherent : current.state.Coherent) (opcode : Op) (vreg phys : Nat) :
    (current.insertMem opcode vreg phys).state.Coherent := by
  intro otherVreg otherPhys
  simpa using coherent otherVreg otherPhys

theorem evictPhys_held (target : Target Op)
    (held : current.state.physToVreg.lookup phys = some vreg) :
    current.evictPhys target phys = (current.makeSpill target vreg phys).unassign vreg := by
  simp [evictPhys, held]

theorem evictPhys_free (target : Target Op) (free : current.state.physToVreg.lookup phys = none) :
    current.evictPhys target phys = current := by
  simp [evictPhys, free]

theorem evictPhys_coherent (target : Target Op) (coherent : current.state.Coherent) (phys : Nat) :
    (current.evictPhys target phys).state.Coherent := by
  cases held : current.state.physToVreg.lookup phys with
  | none =>
    rw [evictPhys_free target held]
    exact coherent
  | some vreg =>
    rw [evictPhys_held target held]
    exact AllocState.Coherent.unassign (insertMem_coherent coherent _ vreg phys) vreg

theorem evictPhys_frees (target : Target Op) (coherent : current.state.Coherent) (phys : Nat) :
    (current.evictPhys target phys).state.physToVreg.lookup phys = none := by
  cases held : current.state.physToVreg.lookup phys with
  | none =>
    rw [evictPhys_free target held]
    exact held
  | some vreg =>
    rw [evictPhys_held target held]
    exact AllocState.unassign_frees
      (insertMem_coherent coherent _ vreg phys) (by simpa [makeSpill] using held)

theorem evictPhys_keeps_free (target : Target Op) {r : Nat}
    (free : current.state.physToVreg.lookup r = none) (phys : Nat) :
    (current.evictPhys target phys).state.physToVreg.lookup r = none := by
  cases held : current.state.physToVreg.lookup phys with
  | none =>
    rw [evictPhys_free target held]
    exact free
  | some vreg =>
    rw [evictPhys_held target held]
    exact AllocState.unassign_physToVreg_none (by simpa [makeSpill] using free) vreg

theorem evictPhys_keeps_unbound (target : Target Op)
    (unbound : current.state.vregToPhys.lookup vreg = none) (phys : Nat) :
    (current.evictPhys target phys).state.vregToPhys.lookup vreg = none := by
  cases held : current.state.physToVreg.lookup phys with
  | none =>
    rw [evictPhys_free target held]
    exact unbound
  | some other =>
    rw [evictPhys_held target held]
    exact AllocState.unassign_vregToPhys_none (by simpa [makeSpill] using unbound) other

/-- Eviction inserts nothing, or one store of the evicted register. -/
theorem evictPhys_inserted (target : Target Op) (current : InstState Op)
    (phys : Nat) :
    ∃ spills, (current.evictPhys target phys).inserted = current.inserted ++ spills ∧
      ∀ spill ∈ spills, ∀ r, Names r spill → r = phys := by
  cases held : current.state.physToVreg.lookup phys with
  | none => exact ⟨[], by simp [evictPhys_free target held]⟩
  | some vreg =>
    rw [evictPhys_held target held]
    obtain ⟨spill, inserted, named⟩ := insertMem_inserted
      (target.hooks.spillOpcode (current.function.vregClass vreg))
      vreg phys current
    refine ⟨[spill], inserted, ?_⟩
    intro other member r names
    rw [List.mem_singleton.mp member] at names
    exact (named r).mp names

/-- The register the two searches of `allocate` come to for `vreg`. -/
def searchResult (target : Target Op) (vreg : Nat)
    (current : InstState Op) : Nat :=
  let cls := current.function.vregClass vreg
  let order := target.order cls
  ((order.find? (current.isFree target cls)).or
    (order.find? fun phys => !current.isPinned phys)).getD 0

theorem allocate_fst (target : Target Op) (vreg : Nat)
    (current : InstState Op) :
    (current.allocate target vreg).1 = current.searchResult target vreg := by
  unfold allocate searchResult
  cases free : (target.order (current.function.vregClass vreg)).find?
      (current.isFree target (current.function.vregClass vreg)) with
  | some phys => simp [free]
  | none =>
    cases unpinned : (target.order (current.function.vregClass vreg)).find?
        (fun phys => !current.isPinned phys) with
    | some phys | none => simp [free, unpinned]

theorem find?_ne_some_iff {accepts : Nat → Bool} {order : List Nat} {r : Nat} :
    order.find? accepts ≠ some r ↔
      (r ∈ order → accepts r = true →
        ∃ phys ∈ order.takeWhile (· != r), accepts phys = true) := by
  induction order with
  | nil => simp
  | cons first rest ih =>
    by_cases same : first = r
    · subst same
      cases accepted : accepts first with
      | true => simp [accepted]
      | false =>
        have never : rest.find? accepts ≠ some first := by
          intro found
          have taken := List.find?_some found
          rw [accepted] at taken
          cases taken
        simp [accepted, never]
    · cases accepted : accepts first with
      | true => simp [accepted, same]
      | false =>
        rw [List.find?_cons_of_neg (by simp [accepted]), ih]
        simp [same, Ne.symm same, accepted]

/-- Registers that a search takes without an eviction. -/
structure Vacant (regs : TargetRegInfo) (cls : RegClass) (current : InstState Op)
    (phys : Nat) : Prop where
  unnamed : phys ∉ current.pinned
  empty : current.state.physToVreg.lookup phys = none
  lowered : cls = .fpr128 → regs.isCalleeSaved phys = false

/-- The order has enough in front of `r`: another register that can be taken if `r`
can, another one to evict if none can be taken, and any to evict at all where `r` is the
answer of the search that finds none. -/
structure StopsBefore (regs : TargetRegInfo) (cls : RegClass) (r : Nat)
    (current : InstState Op) : Prop where
  vacant : r ∈ regs.tried cls → Vacant regs cls current r →
    ∃ phys ∈ (regs.tried cls).takeWhile (· != r), Vacant regs cls current phys
  evicted : r ∈ regs.tried cls → r ∉ current.pinned →
    (∀ phys ∈ regs.tried cls, ¬ Vacant regs cls current phys) →
    ∃ phys ∈ (regs.tried cls).takeWhile (· != r), phys ∉ current.pinned
  fallback : r = 0 → ∃ phys ∈ regs.tried cls, phys ∉ current.pinned

theorem isFree_iff {target : Target Op} {cls : RegClass} {phys : Nat} :
    current.isFree target cls phys = true ↔ Vacant target.regs cls current phys := by
  constructor
  · intro free
    simp only [isFree, isPinned, Bool.and_eq_true, Bool.not_eq_true', List.contains_eq_mem,
      decide_eq_false_iff_not, Bool.and_eq_false_iff, beq_eq_false_iff_ne,
      Option.isNone_iff_eq_none] at free
    exact ⟨free.1.1, free.2, fun wide => free.1.2.resolve_left (fun other => other wide)⟩
  · intro vacant
    have lowered := vacant.lowered
    simp only [isFree, isPinned, Bool.and_eq_true, Bool.not_eq_true', List.contains_eq_mem,
      decide_eq_false_iff_not, Bool.and_eq_false_iff, beq_eq_false_iff_ne,
      Option.isNone_iff_eq_none]
    refine ⟨⟨vacant.unnamed, ?_⟩, vacant.empty⟩
    by_cases wide : cls = .fpr128
    · exact .inr (lowered wide)
    · exact .inl wide

theorem order_eq_tried (target : Target Op) (cls : RegClass) :
    target.order cls = target.regs.tried cls := by
  cases cls <;> rfl

/-- What the two searches come to, told by the order and the registers that are named
and held. -/
theorem searchResult_ne_iff {target : Target Op} {vreg r : Nat} :
    current.searchResult target vreg ≠ r ↔
      StopsBefore target.regs (current.function.vregClass vreg) r current := by
  have first := @find?_ne_some_iff
    (current.isFree target (current.function.vregClass vreg))
    (target.regs.tried (current.function.vregClass vreg)) r
  have second := @find?_ne_some_iff (fun phys => !current.isPinned phys)
    (target.regs.tried (current.function.vregClass vreg)) r
  simp only [isFree_iff] at first
  simp only [isPinned, List.contains_eq_mem, Bool.not_eq_true', decide_eq_false_iff_not] at second
  simp only [searchResult, order_eq_tried]
  cases free : (target.regs.tried (current.function.vregClass vreg)).find?
      (current.isFree target (current.function.vregClass vreg)) with
  | some found =>
    have vacant := isFree_iff.mp (List.find?_some free)
    have tried := List.mem_of_find?_eq_some free
    rw [free] at first
    simp only [Option.some_or, Option.getD_some]
    constructor
    · intro different
      refine ⟨first.mp (by simpa using different), ?_, fun _ => ⟨found, tried, vacant.unnamed⟩⟩
      exact fun _ _ none => absurd vacant (none found tried)
    · intro stops
      simpa using first.mpr stops.vacant
  | none =>
    have none : ∀ phys ∈ target.regs.tried (current.function.vregClass vreg),
        ¬ Vacant target.regs (current.function.vregClass vreg) current phys := by
      intro phys tried vacant
      exact List.find?_eq_none.mp free phys tried (isFree_iff.mpr vacant)
    rw [Option.none_or]
    cases unpinned : (target.regs.tried (current.function.vregClass vreg)).find?
        (fun phys => !current.isPinned phys) with
    | some found =>
      have tried := List.mem_of_find?_eq_some unpinned
      have unnamed : found ∉ current.pinned := by
        simpa [isPinned] using List.find?_some unpinned
      simp only [isPinned, List.contains_eq_mem] at unpinned
      rw [unpinned] at second
      rw [Option.getD_some]
      constructor
      · intro different
        refine ⟨fun inOrder vacant => absurd vacant (none r inOrder), ?_,
          fun _ => ⟨found, tried, unnamed⟩⟩
        exact fun inOrder isUnnamed _ =>
          second.mp (by simpa using different) inOrder isUnnamed
      · intro stops
        have other := second.mpr fun inOrder isUnnamed => stops.evicted inOrder isUnnamed none
        simpa using other
    | none =>
      have named : ∀ phys ∈ target.regs.tried (current.function.vregClass vreg),
          phys ∈ current.pinned := by
        intro phys tried
        simpa [isPinned] using List.find?_eq_none.mp unpinned phys tried
      rw [Option.getD_none]
      constructor
      · intro different
        refine ⟨fun inOrder vacant => absurd vacant (none r inOrder), ?_, ?_⟩
        · exact fun inOrder unnamed _ => absurd (named r inOrder) unnamed
        · exact fun zero => absurd zero.symm different
      · rintro stops rfl
        obtain ⟨phys, tried, unnamed⟩ := stops.fallback rfl
        exact unnamed (named phys tried)

theorem take_coherent (target : Target Op) (coherent : current.state.Coherent)
    (unbound : current.state.vregToPhys.lookup vreg = none)
    (free : current.state.physToVreg.lookup phys = none) :
    (current.take target vreg phys).state.Coherent :=
  AllocState.Coherent.assign coherent unbound free

theorem take_keeps_free (target : Target Op) {r : Nat}
    (free : current.state.physToVreg.lookup r = none) (different : phys ≠ r) :
    (current.take target vreg phys).state.physToVreg.lookup r = none := by
  simpa [take, AllocState.assign, AList.lookup_insert_ne (Ne.symm different)] using free

/-- The three outcomes of `allocate`: a free register, an evicted one, or the
fallback that binds nothing. -/
theorem allocate_cases (target : Target Op) (vreg : Nat)
    (current : InstState Op) :
    (∃ phys, current.state.physToVreg.lookup phys = none ∧
        current.allocate target vreg = (phys, current.take target vreg phys)) ∨
      (∃ phys, current.allocate target vreg =
          (phys, (current.evictPhys target phys).take target vreg phys)) ∨
      current.allocate target vreg = (0, current) := by
  unfold allocate
  cases search : (target.order (current.function.vregClass vreg)).find?
      (current.isFree target (current.function.vregClass vreg)) with
  | some phys =>
    left
    have isFree := List.find?_some search
    simp only [InstState.isFree, Bool.and_eq_true, Option.isNone_iff_eq_none] at isFree
    exact ⟨phys, isFree.2, by simp [search]⟩
  | none =>
    right
    cases unpinned : (target.order (current.function.vregClass vreg)).find?
        (fun phys => !current.isPinned phys) with
    | some phys => exact .inl ⟨phys, by simp [search, unpinned]⟩
    | none => exact .inr (by simp [search, unpinned])

theorem allocate_coherent (target : Target Op) (coherent : current.state.Coherent)
    (unbound : current.state.vregToPhys.lookup vreg = none) :
    (current.allocate target vreg).2.state.Coherent := by
  rcases allocate_cases target vreg current with
    ⟨phys, free, equality⟩ | ⟨phys, equality⟩ | equality
  · rw [equality]
    exact take_coherent target coherent unbound free
  · rw [equality]
    exact take_coherent target (evictPhys_coherent target coherent phys)
      (evictPhys_keeps_unbound target unbound phys)
      (evictPhys_frees target coherent phys)
  · rw [equality]
    exact coherent

theorem allocate_keeps_free (target : Target Op) {r : Nat}
    (free : current.state.physToVreg.lookup r = none)
    (avoids : current.searchResult target vreg ≠ r) :
    (current.allocate target vreg).2.state.physToVreg.lookup r = none := by
  rw [← allocate_fst] at avoids
  rcases allocate_cases target vreg current with
    ⟨phys, _, equality⟩ | ⟨phys, equality⟩ | equality
  · rw [equality] at avoids ⊢
    exact take_keeps_free target free avoids
  · rw [equality] at avoids ⊢
    exact take_keeps_free target (evictPhys_keeps_free target free phys) avoids
  · rw [equality]
    exact free

/-- Instructions that `allocate` inserts never name a register that holds no
virtual register. -/
theorem allocate_inserted (target : Target Op) (vreg : Nat)
    (current : InstState Op) :
    ∃ spills, (current.allocate target vreg).2.inserted = current.inserted ++ spills ∧
      ∀ spill ∈ spills, ∀ r, current.state.physToVreg.lookup r = none → ¬Names r spill := by
  rcases allocate_cases target vreg current with
    ⟨phys, _, equality⟩ | ⟨phys, equality⟩ | equality
  · exact ⟨[], by simp [equality, take], by simp⟩
  · obtain ⟨spills, inserted, named⟩ := evictPhys_inserted target current phys
    refine ⟨spills, by simpa [equality, take] using inserted, ?_⟩
    intro spill member r free names
    have same := named spill member r names
    subst same
    rw [evictPhys_free target free] at inserted
    have empty : spills = [] := by simpa using inserted
    simp [empty] at member
  · exact ⟨[], by simp [equality], by simp⟩

end InstState

end Aburi.Backend.FastRegAllocator
