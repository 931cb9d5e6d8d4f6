import Aburi.Backend.Lsda

/-!
# Actions and call sites

What the reader finds in the action table and in the call-site table.
-/

namespace Aburi.Backend.Eh

open Aburi.Lib List Nat Option

theorem sleb_length_pos (value : ℤ) : 0 < (sleb value).length := by
  rw [sleb, slebLoop]
  split
  · exact Nat.one_pos
  · exact succ_pos _

/-- A record of the action table at its offset. -/
def Recorded (offsets : List (ℕ × ℕ)) (bytes : List UInt8) (action : MEhAction) : Prop :=
  ∃ before delta after, bytes = before ++ (sleb action.filter ++ (sleb delta ++ after)) ∧
    offsets.lookup action.label = some before.length ∧
    (action.nextLabel = 0 → delta = 0) ∧
    (action.nextLabel ≠ 0 → ∃ found, offsets.lookup action.nextLabel = some found ∧
      found ≤ before.length ∧
      delta = (found : ℤ) - ((before.length + (sleb action.filter).length : ℕ) : ℤ))

/-- Records stay where they are when more follow under other labels. -/
theorem Recorded.append {offsets : List (ℕ × ℕ)} {bytes : List UInt8} {action : MEhAction}
    (recorded : Recorded offsets bytes action) {label offset : ℕ} (more : List UInt8)
    (fresh : action.label ≠ label) (other : action.nextLabel ≠ label) :
    Recorded ((label, offset) :: offsets) (bytes ++ more) action := by
  obtain ⟨before, delta, after, isBytes, isOffset, last, linked⟩ := recorded
  refine ⟨before, delta, after ++ more, ?_, ?_, last, ?_⟩
  · simp [isBytes]
  · rw [lookup_cons, beq_false_of_ne fresh]
    exact isOffset
  · intro hasNext
    obtain ⟨found, isFound, atMost, isDelta⟩ := linked hasNext
    refine ⟨found, ?_, atMost, isDelta⟩
    rw [lookup_cons, beq_false_of_ne other]
    exact isFound

/-- The table of actions whose labels count them and which refer back. -/
theorem emitActions_recorded {rest done : List MEhAction} {offsets : List (ℕ × ℕ)}
    {bytes : List UInt8}
    (labels : ∀ index (action : MEhAction), (done ++ rest)[index]? = some action →
      action.label = index + 1 ∧ action.nextLabel ≤ index)
    (recorded : ∀ action ∈ done, Recorded offsets bytes action)
    (enough : done.length ≤ bytes.length) :
    ∃ finalOffsets finalBytes, emitActions rest offsets bytes = some (finalOffsets, finalBytes) ∧
      (∀ action ∈ done ++ rest, Recorded finalOffsets finalBytes action) ∧
      (done ++ rest).length ≤ finalBytes.length := by
  induction rest generalizing done offsets bytes with
  | nil =>
    rw [append_nil]
    exact ⟨offsets, bytes, rfl, recorded, enough⟩
  | cons action rest induction =>
    have isLast : (done ++ action :: rest)[done.length]? = some action := by simp
    obtain ⟨isLabel, back⟩ := labels _ _ isLast
    -- the record that the action refers to is there
    have present : action.nextLabel ≠ 0 →
        ∃ found, ((action.label, bytes.length) :: offsets).lookup action.nextLabel =
          some found ∧ found ≤ bytes.length := by
      intro hasNext
      have small : action.nextLabel - 1 < done.length := by omega
      obtain ⟨earlier, isEarlier⟩ : ∃ earlier, done[action.nextLabel - 1]? = some earlier :=
        ⟨_, getElem?_eq_getElem small⟩
      have earlierLabel := (labels (action.nextLabel - 1) earlier (by
        rw [getElem?_append_left small, isEarlier])).1
      obtain ⟨before, delta, after, isBytes, isOffset, -⟩ :=
        recorded earlier (mem_of_getElem? isEarlier)
      refine ⟨before.length, ?_, ?_⟩
      · rw [lookup_cons, beq_false_of_ne (by omega), show action.nextLabel = earlier.label by omega]
        exact isOffset
      · rw [isBytes]
        simp
    have split : done ++ action :: rest = (done ++ [action]) ++ rest := by simp
    -- one more record, with the distance that the source computes
    have more : ∀ delta,
        (action.nextLabel = 0 → delta = 0) →
        (action.nextLabel ≠ 0 → ∃ found,
          ((action.label, bytes.length) :: offsets).lookup action.nextLabel = some found ∧
          found ≤ bytes.length ∧
          delta = (found : ℤ) - ((bytes.length + (sleb action.filter).length : ℕ) : ℤ)) →
        ∃ finalOffsets finalBytes,
          emitActions rest ((action.label, bytes.length) :: offsets)
            (bytes ++ sleb action.filter ++ sleb delta) = some (finalOffsets, finalBytes) ∧
          (∀ action' ∈ done ++ action :: rest, Recorded finalOffsets finalBytes action') ∧
          (done ++ action :: rest).length ≤ finalBytes.length := by
      intro delta last linked
      rw [split]
      apply induction
      · rw [← split]
        exact labels
      · intro other member
        rcases mem_append.mp member with older | new
        · obtain ⟨index, isOther⟩ := mem_iff_getElem?.mp older
          have small : index < done.length := (List.getElem?_eq_some_iff.mp isOther).1
          obtain ⟨otherLabel, otherBack⟩ := labels index other (by
            rw [getElem?_append_left small, isOther])
          rw [append_assoc]
          exact (recorded other older).append _ (by omega) (by omega)
        · rw [mem_singleton.mp new]
          refine ⟨bytes, delta, [], by simp, lookup_cons_self, last, linked⟩
      · have atLeast := sleb_length_pos action.filter
        simp only [length_append, length_singleton]
        omega
    rw [emitActions]
    by_cases hasNext : action.nextLabel ≠ 0
    · rw [if_pos hasNext]
      obtain ⟨found, isFound, atMost⟩ := present hasNext
      rw [isFound]
      dsimp only
      apply more
      · exact fun isZero => absurd isZero hasNext
      · intro _
        refine ⟨found, isFound, atMost, ?_⟩
        rw [length_append]
    · rw [if_neg hasNext]
      apply more
      · exact fun _ => rfl
      · exact fun hasNext' => absurd hasNext' hasNext

section

variable {out : EhActions} (linked : Linked out) {label : ℕ} {filters : List ℤ}
  (chain : Chain out.ehActions label filters)
include linked chain

theorem Chain.length_le : filters.length ≤ label := by
  induction filters generalizing label with
  | nil => exact Nat.zero_le _
  | cons filter filters induction =>
    obtain ⟨nextLabel, member, rest⟩ := chain
    obtain ⟨index, isAction⟩ := mem_iff_getElem?.mp member
    obtain ⟨isLabel, back⟩ := linked.label index _ isAction
    have := induction rest
    dsimp only at isLabel back
    rw [length_cons]
    omega

theorem Chain.label_le : label ≤ out.ehActions.length := by
  cases filters with
  | nil =>
    rw [show label = 0 from chain]
    exact Nat.zero_le _
  | cons filter filters =>
    obtain ⟨nextLabel, member, -⟩ := chain
    obtain ⟨index, isAction⟩ := mem_iff_getElem?.mp member
    have small := (List.getElem?_eq_some_iff.mp isAction).1
    have isLabel := (linked.label index _ isAction).1
    dsimp only at isLabel
    omega

end

/-- The reader follows a chain from the offset of its label. -/
theorem readChain_eq {out : EhActions} (linked : Linked out) {offsets : List (ℕ × ℕ)}
    {bytes : List UInt8} (recorded : ∀ action ∈ out.ehActions, Recorded offsets bytes action)
    (tail : List UInt8) {filters : List ℤ} {label fuel : ℕ}
    (chain : Chain out.ehActions label filters) (nonempty : filters ≠ [])
    (enough : filters.length ≤ fuel) :
    ∃ offset, offsets.lookup label = some offset ∧
      readChain (bytes ++ tail) fuel offset = some filters := by
  induction filters generalizing label fuel with
  | nil => exact absurd rfl nonempty
  | cons filter filters induction =>
    obtain ⟨nextLabel, member, rest⟩ := chain
    obtain ⟨before, delta, after, isBytes, isOffset, last, links⟩ := recorded _ member
    dsimp only at isBytes isOffset last links
    refine ⟨before.length, isOffset, ?_⟩
    cases fuel with
    | zero => cases enough
    | succ fuel =>
      have here : (bytes ++ tail).drop before.length =
          sleb filter ++ (sleb delta ++ (after ++ tail)) := by
        rw [isBytes, append_assoc, drop_left, append_assoc, append_assoc]
      have field : (bytes ++ tail).length - (sleb delta ++ (after ++ tail)).length =
          before.length + (sleb filter).length := by
        rw [isBytes]
        simp only [length_append]
        omega
      rw [readChain, here, readSleb_sleb]
      simp only [bind_eq_bind, bind_some]
      rw [readSleb_sleb, field]
      simp only [bind_some]
      by_cases isLast : nextLabel = 0
      · rw [if_pos (last isLast)]
        cases filters with
        | nil => rfl
        | cons next filters =>
          obtain ⟨further, isAction, -⟩ := rest
          obtain ⟨index, isIndex⟩ := mem_iff_getElem?.mp isAction
          have := (linked.label index _ isIndex).1
          dsimp only at this
          omega
      · obtain ⟨found, isFound, atMost, isDelta⟩ := links isLast
        have positive := sleb_length_pos filter
        rw [if_neg (by omega)]
        have goesOn : filters ≠ [] := by
          intro isEmpty
          rw [isEmpty] at rest
          exact isLast rest
        obtain ⟨offset, isOffset', read⟩ := induction rest goesOn (le_of_succ_le_succ enough)
        rw [isFound] at isOffset'
        cases isOffset'
        have target : (((before.length + (sleb filter).length : ℕ) : ℤ) + delta).toNat =
            found := by omega
        rw [target, read]
        rfl

/-- Sites in the order of their addresses, none empty, none reaching into the
next. -/
def Ordered (functionEnd : ℕ) : ℕ → List ResolvedCallSite → Prop
  | previous, [] => previous ≤ functionEnd
  | previous, site :: sites =>
    previous ≤ site.beginOffset ∧ site.beginOffset < site.endOffset ∧
      Ordered functionEnd site.endOffset sites

theorem Ordered.le_begin {functionEnd previous : ℕ} {sites : List ResolvedCallSite}
    (ordered : Ordered functionEnd previous sites) :
    ∀ site ∈ sites, previous ≤ site.beginOffset := by
  induction sites generalizing previous with
  | nil => exact fun _ absent => absurd absent not_mem_nil
  | cons first sites induction =>
    intro site member
    obtain ⟨starts, nonempty, further⟩ := ordered
    rcases mem_cons.mp member with rfl | later
    · exact starts
    · have := induction further site later
      omega

theorem uleb_length_pos (value : ℕ) : 0 < (uleb value).length := by
  rw [uleb, ulebLoop]
  split
  · exact Nat.one_pos
  · exact succ_pos _

theorem findSite_appendRange {beginOffset endOffset landingPad action fuel address : ℕ}
    (rest : List UInt8) (nonempty : beginOffset < endOffset) :
    findSite (fuel + 1) (appendRange beginOffset endOffset landingPad action ++ rest) address =
      if address < beginOffset then none
      else if address < endOffset then some (landingPad, action)
      else findSite fuel rest address := by
  rw [appendRange, if_neg (Nat.not_le.mpr nonempty), findSite, append_assoc,
    append_assoc, append_assoc, readUleb_uleb]
  simp only [bind_eq_bind, bind_some]
  rw [readUleb_uleb]
  simp only [bind_some]
  rw [readUleb_uleb]
  simp only [bind_some]
  rw [readUleb_uleb]
  simp only [bind_some]
  rw [Nat.add_sub_cancel' nonempty.le]

theorem appendRange_length {beginOffset endOffset landingPad action : ℕ}
    (nonempty : beginOffset < endOffset) :
    0 < (appendRange beginOffset endOffset landingPad action).length := by
  rw [appendRange, if_neg (Nat.not_le.mpr nonempty)]
  have := uleb_length_pos beginOffset
  simp only [length_append]
  omega

theorem appendRange_empty {beginOffset endOffset landingPad action : ℕ}
    (empty : endOffset ≤ beginOffset) :
    appendRange beginOffset endOffset landingPad action = [] := if_pos empty

section

variable {beginOffset endOffset landingPad action fuel address : ℕ} (rest : List UInt8)
include rest

theorem findSite_skip (after : endOffset ≤ address) {found : Option (ℕ × ℕ)}
    (enough : (appendRange beginOffset endOffset landingPad action ++ rest).length ≤ fuel)
    (onRest : ∀ fuel', rest.length ≤ fuel' → findSite fuel' rest address = found) :
    findSite fuel (appendRange beginOffset endOffset landingPad action ++ rest) address = found := by
  rcases Nat.lt_or_ge beginOffset endOffset with nonempty | empty
  · have positive := @appendRange_length beginOffset endOffset landingPad action nonempty
    rw [length_append] at enough
    obtain ⟨fuel, rfl⟩ := exists_eq_succ_of_ne_zero (show fuel ≠ 0 by omega)
    rw [findSite_appendRange rest nonempty, if_neg (by omega), if_neg (by omega)]
    exact onRest fuel (by omega)
  · rw [appendRange_empty empty] at enough ⊢
    exact onRest fuel enough

theorem findSite_front (atLeast : beginOffset ≤ address) (before : address < endOffset)
    (enough : (appendRange beginOffset endOffset landingPad action ++ rest).length ≤ fuel) :
    findSite fuel (appendRange beginOffset endOffset landingPad action ++ rest) address =
      some (landingPad, action) := by
  have nonempty := Nat.lt_of_le_of_lt atLeast before
  have positive := @appendRange_length beginOffset endOffset landingPad action nonempty
  rw [length_append] at enough
  obtain ⟨fuel, rfl⟩ := exists_eq_succ_of_ne_zero (show fuel ≠ 0 by omega)
  rw [findSite_appendRange rest nonempty, if_neg (by omega), if_pos before]

end

theorem siteTable_spec {start functionEnd previous : ℕ} {sites : List ResolvedCallSite}
    (ordered : Ordered functionEnd previous sites) (within : start ≤ previous) :
    ∃ bytes, siteTable start functionEnd previous sites = some bytes ∧
      ∀ address fuel, previous ≤ address → address < functionEnd → bytes.length ≤ fuel →
        (∀ site ∈ sites, site.beginOffset ≤ address → address < site.endOffset →
          findSite fuel bytes (address - start) = some (site.landingPad - start, site.action)) ∧
        ((∀ site ∈ sites, address < site.beginOffset ∨ site.endOffset ≤ address) →
          findSite fuel bytes (address - start) = some (0, 0)) := by
  induction sites generalizing previous with
  | nil =>
    refine ⟨_, rfl, ?_⟩
    intro address fuel atLeast before enough
    constructor
    · intro site member
      cases member
    · intro _
      have front := @findSite_front (previous - start) (functionEnd - start) 0 0 fuel
        (address - start) [] (by omega) (by omega)
      rw [append_nil] at front
      exact front enough
  | cons site sites induction =>
    obtain ⟨starts, nonempty, further⟩ := ordered
    obtain ⟨rest, isRest, onRest⟩ := induction further (by omega)
    refine ⟨appendRange (previous - start) (site.beginOffset - start) 0 0 ++
      (appendRange (site.beginOffset - start) (site.endOffset - start)
        (site.landingPad - start) site.action ++ rest), ?_, ?_⟩
    · rw [siteTable, if_neg (Nat.not_lt.mpr starts), isRest]
      rfl
    · intro address fuel atLeast before enough
      rcases Nat.lt_or_ge address site.beginOffset with inGap | reaches
      · -- the gap before the site
        constructor
        · intro other member begins ends
          rcases mem_cons.mp member with rfl | later
          · omega
          · have := further.le_begin other later
            omega
        · intro _
          exact findSite_front _ (by omega) (by omega) enough
      · -- at or behind the site
        have skipped := fun found onRest' =>
          @findSite_skip (previous - start) (site.beginOffset - start) 0 0 fuel (address - start)
            (appendRange (site.beginOffset - start) (site.endOffset - start)
              (site.landingPad - start) site.action ++ rest) (by omega) found enough onRest'
        rcases Nat.lt_or_ge address site.endOffset with inSite | behind
        · constructor
          · intro other member begins ends
            rcases mem_cons.mp member with rfl | later
            · apply skipped
              intro fuel' enough'
              exact findSite_front _ (by omega) (by omega) enough'
            · have := further.le_begin other later
              omega
          · intro none
            have := none site mem_cons_self
            omega
        · have onRest' := fun found onRest' =>
            skipped found fun fuel' enough' =>
              findSite_skip _ (by omega) enough' onRest'
          constructor
          · intro other member begins ends
            rcases mem_cons.mp member with rfl | inRest
            · omega
            · apply onRest'
              intro fuel' enough'
              exact (onRest address fuel' behind before enough').1 other inRest begins ends
          · intro none
            apply onRest'
            intro fuel' enough'
            exact (onRest address fuel' behind before enough').2
              fun other inRest => none other (mem_cons_of_mem _ inRest)

end Aburi.Backend.Eh
