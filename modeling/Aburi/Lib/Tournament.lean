import Mathlib.Data.List.Perm.Basic

/-!
# A winner by comparisons

One pass over a list keeps an element until a better one comes; the element kept at the
end wins when it is better than all the others.  Where no two elements are each better
than the other, the winner is the one element that is better than all the others, in
whatever order the list is.
-/

namespace Aburi.Lib

open List

variable {α : Type} (better : α → α → Bool)

/-- The element kept at the end, and those passed over. -/
def champion (best : α) (passed : List α) : List α → α × List α
  | [] => (best, passed)
  | next :: rest =>
    if better next best then champion next (best :: passed) rest
    else champion best (next :: passed) rest

def winner : List α → Option α
  | [] => none
  | first :: rest =>
    let (best, passed) := champion better first [] rest
    if passed.all (better best) then some best else none

/-- The element is in the list and better than all the others. -/
def Beats (list : List α) (element : α) : Prop :=
  ∃ others, list.Perm (element :: others) ∧ ∀ other ∈ others, better element other = true

/-- No two elements are each better than the other. -/
def AsymmetricOn (list : List α) : Prop :=
  ∀ first ∈ list, ∀ second ∈ list, better first second = true → better second first = false

variable {better}

variable {list : List α} {element : α}

theorem Beats.mem (beats : Beats better list element) :
    element ∈ list := by
  obtain ⟨others, perm, _⟩ := beats
  exact perm.mem_iff.mpr mem_cons_self

theorem Beats.perm {list' : List α} (beats : Beats better list element) (perm : list.Perm list') :
    Beats better list' element := by
  obtain ⟨others, split, above⟩ := beats
  exact ⟨others, perm.symm.trans split, above⟩

theorem AsymmetricOn.perm {list' : List α} (asymmetric : AsymmetricOn better list)
    (perm : list.Perm list') : AsymmetricOn better list' := by
  intro first firstMember second secondMember
  exact asymmetric first (perm.mem_iff.mpr firstMember) second (perm.mem_iff.mpr secondMember)

theorem Beats.unique (asymmetric : AsymmetricOn better list) {first second : α}
    (beats : Beats better list first) (otherBeats : Beats better list second) : first = second := by
  by_contra different
  obtain ⟨others, perm, above⟩ := beats
  obtain ⟨others', perm', above'⟩ := otherBeats
  have secondMember := perm'.mem_iff.mpr (mem_cons_self (a := second) (l := others'))
  have firstMember := perm.mem_iff.mpr (mem_cons_self (a := first) (l := others))
  have firstAbove : better first second = true := by
    rcases mem_cons.mp (perm.mem_iff.mp secondMember) with same | member
    · exact absurd same.symm different
    · exact above second member
  have secondAbove : better second first = true := by
    rcases mem_cons.mp (perm'.mem_iff.mp firstMember) with same | member
    · exact absurd same different
    · exact above' first member
  have contradictory := asymmetric first firstMember second secondMember firstAbove
  rw [secondAbove] at contradictory
  contradiction

theorem champion_cons (best next : α) (passed rest : List α) :
    champion better best passed (next :: rest) =
      if better next best then champion better next (best :: passed) rest
      else champion better best (next :: passed) rest :=
  rfl

theorem champion_perm (rest : List α) (best : α) (passed : List α) :
    ((champion better best passed rest).1 :: (champion better best passed rest).2).Perm
      (best :: (passed ++ rest)) := by
  induction rest generalizing best passed with
  | nil => simp [champion]
  | cons next rest induction =>
    rw [champion_cons]
    split
    · apply (induction next (best :: passed)).trans
      have moved := (@perm_middle _ next (best :: passed) rest).symm
      simpa using moved
    · apply (induction best (next :: passed)).trans
      apply List.Perm.cons
      exact perm_middle.symm

theorem champion_keeps {rest : List α} {best : α} (passed : List α)
    (notAbove : ∀ other ∈ rest, better other best = false) :
    (champion better best passed rest).1 = best := by
  induction rest generalizing passed with
  | nil => rfl
  | cons next rest induction =>
    rw [champion_cons, if_neg (by simp [notAbove next mem_cons_self])]
    exact induction _ fun other member => notAbove other (mem_cons_of_mem _ member)

theorem champion_reaches {before after : List α} {best : α} (passed : List α)
    (aboveBest : better element best = true)
    (aboveBefore : ∀ other ∈ before, better element other = true)
    (notAbove : ∀ other ∈ after, better other element = false) :
    (champion better best passed (before ++ element :: after)).1 = element := by
  induction before generalizing best passed with
  | nil =>
    rw [nil_append, champion_cons, if_pos aboveBest]
    exact champion_keeps _ notAbove
  | cons next rest induction =>
    have aboveRest : ∀ other ∈ rest, better element other = true :=
      fun other member => aboveBefore other (mem_cons_of_mem _ member)
    rw [List.cons_append, champion_cons]
    split
    · exact induction _ (aboveBefore next mem_cons_self) aboveRest
    · exact induction _ aboveBest aboveRest

theorem beats_of_winner (wins : winner better list = some element) : Beats better list element := by
  cases list with
  | nil => contradiction
  | cons first rest =>
    have perm := @champion_perm α better rest first []
    unfold winner at wins
    dsimp only at wins
    split at wins
    · rename_i above
      obtain rfl := Option.some.inj wins
      exact ⟨_, perm.symm, List.all_eq_true.mp above⟩
    · contradiction

theorem champion_of_beats {first : α} {rest : List α}
    (asymmetric : AsymmetricOn better (first :: rest))
    (beats : Beats better (first :: rest) element) :
    (champion better first [] rest).1 = element := by
  have member := beats.mem
  obtain ⟨others, perm, above⟩ := beats
  have notAbove : ∀ other ∈ others, better other element = false := by
    intro other otherMember
    exact asymmetric element member other
      (perm.mem_iff.mpr (mem_cons_of_mem _ otherMember)) (above other otherMember)
  rcases mem_cons.mp member with rfl | later
  · have same : rest.Perm others := List.Perm.cons_inv perm
    exact champion_keeps _ fun other isIn => notAbove other (same.mem_iff.mp isIn)
  · obtain ⟨before, after, rfl⟩ := append_of_mem later
    have moved : (element :: (first :: before ++ after)).Perm (element :: others) :=
      perm_middle.symm.trans perm
    have same : (first :: before ++ after).Perm others := List.Perm.cons_inv moved
    have inOthers : ∀ other ∈ first :: before ++ after, other ∈ others :=
      fun other isIn => same.mem_iff.mp isIn
    apply champion_reaches
    · exact above first (inOthers first mem_cons_self)
    · intro other isIn
      apply above
      apply inOthers
      exact mem_append_left _ (mem_cons_of_mem _ isIn)
    · intro other isIn
      apply notAbove
      apply inOthers
      exact mem_append_right _ isIn

/-- The pass finds exactly the element that is better than all the others. -/
theorem winner_eq_some_iff (asymmetric : AsymmetricOn better list) :
    winner better list = some element ↔ Beats better list element := by
  constructor
  · exact beats_of_winner
  · intro beats
    cases list with
    | nil => exact absurd beats.mem not_mem_nil
    | cons first rest =>
      have kept := champion_of_beats asymmetric beats
      have perm := @champion_perm α better rest first []
      obtain ⟨others, split, above⟩ := beats
      rw [kept] at perm
      have same : (champion better first [] rest).2.Perm others :=
        List.Perm.cons_inv (perm.trans split)
      unfold winner
      dsimp only
      rw [kept, if_pos]
      exact List.all_eq_true.mpr fun other isIn => above other (same.mem_iff.mp isIn)

theorem winner_perm {list' : List α} (asymmetric : AsymmetricOn better list)
    (perm : list.Perm list') : winner better list = winner better list' := by
  apply Option.ext
  intro element
  rw [winner_eq_some_iff asymmetric, winner_eq_some_iff (asymmetric.perm perm)]
  constructor
  · exact fun beats => beats.perm perm
  · exact fun beats => beats.perm perm.symm

end Aburi.Lib
