import Mathlib.Data.List.Induction
import Mathlib.Data.List.MinMax
import Mathlib.Data.List.TakeWhile
import Mathlib.Order.Basic

/-!
# Tables asked for the entry at or below a key

Entries are appended in any order and sorted stably when the table is asked, so
that of two entries with one key the later stands behind the earlier.
-/

namespace Aburi.Lib

open List

variable {ε κ : Type} [LinearOrder κ] (key : ε → κ)

/-- Behind the entries with at most its key. -/
def insertAfter (entry : ε) (sorted : List ε) : List ε :=
  sorted.takeWhile (key · ≤ key entry) ++ entry :: sorted.dropWhile (key · ≤ key entry)

/-- The stable sort by keys. -/
def stableSort (table : List ε) : List ε :=
  table.foldl (fun sorted entry => insertAfter key entry sorted) []

/-- The last entry with at most this key. -/
def lastAtOrBelow (table : List ε) (bound : κ) : Option ε :=
  (table.filter (key · ≤ bound)).getLast?

def Sorted (table : List ε) : Prop := table.Pairwise (key · ≤ key ·)

variable {key} {table sorted : List ε} {entry : ε} {bound : κ}

theorem stableSort_append :
    stableSort key (table ++ [entry]) = insertAfter key entry (stableSort key table) := by
  rw [stableSort, foldl_append]
  rfl

theorem mem_insertAfter {other : ε} :
    other ∈ insertAfter key entry sorted ↔ other = entry ∨ other ∈ sorted := by
  rw [insertAfter, mem_append, mem_cons, or_left_comm, ← mem_append, takeWhile_append_dropWhile]

theorem Sorted.behind (isSorted : Sorted key sorted) :
    ∀ other ∈ sorted.dropWhile (key · ≤ bound), bound < key other := by
  induction sorted with
  | nil => simp
  | cons first rest induction =>
    obtain ⟨below, isSorted⟩ := pairwise_cons.mp isSorted
    rw [dropWhile_cons]
    split
    case isTrue => exact induction isSorted
    case isFalse late =>
      have above : bound < key first := by simpa using late
      intro other member
      rcases mem_cons.mp member with rfl | later
      · exact above
      · exact above.trans_le (below other later)

theorem front_le {other : ε} (member : other ∈ sorted.takeWhile (key · ≤ bound)) :
    key other ≤ bound := by
  simpa using mem_takeWhile_imp member

theorem Sorted.insertAfter (isSorted : Sorted key sorted) :
    Sorted key (insertAfter key entry sorted) := by
  have behind := @Sorted.behind _ _ _ _ _ (key entry) isSorted
  have split := takeWhile_append_dropWhile (p := (key · ≤ key entry)) (l := sorted)
  unfold Sorted at isSorted ⊢
  rw [← split, pairwise_append] at isSorted
  rw [Lib.insertAfter, pairwise_append, pairwise_cons]
  refine ⟨isSorted.1, ⟨fun other member => (behind other member).le, isSorted.2.1⟩, ?_⟩
  intro first isFirst second isSecond
  rcases mem_cons.mp isSecond with rfl | later
  · exact front_le isFirst
  · exact isSorted.2.2 first isFirst second later

theorem stableSort_sorted : Sorted key (stableSort key table) := by
  induction table using List.reverseRecOn with
  | nil => exact List.Pairwise.nil
  | append_singleton table entry induction =>
    rw [stableSort_append]
    exact induction.insertAfter

theorem mem_stableSort {other : ε} : other ∈ stableSort key table ↔ other ∈ table := by
  induction table using List.reverseRecOn with
  | nil => rfl
  | append_singleton table entry induction =>
    rw [stableSort_append, mem_insertAfter, induction, mem_append, mem_singleton, or_comm]

/-- A sorted table stays as it is. -/
theorem Sorted.stableSort_eq (isSorted : Sorted key table) : stableSort key table = table := by
  induction table using List.reverseRecOn with
  | nil => rfl
  | append_singleton table entry induction =>
    obtain ⟨front, -, last⟩ := pairwise_append.mp isSorted
    rw [stableSort_append, induction front, Lib.insertAfter,
      takeWhile_eq_self_iff.mpr, dropWhile_eq_nil_iff.mpr]
    · intro other member
      simpa using last other member entry (mem_singleton_self _)
    · intro other member
      simpa using last other member entry (mem_singleton_self _)

theorem lastAtOrBelow_append :
    lastAtOrBelow key (table ++ [entry]) bound =
      if key entry ≤ bound then some entry else lastAtOrBelow key table bound := by
  rw [lastAtOrBelow, filter_append, filter_cons, filter_nil]
  by_cases below : key entry ≤ bound
  · rw [if_pos (decide_eq_true below), if_pos below, getLast?_append]
    rfl
  · rw [if_neg (by simpa using below), if_neg below, append_nil, lastAtOrBelow]

/-- An inserted entry answers from its key up to the next greater one. -/
theorem Sorted.lastAtOrBelow_insertAfter (isSorted : Sorted key sorted) :
    lastAtOrBelow key (Lib.insertAfter key entry sorted) bound =
      if key entry ≤ bound ∧ ∀ other ∈ sorted, key entry < key other → ¬ key other ≤ bound then
        some entry
      else lastAtOrBelow key sorted bound := by
  have behind := @Sorted.behind _ _ _ _ _ (key entry) isSorted
  have split := takeWhile_append_dropWhile (p := (key · ≤ key entry)) (l := sorted)
  have whole : lastAtOrBelow key sorted bound =
      ((sorted.takeWhile (key · ≤ key entry)).filter (key · ≤ bound) ++
        (sorted.dropWhile (key · ≤ key entry)).filter (key · ≤ bound)).getLast? := by
    rw [← filter_append, split, lastAtOrBelow]
  rw [whole, lastAtOrBelow, Lib.insertAfter, filter_append, filter_cons]
  by_cases below : key entry ≤ bound
  · rw [if_pos (decide_eq_true below)]
    by_cases alone : ∀ other ∈ sorted, key entry < key other → ¬ key other ≤ bound
    · have none : (sorted.dropWhile (key · ≤ key entry)).filter (key · ≤ bound) = [] := by
        rw [filter_eq_nil_iff]
        intro other member
        rw [decide_eq_true_eq]
        exact alone other (dropWhile_subset _ member) (behind other member)
      rw [if_pos ⟨below, alone⟩, none]
      simp
    · have later : (sorted.dropWhile (key · ≤ key entry)).filter (key · ≤ bound) ≠ [] := by
        intro none
        apply alone
        intro other member above inside
        rw [← split] at member
        rcases mem_append.mp member with front | back
        · exact absurd (front_le front) (not_le.mpr above)
        · rw [filter_eq_nil_iff] at none
          exact none other back (decide_eq_true inside)
      rw [if_neg fun both => alone both.2, getLast?_append, getLast?_append,
        getLast?_cons_of_ne_nil later, getLast?_eq_some_getLast later]
  · rw [if_neg (by simpa using below), if_neg fun both => below both.1]

theorem lastAtOrBelow_congr {low high : κ} (below : low ≤ high)
    (between : ∀ other ∈ table, low < key other → ¬ key other ≤ high) :
    lastAtOrBelow key table high = lastAtOrBelow key table low := by
  rw [lastAtOrBelow, lastAtOrBelow]
  congr 1
  apply filter_congr
  intro other member
  rw [decide_eq_decide]
  constructor
  · intro inside
    exact not_lt.mp fun above => between other member above inside
  · intro inside
    exact le_trans inside below

theorem exists_greatest (some : ¬ ∀ entry ∈ table, bound < key entry) :
    ∃ entry ∈ table, key entry ≤ bound ∧ ∀ other ∈ table, key other ≤ bound → key other ≤ key entry := by
  cases greatest : (table.filter (key · ≤ bound)).argmax key with
  | none =>
    rw [argmax_eq_none, filter_eq_nil_iff] at greatest
    refine absurd (fun entry member => ?_) some
    simpa using greatest entry member
  | some entry =>
    have member := mem_filter.mp (argmax_mem greatest)
    refine ⟨entry, member.1, of_decide_eq_true member.2, fun other isOther below => ?_⟩
    exact le_of_mem_argmax (mem_filter.mpr ⟨isOther, decide_eq_true below⟩) greatest

end Aburi.Lib
