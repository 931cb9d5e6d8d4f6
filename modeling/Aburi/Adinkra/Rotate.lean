import Mathlib.Data.List.Basic
import Mathlib.Data.Nat.GCD.Basic

/-!
# Rotating a range

`rotate` and `stable_partition` of `<algorithm>`.  A range lies between two positions
of a list.  The loops have fuel for as many turns as the range has elements.
-/

namespace Aburi.Adinkra.Ranges

open List

variable {α : Type}

def iterSwap (values : List α) (first second : ℕ) : List α :=
  match values[first]?, values[second]? with
  | some x, some y => (values.set first y).set second x
  | _, _ => values

def rotateLoop (last : ℕ) : ℕ → List α → ℕ → ℕ → ℕ → Option (List α × ℕ)
  | 0, values, write, read, _ => if read = last then some (values, write) else none
  | fuel + 1, values, write, read, middle =>
    if read = last then some (values, write)
    else
      let swapped := iterSwap values write read
      if write + 1 = middle then rotateLoop last fuel swapped (write + 1) (read + 1) (read + 1)
      else if read + 1 = last then rotateLoop last fuel swapped (write + 1) middle middle
      else rotateLoop last fuel swapped (write + 1) (read + 1) middle

/-- The list after the call and the position that is returned. -/
def rotate (values : List α) (first middle last : ℕ) : Option (List α × ℕ) :=
  if first = middle then some (values, last)
  else if middle = last then some (values, first)
  else rotateLoop last (last - first) values first middle middle

def stablePartitionLoop (predicate : α → Bool) (last : ℕ) :
    ℕ → List α → ℕ → ℕ → Option (List α × ℕ)
  | 0, values, first, current => if current + 1 = last then some (values, first) else none
  | fuel + 1, values, first, current =>
    if current + 1 = last then some (values, first)
    else
      match values[current + 1]? with
      | none => none
      | some value =>
        if predicate value then do
          let (rotated, _) ← rotate values first (current + 1) (current + 2)
          stablePartitionLoop predicate last fuel rotated (first + 1) (current + 1)
        else stablePartitionLoop predicate last fuel values first (current + 1)

/-- The first loop skips what stands at its place. -/
def stablePartition (predicate : α → Bool) (values : List α) (first last : ℕ) :
    Option (List α × ℕ) :=
  let start := first + (((values.take last).drop first).takeWhile predicate).length
  if start = last then some (values, start)
  else stablePartitionLoop predicate last (last - start) values start start

variable {front here moved later back : List α} {x y : α} {fuel : ℕ}

theorem iterSwap_append :
    iterSwap (front ++ x :: here ++ y :: back) front.length (front.length + here.length + 1) =
      front ++ y :: here ++ x :: back := by
  have atFirst : (front ++ x :: here ++ y :: back)[front.length]? = some x := by simp
  have atSecond : (front ++ x :: here ++ y :: back)[front.length + here.length + 1]? = some y := by
    rw [getElem?_append_right (by simp; omega)]
    simp [Nat.add_assoc]
  rw [iterSwap, atFirst, atSecond]
  dsimp only
  rw [append_assoc, set_append_right _ _ le_rfl, Nat.sub_self, cons_append, set_cons_zero,
    ← cons_append, ← append_assoc, set_append_right _ _ (by simp; omega)]
  congr 1
  simp [Nat.add_assoc]

/-- What is left of the block in front of `middle`, what was moved behind it, and what
is still to be read: the rest of the loop exchanges them around, and stops with the
greatest common divisor of the two blocks between the last write and the end. -/
theorem rotateLoop_eq {write read middle last : ℕ} (isWrite : write = front.length)
    (isMiddle : middle = write + here.length) (isRead : read = middle + moved.length)
    (isLast : last = read + later.length) (filled : here ≠ []) (unread : later ≠ [])
    (enough : last ≤ write + fuel) :
    rotateLoop last fuel (front ++ here ++ moved ++ later ++ back) write read middle =
      some (front ++ later ++ moved ++ here ++ back,
        last - Nat.gcd (here.length + moved.length) (moved.length + later.length)) := by
  induction fuel generalizing front here moved later write read middle with
  | zero =>
    have := length_pos_of_ne_nil filled
    omega
  | succ fuel ih =>
    obtain ⟨x, here, rfl⟩ := exists_cons_of_ne_nil filled
    obtain ⟨y, later, rfl⟩ := exists_cons_of_ne_nil unread
    simp only [length_cons] at isMiddle isLast
    have swaps : iterSwap (front ++ x :: here ++ moved ++ y :: later ++ back) write read =
        (front ++ [y]) ++ here ++ (moved ++ [x]) ++ later ++ back := by
      have swap := @iterSwap_append _ front (here ++ moved) (later ++ back) x y
      simp only [length_append, append_assoc, cons_append, nil_append] at swap ⊢
      rw [← swap]
      congr 1
      omega
    have written : write + 1 = (front ++ [y]).length := by simp [isWrite]
    rw [rotateLoop, if_neg (by omega), swaps]
    by_cases empty : here = []
    · subst empty
      rw [if_pos (by simpa using isMiddle.symm)]
      by_cases done : later = []
      · -- both blocks are as long: the loop ends
        subst done
        have ends : rotateLoop last fuel (front ++ [y] ++ [] ++ (moved ++ [x]) ++ [] ++ back)
            (write + 1) (read + 1) (read + 1) =
              some (front ++ [y] ++ [] ++ (moved ++ [x]) ++ [] ++ back, write + 1) := by
          cases fuel <;> rw [rotateLoop, if_pos (by simpa using isLast.symm)]
        rw [ends, length_singleton, length_singleton, Nat.add_comm moved.length, Nat.gcd_self]
        simp only [length_nil] at isMiddle isLast
        simp
        omega
      · have rest := @ih (front ++ [y]) (moved ++ [x]) [] later (write + 1) (read + 1) (read + 1)
          written (by simp at isMiddle ⊢; omega) rfl (by omega) (by simp) done (by omega)
        have isGcd : Nat.gcd ([x].length + moved.length) (moved.length + (y :: later).length) =
            Nat.gcd ((moved ++ [x]).length + 0) (0 + later.length) := by
          simp only [length_append, length_cons, length_nil, Nat.add_zero, Nat.zero_add]
          rw [Nat.add_comm 1, ← Nat.add_assoc, Nat.add_right_comm, Nat.gcd_self_add_right]
        rw [isGcd]
        simpa using rest
    · have left := length_pos_of_ne_nil empty
      rw [if_neg (by omega)]
      by_cases done : later = []
      · subst done
        rw [if_pos (by simpa using isLast.symm)]
        have rest := @ih (front ++ [y]) here [] (moved ++ [x]) (write + 1) middle middle
          written (by omega) rfl (by simp at isLast ⊢; omega) empty (by simp) (by omega)
        have isGcd : Nat.gcd ((x :: here).length + moved.length) (moved.length + [y].length) =
            Nat.gcd (here.length + 0) (0 + (moved ++ [x]).length) := by
          simp only [length_append, length_cons, length_nil, Nat.add_zero, Nat.zero_add]
          rw [Nat.add_right_comm, Nat.add_assoc, Nat.gcd_add_self_left]
        rw [isGcd]
        simpa using rest
      · have more := length_pos_of_ne_nil done
        rw [if_neg (by omega)]
        have rest := @ih (front ++ [y]) here (moved ++ [x]) later (write + 1) (read + 1) middle
          written (by omega) (by simp; omega) (by omega) empty done (by omega)
        have isGcd : Nat.gcd ((x :: here).length + moved.length)
              (moved.length + (y :: later).length) =
            Nat.gcd (here.length + (moved ++ [x]).length)
              ((moved ++ [x]).length + later.length) := by
          congr 1 <;> simp <;> omega
        rw [isGcd]
        simpa using rest

variable {left right : List α}

theorem rotate_eq (front left right back : List α) :
    rotate (front ++ left ++ right ++ back) front.length (front.length + left.length)
        (front.length + left.length + right.length) =
      some (front ++ right ++ left ++ back, front.length + left.length + right.length -
        if left = [] then 0 else Nat.gcd left.length right.length) := by
  rw [rotate]
  by_cases noLeft : left = []
  · simp [noLeft]
  · have some := length_pos_of_ne_nil noLeft
    rw [if_neg (by omega), if_neg noLeft]
    by_cases noRight : right = []
    · simp [noRight]
    · have more := length_pos_of_ne_nil noRight
      rw [if_neg (by omega)]
      have loop := @rotateLoop_eq _ front left [] right back
        (front.length + left.length + right.length - front.length) _ _ _ _ rfl rfl rfl rfl noLeft
        noRight (by simp only [length_nil]; omega)
      simpa using loop

/-- The elements that pass are moved in front of those that were left behind. -/
theorem stablePartitionLoop_eq (predicate : α → Bool) {passed failed : List α}
    {first current last : ℕ} (isFirst : first = (front ++ passed).length)
    (isCurrent : current + 1 = first + failed.length)
    (isLast : last = current + 1 + later.length) (enough : later.length ≤ fuel)
    (filled : failed ≠ []) :
    stablePartitionLoop predicate last fuel (front ++ passed ++ failed ++ later ++ back) first
        current =
      some (front ++ (passed ++ later.filter predicate) ++
        (failed ++ later.filter (!predicate ·)) ++ back,
        first + (later.filter predicate).length) := by
  induction fuel generalizing passed failed later first current with
  | zero =>
    obtain rfl := eq_nil_of_length_eq_zero (Nat.le_zero.mp enough)
    rw [stablePartitionLoop, if_pos (by simpa using isLast.symm)]
    simp
  | succ fuel ih =>
    cases later with
    | nil =>
      rw [stablePartitionLoop, if_pos (by simpa using isLast.symm)]
      simp
    | cons value later =>
      rw [length_cons] at isLast enough
      have found : (front ++ passed ++ failed ++ value :: later ++ back)[current + 1]? =
          some value := by
        rw [append_assoc, getElem?_append_right (by simp at isFirst ⊢; omega)]
        have isIndex : current + 1 - (front ++ passed ++ failed).length = 0 := by
          rw [length_append]
          omega
        rw [isIndex]
        rfl
      rw [stablePartitionLoop, if_neg (by omega), found]
      dsimp only
      split
      case isTrue passes =>
        have rotates := rotate_eq (front ++ passed) failed [value] (later ++ back)
        rw [← isFirst, ← isCurrent, length_singleton] at rotates
        have sameList : front ++ passed ++ failed ++ value :: later ++ back =
            front ++ passed ++ failed ++ [value] ++ (later ++ back) := by simp
        have rest := @ih later (passed ++ [value]) failed (first + 1) (current + 1)
          (by simp [isFirst, Nat.add_assoc]) (by omega) (by omega) (by omega) filled
        rw [sameList, rotates]
        simp only [Option.bind_eq_bind, Option.bind_some, filter_cons, passes]
        simpa [Nat.add_assoc, Nat.add_comm 1] using rest
      case isFalse fails =>
        have rest := @ih later passed (failed ++ [value]) first (current + 1) isFirst
          (by simp; omega) (by omega) (by omega) (by simp)
        simp only [filter_cons, fails]
        simpa using rest

theorem stablePartition_eq (predicate : α → Bool) (front range back : List α) :
    stablePartition predicate (front ++ range ++ back) front.length
        (front.length + range.length) =
      some (front ++ range.filter predicate ++ range.filter (!predicate ·) ++ back,
        front.length + (range.filter predicate).length) := by
  have isRange : ((front ++ range ++ back).take (front.length + range.length)).drop
      front.length = range := by
    rw [← length_append, take_left', drop_left']
    · rfl
    · rfl
  rw [stablePartition, isRange]
  have all : ∀ value ∈ range.takeWhile predicate, predicate value = true :=
    all_eq_true.mp all_takeWhile
  have split : range = range.takeWhile predicate ++ range.dropWhile predicate :=
    takeWhile_append_dropWhile.symm
  have stops : ∀ value ∈ (range.dropWhile predicate).head?, predicate value = false := by
    intro value member
    have := head?_dropWhile_not predicate range
    rw [Option.mem_def.mp member] at this
    simpa using this
  generalize range.takeWhile predicate = passed at all split ⊢
  generalize range.dropWhile predicate = later at split stops
  subst split
  have passes : passed.filter predicate = passed := filter_eq_self.mpr all
  have noFail : passed.filter (!predicate ·) = [] := by
    rw [filter_eq_nil_iff]
    intro value member
    simp [all value member]
  cases later with
  | nil => simp [passes, noFail]
  | cons value later =>
    have fails : predicate value = false := stops value rfl
    have loop := @stablePartitionLoop_eq _ front later back
      (front.length + (passed ++ value :: later).length - (front.length + passed.length)) predicate
      passed [value] (front.length + passed.length) (front.length + passed.length)
      (front.length + (passed ++ value :: later).length) (by simp) rfl
      (by simp; omega) (by simp; omega) (by simp)
    rw [if_neg (by simp)]
    have sameList : front ++ (passed ++ value :: later) ++ back =
        front ++ passed ++ [value] ++ later ++ back := by simp
    rw [sameList, loop]
    simp [passes, noFail, fails, Nat.add_assoc]

/-- `rotate` exchanges the two parts of every range and ends; it returns the new place
of the old first element exactly when the length of the left part divides that of the
right one, or the left part is empty.  `stable_partition`, which does not look at what
it returns, keeps the order on both sides and returns the partition point. -/
theorem rotate_returns_iff (front left right back : List α) (predicate : α → Bool) :
    (∃ result, rotate (front ++ left ++ right ++ back) front.length
        (front.length + left.length) (front.length + left.length + right.length) =
          some (front ++ right ++ left ++ back, result)) ∧
      (rotate (front ++ left ++ right ++ back) front.length (front.length + left.length)
          (front.length + left.length + right.length) =
            some (front ++ right ++ left ++ back, front.length + right.length) ↔
        left = [] ∨ left.length ∣ right.length) ∧
      stablePartition predicate (front ++ right ++ back) front.length
          (front.length + right.length) =
        some (front ++ right.filter predicate ++ right.filter (!predicate ·) ++ back,
          front.length + (right.filter predicate).length) := by
  have rotates := rotate_eq front left right back
  refine ⟨⟨_, rotates⟩, ?_, stablePartition_eq predicate front right back⟩
  rw [rotates, Option.some_inj, Prod.mk.injEq, and_iff_right rfl]
  by_cases noLeft : left = []
  · simp [noLeft]
  · have positive := length_pos_of_ne_nil noLeft
    have atMost := Nat.le_of_dvd positive (Nat.gcd_dvd_left left.length right.length)
    rw [if_neg noLeft, or_iff_right noLeft, ← Nat.gcd_eq_left_iff_dvd]
    omega

/-- The old first element goes to 1, and 2 is returned. -/
theorem rotate_returns_end :
    rotate [10, 11, 12] 0 2 3 = some ([12, 10, 11], 2) ∧
      rotate [10, 11, 12] 0 2 3 ≠ some ([12, 10, 11], 0 + (3 - 2)) := by
  decide

end Aburi.Adinkra.Ranges
