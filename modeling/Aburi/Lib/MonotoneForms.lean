import Mathlib.Data.List.Basic
import Mathlib.Tactic.Common

/-!
# Forms of conjunctions and disjunctions

Forms without negation over any leaves, their disjunctive and conjunctive
normal forms as lists of clauses, and the comparison of a form with another
clause by clause.  With a comparison of leaves that is reflexive and
transitive this decides whether one form implies the other.
-/

namespace Aburi.Lib

open List

inductive Form (L : Type) where
  | leaf (item : L)
  | conj (left right : Form L)
  | disj (left right : Form L)

namespace Form

variable {L : Type}

/-- Each clause of the first list followed by each of the second. -/
def combine (left right : List (List L)) : List (List L) :=
  left.flatMap fun clause => right.map fun other => clause ++ other

def dnf : Form L → List (List L)
  | .leaf item => [[item]]
  | .conj left right => combine left.dnf right.dnf
  | .disj left right => left.dnf ++ right.dnf

def cnf : Form L → List (List L)
  | .leaf item => [[item]]
  | .conj left right => left.cnf ++ right.cnf
  | .disj left right => combine left.cnf right.cnf

def leaves : Form L → List L
  | .leaf item => [item]
  | .conj left right | .disj left right => left.leaves ++ right.leaves

def holds (value : L → Prop) : Form L → Prop
  | .leaf item => value item
  | .conj left right => left.holds value ∧ right.holds value
  | .disj left right => left.holds value ∨ right.holds value

/-- Every clause of the one form has a leaf below a leaf of each clause of the
other. -/
def Covers (below : L → L → Prop) (left right : Form L) : Prop :=
  ∀ clause ∈ left.dnf, ∀ other ∈ right.cnf, ∃ a ∈ clause, ∃ b ∈ other, below a b

attribute [local grind =] dnf cnf leaves holds

theorem mem_combine {left right : List (List L)} {clause : List L} :
    clause ∈ combine left right ↔ ∃ first ∈ left, ∃ second ∈ right, first ++ second = clause := by
  simp [combine]

variable {form : Form L}

theorem mem_leaves :
    (∀ clause ∈ form.dnf, ∀ leaf ∈ clause, leaf ∈ form.leaves) ∧
      ∀ clause ∈ form.cnf, ∀ leaf ∈ clause, leaf ∈ form.leaves := by
  have combined : ∀ {left right : List (List L)} {here there : List L},
      (∀ clause ∈ left, ∀ leaf ∈ clause, leaf ∈ here) →
      (∀ clause ∈ right, ∀ leaf ∈ clause, leaf ∈ there) →
      ∀ clause ∈ combine left right, ∀ leaf ∈ clause, leaf ∈ here ++ there := by
    intro left right here there inHere inThere clause mem leaf isLeaf
    obtain ⟨first, isFirst, second, isSecond, rfl⟩ := mem_combine.1 mem
    rcases List.mem_append.mp isLeaf with inFirst | inSecond
    · exact mem_append_left _ (inHere first isFirst leaf inFirst)
    · exact mem_append_right _ (inThere second isSecond leaf inSecond)
  have appended : ∀ {left right : List (List L)} {here there : List L},
      (∀ clause ∈ left, ∀ leaf ∈ clause, leaf ∈ here) →
      (∀ clause ∈ right, ∀ leaf ∈ clause, leaf ∈ there) →
      ∀ clause ∈ left ++ right, ∀ leaf ∈ clause, leaf ∈ here ++ there := by
    intro left right here there inHere inThere clause mem leaf isLeaf
    rcases List.mem_append.mp mem with inLeft | inRight
    · exact mem_append_left _ (inHere clause inLeft leaf isLeaf)
    · exact mem_append_right _ (inThere clause inRight leaf isLeaf)
  induction form with
  | leaf item => simp [dnf, cnf, leaves]
  | conj left right leftMem rightMem =>
    exact ⟨combined leftMem.1 rightMem.1, appended leftMem.2 rightMem.2⟩
  | disj left right leftMem rightMem =>
    exact ⟨appended leftMem.1 rightMem.1, combined leftMem.2 rightMem.2⟩

variable {value : L → Prop}

/-- A form holds when all leaves of one of its disjunctive clauses do. -/
theorem holds_iff_dnf :
    form.holds value ↔ ∃ clause ∈ form.dnf, ∀ leaf ∈ clause, value leaf := by
  induction form with
  | leaf item => simp [holds, dnf]
  | conj left right leftHolds rightHolds =>
    rw [holds, leftHolds, rightHolds]
    constructor
    · rintro ⟨⟨first, isFirst, firstHolds⟩, ⟨second, isSecond, secondHolds⟩⟩
      refine ⟨first ++ second, mem_combine.2 ⟨first, isFirst, second, isSecond, rfl⟩, ?_⟩
      exact List.forall_mem_append.mpr ⟨firstHolds, secondHolds⟩
    · rintro ⟨clause, mem, clauseHolds⟩
      obtain ⟨first, isFirst, second, isSecond, rfl⟩ := mem_combine.1 mem
      obtain ⟨firstHolds, secondHolds⟩ := List.forall_mem_append.mp clauseHolds
      exact ⟨⟨first, isFirst, firstHolds⟩, ⟨second, isSecond, secondHolds⟩⟩
  | disj left right leftHolds rightHolds =>
    rw [holds, leftHolds, rightHolds]
    simp only [dnf, mem_append, or_and_right, exists_or]

/-- A form holds when each of its conjunctive clauses has a leaf that does. -/
theorem holds_iff_cnf :
    form.holds value ↔ ∀ clause ∈ form.cnf, ∃ leaf ∈ clause, value leaf := by
  induction form with
  | leaf item => simp [holds, cnf]
  | conj left right leftHolds rightHolds =>
    rw [holds, leftHolds, rightHolds]
    exact List.forall_mem_append.symm
  | disj left right leftHolds rightHolds =>
    rw [holds, leftHolds, rightHolds]
    constructor
    · intro either clause mem
      obtain ⟨first, isFirst, second, isSecond, rfl⟩ := mem_combine.1 mem
      rcases either with inLeft | inRight
      · obtain ⟨leaf, isLeaf, leafHolds⟩ := inLeft first isFirst
        exact ⟨leaf, mem_append_left _ isLeaf, leafHolds⟩
      · obtain ⟨leaf, isLeaf, leafHolds⟩ := inRight second isSecond
        exact ⟨leaf, mem_append_right _ isLeaf, leafHolds⟩
    · intro every
      by_contra neither
      push Not at neither
      obtain ⟨⟨first, isFirst, noFirst⟩, ⟨second, isSecond, noSecond⟩⟩ := neither
      obtain ⟨leaf, isLeaf, leafHolds⟩ :=
        every _ (mem_combine.2 ⟨first, isFirst, second, isSecond, rfl⟩)
      rcases List.mem_append.mp isLeaf with inFirst | inSecond
      · exact noFirst leaf inFirst leafHolds
      · exact noSecond leaf inSecond leafHolds

theorem holds_congr {value' : L → Prop} (same : ∀ leaf ∈ form.leaves, (value leaf ↔ value' leaf)) :
    form.holds value ↔ form.holds value' := by
  induction form with
  | leaf item => exact same item (.head _)
  | conj left right leftSame rightSame =>
    exact and_congr (leftSame fun leaf mem => same leaf (mem_append_left _ mem))
      (rightSame fun leaf mem => same leaf (mem_append_right _ mem))
  | disj left right leftSame rightSame =>
    exact or_congr (leftSame fun leaf mem => same leaf (mem_append_left _ mem))
      (rightSame fun leaf mem => same leaf (mem_append_right _ mem))

section Covers

variable {below : L → L → Prop} {left middle right : Form L}

/-- Covering preserves truth when the comparison of leaves does. -/
theorem Covers.holds (covers : Covers below left right)
    (respects : ∀ a ∈ left.leaves, ∀ b ∈ right.leaves, below a b → value a → value b)
    (isTrue : left.holds value) : right.holds value := by
  obtain ⟨clause, mem, clauseHolds⟩ := holds_iff_dnf.1 isTrue
  rw [holds_iff_cnf]
  intro other isOther
  obtain ⟨a, inClause, b, inOther, isBelow⟩ := covers clause mem other isOther
  refine ⟨b, inOther, respects a ?_ b ?_ isBelow (clauseHolds a inClause)⟩
  · exact mem_leaves.1 clause mem a inClause
  · exact mem_leaves.2 other isOther b inOther

theorem covers_of_holds (reflexive : ∀ a ∈ left.leaves, below a a)
    (implied : ∀ clause ∈ left.dnf, left.holds (fun leaf => ∃ a ∈ clause, below a leaf) →
      right.holds fun leaf => ∃ a ∈ clause, below a leaf) :
    Covers below left right := by
  intro clause mem other isOther
  have isTrue : left.holds fun leaf => ∃ a ∈ clause, below a leaf := by
    rw [holds_iff_dnf]
    refine ⟨clause, mem, ?_⟩
    intro leaf isLeaf
    exact ⟨leaf, isLeaf, reflexive leaf (mem_leaves.1 clause mem leaf isLeaf)⟩
  obtain ⟨leaf, isLeaf, a, inClause, isBelow⟩ :=
    holds_iff_cnf.1 (implied clause mem isTrue) other isOther
  exact ⟨a, inClause, leaf, isLeaf, isBelow⟩

theorem Covers.refl (reflexive : ∀ a ∈ left.leaves, below a a) : Covers below left left :=
  covers_of_holds reflexive fun _ _ isTrue => isTrue

theorem Covers.trans (first : Covers below left middle) (second : Covers below middle right)
    (transitive : ∀ a ∈ left.leaves, ∀ b ∈ middle.leaves, ∀ c ∈ right.leaves,
      below a b → below b c → below a c) : Covers below left right := by
  intro clause mem other isOther
  -- the middle form holds for the values above the clause
  have inMiddle : middle.holds fun leaf => ∃ a ∈ clause, below a leaf := by
    rw [holds_iff_cnf]
    intro between isBetween
    obtain ⟨a, inClause, b, inBetween, isBelow⟩ := first clause mem between isBetween
    exact ⟨b, inBetween, a, inClause, isBelow⟩
  obtain ⟨between, isBetween, betweenHolds⟩ := holds_iff_dnf.1 inMiddle
  obtain ⟨b, inBetween, c, inOther, isAbove⟩ := second between isBetween other isOther
  obtain ⟨a, inClause, isBelow⟩ := betweenHolds b inBetween
  refine ⟨a, inClause, c, inOther, transitive a ?_ b ?_ c ?_ isBelow isAbove⟩
  · exact mem_leaves.1 clause mem a inClause
  · exact mem_leaves.1 between isBetween b inBetween
  · exact mem_leaves.2 other isOther c inOther

/-- Covering is implication in every valuation that respects the comparison of
the leaves in a domain with the leaves of both forms. -/
theorem covers_iff_entails {domain : L → Prop} (leftDomain : ∀ a ∈ left.leaves, domain a)
    (rightDomain : ∀ a ∈ right.leaves, domain a) (reflexive : ∀ a, domain a → below a a)
    (transitive : ∀ a b c, domain a → domain b → domain c → below a b → below b c → below a c) :
    Covers below left right ↔
      ∀ value : L → Prop,
        (∀ a b, domain a → domain b → below a b → value a → value b) →
          left.holds value → right.holds value := by
  constructor
  · intro covers value respects isTrue
    refine covers.holds ?_ isTrue
    intro a isLeft b isRight
    exact respects a b (leftDomain a isLeft) (rightDomain b isRight)
  · intro entails
    apply covers_of_holds fun a mem => reflexive a (leftDomain a mem)
    intro clause mem
    apply entails
    rintro a b inA inB isBelow ⟨first, inClause, isFirst⟩
    have inFirst := leftDomain first (mem_leaves.1 clause mem first inClause)
    exact ⟨first, inClause, transitive first a b inFirst inA inB isFirst isBelow⟩

end Covers

end Form

end Aburi.Lib
