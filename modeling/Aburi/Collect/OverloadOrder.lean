import Aburi.Collect.Overload

/-!
# Overload resolution and the order of the candidates

The selection does not depend on the order of the candidates when no two viable ones are
each better than the other.  Two tie-breakers speak for one side only: a function that
is no template specialization is better than one that is, and a more constrained one is
better.  The other side then goes on to the later tie-breakers, and may win there.
-/

namespace Aburi.Collect

open List

open Aburi.Lib (winner Beats AsymmetricOn)

namespace OverloadSession

variable {Bindings Expr : Type} (session : OverloadSession Bindings Expr) (call : OverloadCall Expr)

/-- What makes a selection independent of the order of the candidates. -/
structure OrderIndependent (candidates : List OverloadCandidate) : Prop where
  /-- the conversions of two viable candidates compare the same way from both sides -/
  negates : ∀ a ∈ session.viable call candidates, ∀ b ∈ session.viable call candidates,
    ∀ position first second, a.conversions[position]? = some first →
      b.conversions[position]? = some second →
        session.positionCompare b a position second first =
          -session.positionCompare a b position first second
  negatesResult : ∀ a ∈ session.viable call candidates,
    ∀ b ∈ session.viable call candidates, session.resultCompare b a = -session.resultCompare a b
  asymmetric : AsymmetricOn (session.better call) (session.viable call candidates)
  /-- the selected candidate is the only one that is better than all the others -/
  selects : ∀ best, Beats (session.better call) (session.viable call candidates) best →
    session.selectOverloadDetailed call candidates = best.selection ∧
      ∀ other, Beats (session.better call) (session.viable call candidates) other → other = best
  ambiguous : (session.selectOverloadDetailed call candidates).ambiguous = true ↔
    session.viable call candidates ≠ [] ∧
      ¬∃ best, Beats (session.better call) (session.viable call candidates) best
  permuted : ∀ others, candidates.Perm others →
    session.selectOverloadDetailed call others = session.selectOverloadDetailed call candidates

/-- No candidate takes the place of another. -/
def NoneSupersedes (candidates : List OverloadCandidate) : Prop :=
  candidates.Pairwise fun first second =>
    session.supersedes second first = false ∧ session.supersedes first second = false

/-- The conversions of both candidates are equally good. -/
def TiedConversions (a b : Scored) : Prop :=
  (∀ comparison ∈ session.positionComparisons a b, comparison = 0) ∧ session.resultCompare a b = 0

/-- The first candidate has the better conversions by a tie-breaker that speaks for one
side only, and the second has a later tie-breaker on its side. -/
def Contradicts (a b : Scored) : Prop :=
  session.TiedConversions a b ∧
    (a.isTemplateSpecialization = false ∧ b.isTemplateSpecialization = true ∧
        (0 < session.compareMembers b a ∨
          session.compareMembers b a = 0 ∧
            (session.isMoreConstrained b a = true ∨ 0 < compareRewrites b a)) ∨
      a.isTemplateSpecialization = false ∧ b.isTemplateSpecialization = false ∧
        session.compareMembers a b = 0 ∧ session.isMoreConstrained a b = true ∧
          (session.isMoreConstrained b a = true ∨ 0 < compareRewrites b a))

/-- When the tie-breakers agree whichever candidate is asked first. -/
structure TieBreakersAgree (candidates : List OverloadCandidate) : Prop where
  positions : ∀ a ∈ session.viable call candidates, ∀ b ∈ session.viable call candidates,
    ∀ position first second, a.conversions[position]? = some first →
      b.conversions[position]? = some second →
        ConversionFile.DecidedBothWays session.file.toConversionFile first.1 first.2 second.1
          second.2 (position == 0 && a.hasImplicitObjectRank && b.hasImplicitObjectRank)
  results : ∀ a ∈ session.viable call candidates, ∀ b ∈ session.viable call candidates,
    ∀ first second, a.result = some first → b.result = some second →
      ConversionFile.DecidedBothWays session.file.toConversionFile first.1 first.2 second.1
        second.2 false
  candidates : ∀ a ∈ session.viable call candidates, ∀ b ∈ session.viable call candidates,
    ¬session.Contradicts a b

variable {session call}

variable {candidates : List OverloadCandidate}

theorem filterCandidates_of_noneSupersedes (none : session.NoneSupersedes candidates) :
    session.filterCandidates candidates = candidates.filter fun candidate =>
      !(!candidate.entity.valid || (session.file.entity candidate.entity).isNone ||
        session.file.hasTemplateInfo candidate.entity) := by
  induction candidates with
  | nil => rfl
  | cons candidate rest induction =>
    obtain ⟨apart, restNone⟩ := List.pairwise_cons.mp none
    have notSuperseded : (rest.any fun later => session.supersedes later candidate) = false := by
      rw [any_eq_false]
      intro later member
      simp [(apart later member).1]
    unfold filterCandidates
    rw [notSuperseded, Bool.or_false, filter_cons, induction restNone]
    cases !candidate.entity.valid || (session.file.entity candidate.entity).isNone ||
      session.file.hasTemplateInfo candidate.entity <;> rfl

theorem NoneSupersedes.perm {others : List OverloadCandidate}
    (none : session.NoneSupersedes candidates) (perm : candidates.Perm others) :
    session.NoneSupersedes others := by
  apply (perm.pairwise_iff _).mp none
  exact fun apart => ⟨apart.2, apart.1⟩

theorem viable_perm {others : List OverloadCandidate} (none : session.NoneSupersedes candidates)
    (perm : candidates.Perm others) :
    (session.viable call candidates).Perm (session.viable call others) := by
  unfold viable
  rw [filterCandidates_of_noneSupersedes none, filterCandidates_of_noneSupersedes (none.perm perm)]
  exact (perm.filter _).filterMap _

theorem compareOwners_neg (a b : Aburi.Cir.EntityId) :
    session.compareOwners b a = -session.compareOwners a b := by
  unfold compareOwners
  cases session.file.entity a with
  | none => cases session.file.entity b <;> rfl
  | some first =>
    cases session.file.entity b with
    | none => rfl
    | some second =>
      dsimp only
      apply ConversionFile.ifSame_neg
      · simp only [Bool.and_eq_true, bne_iff_ne, ne_eq, eq_comm (a := b)]
        tauto
      · exact fun _ => ConversionFile.prefer_neg _ _

theorem compareMembers_neg (a b : Scored) :
    session.compareMembers b a = -session.compareMembers a b := by
  unfold compareMembers
  cases session.file.methodFact a.entity with
  | none => cases session.file.methodFact b.entity <;> rfl
  | some aMethod =>
    cases session.file.methodFact b.entity with
    | none => rfl
    | some bMethod =>
      apply orElse_neg _ (compareOwners_neg _ _)
      cases aMethod.inheritedConstructor with
      | none => cases bMethod.inheritedConstructor <;> rfl
      | some aOrigin =>
        cases bMethod.inheritedConstructor with
        | none => rfl
        | some bOrigin => exact compareOwners_neg _ _

theorem orderingContext_swap (a b : Scored) :
    orderingContext call b a = (orderingContext call a b).swap := by
  unfold orderingContext OrderingContext.call OrderingContext.swap
  cases call.conversionResultTarget.valid <;> cases a.ranksConversionResult <;>
    cases b.ranksConversionResult <;> cases a.hasReversedParameters <;>
    cases b.hasReversedParameters <;> rfl

theorem compareTemplates_neg (a b : Scored) :
    session.compareTemplates call b a = -session.compareTemplates call a b := by
  unfold compareTemplates
  rw [orderingContext_swap, compareFunctionTemplateSpecializations_swap]
  cases a.isTemplateSpecialization <;> cases b.isTemplateSpecialization <;> try rfl
  cases session.file.compareFunctionTemplateSpecializations session.deduction a.entity
    b.entity (orderingContext call a b) <;> rfl

theorem compareRewrites_neg (a b : Scored) :
    compareRewrites b a = -compareRewrites a b := by
  unfold compareRewrites
  by_cases aRewritten : a.rewriteKind = .none <;> by_cases bRewritten : b.rewriteKind = .none <;>
    cases a.hasReversedParameters <;> cases b.hasReversedParameters <;>
    simp [aRewritten, bRewritten]

variable {a b : Scored}

theorem isMoreConstrained_templates (more : session.isMoreConstrained a b = true) :
    ¬(a.isTemplateSpecialization = true ∧ b.isTemplateSpecialization = true) := by
  rintro ⟨isFirst, isSecond⟩
  simp [isMoreConstrained, isFirst, isSecond] at more

theorem mem_positionComparisons {comparison : ℤ} :
    comparison ∈ session.positionComparisons a b ↔
      ∃ position first second, a.conversions[position]? = some first ∧
        b.conversions[position]? = some second ∧
          session.positionCompare a b position first second = comparison := by
  unfold positionComparisons
  rw [mem_mapIdx]
  constructor
  · rintro ⟨position, within, rfl⟩
    have bounds := within
    rw [length_zip] at bounds
    refine ⟨position, a.conversions[position], b.conversions[position], ?_, ?_, ?_⟩
    · exact getElem?_eq_getElem _
    · exact getElem?_eq_getElem _
    · rw [getElem_zip]
  · rintro ⟨position, first, second, isFirst, isSecond, rfl⟩
    obtain ⟨inFirst, rfl⟩ := List.getElem?_eq_some_iff.mp isFirst
    obtain ⟨inSecond, rfl⟩ := List.getElem?_eq_some_iff.mp isSecond
    refine ⟨position, ?_, ?_⟩
    · rw [length_zip]
      omega
    · rw [getElem_zip]

/-- The conversions of both candidates compare the same way from either side. -/
structure Negates (session : OverloadSession Bindings Expr) (a b : Scored) : Prop where
  positions : ∀ position first second, a.conversions[position]? = some first →
    b.conversions[position]? = some second →
      session.positionCompare b a position second first =
        -session.positionCompare a b position first second
  result : session.resultCompare b a = -session.resultCompare a b

theorem Negates.neg_mem (negates : Negates session a b) {comparison : ℤ}
    (member : comparison ∈ session.positionComparisons a b) :
    -comparison ∈ session.positionComparisons b a := by
  obtain ⟨position, first, second, isFirst, isSecond, rfl⟩ := mem_positionComparisons.1 member
  exact mem_positionComparisons.2 ⟨position, second, first, isSecond, isFirst,
    negates.positions position first second isFirst isSecond⟩

theorem Negates.symm (negates : Negates session a b) :
    Negates session b a := by
  constructor
  · intro position first second isFirst isSecond
    rw [negates.positions position second first isSecond isFirst, Int.neg_neg]
  · rw [negates.result, Int.neg_neg]

theorem Negates.tied (negates : Negates session a b) (tied : session.TiedConversions a b) :
    session.TiedConversions b a := by
  constructor
  · intro comparison member
    have zero := tied.1 _ (negates.symm.neg_mem member)
    omega
  · rw [negates.result, tied.2]
    rfl

theorem better_of_tied (tied : session.TiedConversions a b) :
    session.better call a b =
      if !a.isTemplateSpecialization && b.isTemplateSpecialization then true
      else if session.compareMembers a b ≠ 0 then 0 < session.compareMembers a b
      else if session.isMoreConstrained a b then true
      else if session.compareTemplates call a b ≠ 0 then 0 < session.compareTemplates call a b
      else 0 < compareRewrites a b := by
  have noWorse : (session.positionComparisons a b).any (· < 0) = false := by
    rw [any_eq_false]
    intro comparison member
    simp [tied.1 comparison member]
  have noBetter : (session.positionComparisons a b).any (0 < ·) = false := by
    rw [any_eq_false]
    intro comparison member
    simp [tied.1 comparison member]
  unfold better
  dsimp only
  rw [noWorse, noBetter, tied.2]
  rfl

theorem tied_of_better (negates : Negates session a b) (above : session.better call a b = true)
    (below : session.better call b a = true) :
    session.TiedConversions a b := by
  have notWorse : ∀ first second, session.better call first second = true →
      ∀ comparison ∈ session.positionComparisons first second, 0 ≤ comparison := by
    intro first second isBetter comparison member
    by_contra worse
    have some : (session.positionComparisons first second).any (· < 0) = true :=
      List.any_eq_true.mpr ⟨comparison, member, by simpa using worse⟩
    unfold better at isBetter
    dsimp only at isBetter
    rw [some] at isBetter
    contradiction
  have zero : ∀ comparison ∈ session.positionComparisons a b, comparison = 0 := by
    intro comparison member
    have atLeast := notWorse a b above comparison member
    have atMost := notWorse b a below _ (negates.neg_mem member)
    omega
  refine ⟨zero, ?_⟩
  have result : ∀ first second, session.better call first second = true →
      (∀ comparison ∈ session.positionComparisons first second, comparison = 0) →
        0 ≤ session.resultCompare first second := by
    intro first second isBetter allZero
    have noBetter : (session.positionComparisons first second).any (0 < ·) = false := by
      rw [any_eq_false]
      intro comparison member
      simp [allZero comparison member]
    unfold better at isBetter
    dsimp only at isBetter
    rw [noBetter] at isBetter
    by_contra worse
    rw [if_pos (by omega : session.resultCompare first second ≠ 0)] at isBetter
    split at isBetter
    · contradiction
    · have positive := of_decide_eq_true isBetter
      omega
  have zeroBack : ∀ comparison ∈ session.positionComparisons b a, comparison = 0 := by
    intro comparison member
    have opposite := zero _ (negates.symm.neg_mem member)
    omega
  have atLeast := result a b above zero
  have atMost := result b a below zeroBack
  rw [negates.result] at atMost
  omega

theorem better_tied_cases (tied : session.TiedConversions a b)
    (above : session.better call a b = true) :
    (a.isTemplateSpecialization = false ∧ b.isTemplateSpecialization = true) ∨
      0 < session.compareMembers a b ∨
      session.compareMembers a b = 0 ∧
        (session.isMoreConstrained a b = true ∨ 0 < session.compareTemplates call a b ∨
          session.compareTemplates call a b = 0 ∧ 0 < compareRewrites a b) := by
  rw [better_of_tied tied] at above
  split at above
  · rename_i templates
    left
    simpa using templates
  · right
    split at above
    · exact Or.inl (of_decide_eq_true above)
    · rename_i sameMembers
      refine Or.inr ⟨not_not.mp sameMembers, ?_⟩
      split at above
      · rename_i more
        exact Or.inl more
      · right
        split at above
        · exact Or.inl (of_decide_eq_true above)
        · rename_i sameTemplates
          exact Or.inr ⟨not_not.mp sameTemplates, of_decide_eq_true above⟩

theorem compareTemplates_of_noTemplate
    (noTemplate : a.isTemplateSpecialization = false ∨ b.isTemplateSpecialization = false) :
    session.compareTemplates call a b = 0 := by
  unfold compareTemplates
  rcases noTemplate with isNone | isNone <;> simp [isNone]

/-- Tie-breakers that contradict each other make each candidate better than the
other. -/
theorem better_of_contradicts (negates : Negates session a b)
    (contradicts : session.Contradicts a b) :
    session.better call a b = true ∧ session.better call b a = true := by
  obtain ⟨tied, tieBreakers⟩ := contradicts
  rw [better_of_tied tied, better_of_tied (negates.tied tied)]
  have noTemplate : a.isTemplateSpecialization = false := by
    rcases tieBreakers with first | second
    · exact first.1
    · exact second.1
  have noOrder : session.compareTemplates call b a = 0 :=
    compareTemplates_of_noTemplate (Or.inr noTemplate)
  have lastWins : (session.isMoreConstrained b a = true ∨ 0 < compareRewrites b a) →
      session.compareMembers b a = 0 →
        (if session.compareMembers b a ≠ 0 then decide (0 < session.compareMembers b a)
          else if session.isMoreConstrained b a then true
          else if session.compareTemplates call b a ≠ 0 then
            decide (0 < session.compareTemplates call b a)
          else decide (0 < compareRewrites b a)) = true := by
    intro later sameMembers
    rw [if_neg (not_not.mpr sameMembers), if_neg (not_not.mpr noOrder)]
    rcases later with more | fewer
    · rw [if_pos more]
    · split
      · rfl
      · exact decide_eq_true fewer
  rcases tieBreakers with ⟨_, template, later⟩ | ⟨_, noTemplate', sameMembers, more, later⟩
  · constructor
    · simp [noTemplate, template]
    · rw [if_neg (by simp [template])]
      rcases later with above | ⟨sameMembers, later⟩
      · rw [if_pos (by omega)]
        exact decide_eq_true above
      · exact lastWins later sameMembers
  · have sameBack : session.compareMembers b a = 0 := by
      rw [compareMembers_neg, sameMembers]
      rfl
    constructor
    · rw [if_neg (by simp [noTemplate']), if_neg (not_not.mpr sameMembers), if_pos more]
    · rw [if_neg (by simp [noTemplate])]
      exact lastWins later sameBack

/-- A candidate that is no template specialization is beaten by one that is only
through a later tie-breaker. -/
theorem contradicts_of_template (tied : session.TiedConversions a b)
    (tiedBack : session.TiedConversions b a) (noTemplate : a.isTemplateSpecialization = false)
    (template : b.isTemplateSpecialization = true) (below : session.better call b a = true) :
    session.Contradicts a b := by
  refine ⟨tied, Or.inl ⟨noTemplate, template, ?_⟩⟩
  have noOrder : session.compareTemplates call b a = 0 :=
    compareTemplates_of_noTemplate (Or.inr noTemplate)
  rcases better_tied_cases tiedBack below with ⟨other, _⟩ | isDerived |
    ⟨same, more | ordered | ⟨_, fewer⟩⟩
  · rw [template] at other
    contradiction
  · exact Or.inl isDerived
  · exact Or.inr ⟨same, Or.inl more⟩
  · omega
  · exact Or.inr ⟨same, Or.inr fewer⟩

theorem contradicts_of_better (negates : Negates session a b)
    (above : session.better call a b = true) (below : session.better call b a = true) :
    session.Contradicts a b ∨ session.Contradicts b a := by
  have tied := tied_of_better negates above below
  have tiedBack := negates.tied tied
  cases aTemplate : a.isTemplateSpecialization <;> cases bTemplate : b.isTemplateSpecialization
  case false.true =>
    exact Or.inl (contradicts_of_template tied tiedBack aTemplate bTemplate below)
  case true.false =>
    exact Or.inr (contradicts_of_template tiedBack tied bTemplate aTemplate above)
  all_goals
    have members := @compareMembers_neg _ _ session a b
    have templates := @compareTemplates_neg _ _ session call a b
    have rewrites := compareRewrites_neg a b
    rcases better_tied_cases tied above with ⟨first, second⟩ | isDerived | ⟨same, above⟩
    · simp [aTemplate, bTemplate] at first second
    · rcases better_tied_cases tiedBack below with ⟨first, second⟩ | isDerived' | ⟨same', _⟩
      · simp [aTemplate, bTemplate] at first second
      · omega
      · omega
    rcases better_tied_cases tiedBack below with ⟨first, second⟩ | isDerived | ⟨same', below⟩
    · simp [aTemplate, bTemplate] at first second
    · omega
  case false.false =>
    have noOrder : session.compareTemplates call a b = 0 :=
      compareTemplates_of_noTemplate (Or.inl aTemplate)
    rcases above with more | ordered | ⟨_, fewer⟩
    · left
      refine ⟨tied, Or.inr ⟨aTemplate, bTemplate, same, more, ?_⟩⟩
      rcases below with more' | ordered | ⟨_, fewer⟩
      · exact Or.inl more'
      · omega
      · exact Or.inr fewer
    · omega
    · right
      refine ⟨tiedBack, Or.inr ⟨bTemplate, aTemplate, same', ?_, Or.inr fewer⟩⟩
      rcases below with more' | ordered | ⟨_, fewer'⟩
      · exact more'
      · omega
      · omega
  case true.true =>
    rcases above with more | ordered | ⟨_, fewer⟩
    · exact absurd ⟨aTemplate, bTemplate⟩ (isMoreConstrained_templates more)
    · rcases below with more' | ordered' | ⟨_, _⟩
      · exact absurd ⟨bTemplate, aTemplate⟩ (isMoreConstrained_templates more')
      · omega
      · omega
    · rcases below with more' | ordered' | ⟨_, _⟩
      · exact absurd ⟨bTemplate, aTemplate⟩ (isMoreConstrained_templates more')
      · omega
      · omega

theorem selectOverloadDetailed_eq (candidates : List OverloadCandidate) :
    session.selectOverloadDetailed call candidates =
      if (session.viable call candidates).isEmpty then {}
      else
        match winner (session.better call) (session.viable call candidates) with
        | some best => best.selection
        | none => { ambiguous := true } :=
  rfl

theorem ambiguous_iff
    (asymmetric : AsymmetricOn (session.better call) (session.viable call candidates)) :
    (session.selectOverloadDetailed call candidates).ambiguous = true ↔
      session.viable call candidates ≠ [] ∧
        ¬∃ best, Beats (session.better call) (session.viable call candidates) best := by
  rw [selectOverloadDetailed_eq]
  cases wins : winner (session.better call) (session.viable call candidates) with
  | some best =>
    have beats := (Aburi.Lib.winner_eq_some_iff asymmetric).mp wins
    constructor
    · intro isAmbiguous
      split at isAmbiguous <;> contradiction
    · rintro ⟨_, none⟩
      exact absurd ⟨best, beats⟩ none
  | none =>
    have noBest : ¬∃ best, Beats (session.better call) (session.viable call candidates) best := by
      rintro ⟨best, beats⟩
      rw [(Aburi.Lib.winner_eq_some_iff asymmetric).mpr beats] at wins
      contradiction
    by_cases isNil : session.viable call candidates = []
    · simp [isNil]
    · simp [isNil, noBest]

theorem orderIndependent_of_asymmetric (none : session.NoneSupersedes candidates)
    (negates : ∀ a ∈ session.viable call candidates,
      ∀ b ∈ session.viable call candidates, Negates session a b)
    (asymmetric : AsymmetricOn (session.better call) (session.viable call candidates)) :
    session.OrderIndependent call candidates := by
  constructor
  · exact fun a aMember b bMember => (negates a aMember b bMember).positions
  · exact fun a aMember b bMember => (negates a aMember b bMember).result
  · exact asymmetric
  · intro best beats
    constructor
    · rw [selectOverloadDetailed_eq, (Aburi.Lib.winner_eq_some_iff asymmetric).mpr beats, if_neg]
      rw [List.isEmpty_iff]
      exact ne_nil_of_mem beats.mem
    · exact fun other otherBeats => otherBeats.unique asymmetric beats
  · exact ambiguous_iff asymmetric
  · intro others perm
    have viablePerm := @viable_perm _ _ session call _ _ none perm
    rw [selectOverloadDetailed_eq, selectOverloadDetailed_eq,
      Aburi.Lib.winner_perm asymmetric viablePerm]
    have sameEmpty : (session.viable call others).isEmpty =
        (session.viable call candidates).isEmpty := by
      rw [Bool.eq_iff_iff, List.isEmpty_iff, List.isEmpty_iff]
      constructor
      · intro isNil
        rw [isNil] at viablePerm
        exact viablePerm.eq_nil
      · intro isNil
        rw [isNil] at viablePerm
        exact viablePerm.symm.eq_nil
    rw [sameEmpty]

theorem negates_iff (a b : Scored) :
    Negates session a b ↔
      (∀ position first second, a.conversions[position]? = some first →
        b.conversions[position]? = some second →
          ConversionFile.DecidedBothWays session.file.toConversionFile first.1 first.2
            second.1 second.2
            (position == 0 && a.hasImplicitObjectRank && b.hasImplicitObjectRank)) ∧
      ∀ first second, a.result = some first → b.result = some second →
        ConversionFile.DecidedBothWays session.file.toConversionFile first.1 first.2 second.1
          second.2 false := by
  have flag : ∀ position : ℕ,
      (position == 0 && b.hasImplicitObjectRank && a.hasImplicitObjectRank) =
        (position == 0 && a.hasImplicitObjectRank && b.hasImplicitObjectRank) := by
    intro position
    rw [Bool.and_assoc, Bool.and_comm b.hasImplicitObjectRank, ← Bool.and_assoc]
  constructor
  · intro negates
    constructor
    · intro position first second isFirst isSecond
      have swapped := negates.positions position first second isFirst isSecond
      unfold positionCompare at swapped
      rw [flag] at swapped
      exact ConversionFile.compareImplicitConversionSequences_neg_iff _ _ _ _ _ |>.mp swapped
    · intro first second isFirst isSecond
      have swapped := negates.result
      unfold resultCompare at swapped
      rw [isFirst, isSecond] at swapped
      exact ConversionFile.compareImplicitConversionSequences_neg_iff _ _ _ _ _ |>.mp swapped
  · rintro ⟨positions, results⟩
    constructor
    · intro position first second isFirst isSecond
      unfold positionCompare
      rw [flag]
      exact ConversionFile.compareImplicitConversionSequences_neg_iff _ _ _ _ _ |>.mpr
        (positions position first second isFirst isSecond)
    · unfold resultCompare
      cases isFirst : a.result with
      | none => cases b.result <;> rfl
      | some first =>
        cases isSecond : b.result with
        | none => rfl
        | some second =>
          exact ConversionFile.compareImplicitConversionSequences_neg_iff _ _ _ _ _ |>.mpr
            (results first second isFirst isSecond)

/-- The selection does not depend on the order of the candidates exactly when the
tie-breakers agree whichever candidate is asked first. -/
theorem orderIndependent_iff {candidates : List OverloadCandidate}
    (none : session.NoneSupersedes candidates) :
    session.OrderIndependent call candidates ↔ session.TieBreakersAgree call candidates := by
  constructor
  · intro independent
    have negates : ∀ a ∈ session.viable call candidates,
        ∀ b ∈ session.viable call candidates, Negates session a b := fun a aMember b bMember =>
      ⟨independent.negates a aMember b bMember, independent.negatesResult a aMember b bMember⟩
    constructor
    · exact fun a aMember b bMember => ((negates_iff a b).mp (negates a aMember b bMember)).1
    · exact fun a aMember b bMember => ((negates_iff a b).mp (negates a aMember b bMember)).2
    · intro a aMember b bMember contradicts
      obtain ⟨above, below⟩ := @better_of_contradicts _ _ session call _ _
        (negates a aMember b bMember) contradicts
      have other := independent.asymmetric a aMember b bMember above
      rw [below] at other
      contradiction
  · intro agree
    have negates : ∀ a ∈ session.viable call candidates,
        ∀ b ∈ session.viable call candidates, Negates session a b := fun a aMember b bMember =>
      (negates_iff a b).mpr ⟨agree.positions a aMember b bMember, agree.results a aMember b bMember⟩
    apply orderIndependent_of_asymmetric none negates
    intro a aMember b bMember above
    by_contra notBelow
    have below : session.better call b a = true := by simpa using notBelow
    rcases contradicts_of_better (negates a aMember b bMember) above below with first | second
    · exact agree.candidates a aMember b bMember first
    · exact agree.candidates b bMember a aMember second

end OverloadSession

namespace Comparison

open Aburi.Cir (TypeId EntityId TypeRef)

def structA : TypeId := { index := 1 }
def structB : TypeId := { index := 2 }
/-- `const A&` and `const B&` -/
def refA : TypeId := { index := 3 }
def refB : TypeId := { index := 4 }
/-- `bool (const A&, const B&)` and `bool (const B&, const A&)` -/
def comparesAB : TypeId := { index := 5 }
def comparesBA : TypeId := { index := 6 }
/-- `bool (const T&, const B&)` -/
def pattern : TypeId := { index := 7 }

/-- `template <class T> bool operator==(const T&, const B&);` -/
def genericTemplate : EntityId := { index := 1 }
def generic : EntityId := { index := 2 }
/-- `bool operator==(const B&, const A&);` -/
def plainBA : EntityId := { index := 3 }
/-- `bool operator==(const A&, const B&);` -/
def plainAB : EntityId := { index := 4 }

def shape (type : TypeId) : Option TypeShape :=
  if type = structA ∨ type = structB then some .record
  else if type = refA then some (.lvalueReference { type := structA, qualifiers := 1 })
  else if type = refB then some (.lvalueReference { type := structB, qualifiers := 1 })
  else if type = comparesAB then
    some (.function { parameters := [{ type := refA }, { type := refB }] })
  else if type = comparesBA then
    some (.function { parameters := [{ type := refB }, { type := refA }] })
  else none

def file : OverloadFile where
  resolvedType := id
  shape := shape
  classes := ⟨fun _ => [], fun _ => [], fun _ => 0, by simp, by simp⟩
  analyzeQualificationConversion := fun a b => ⟨false, a.type = b.type, a.type = b.type⟩
  functionPointerConversionMatches := fun _ _ => false
  entity := fun id =>
    if id = generic ∨ id = plainAB then some { kind := .function, type := comparesAB }
    else if id = plainBA then some { kind := .function, type := comparesBA }
    else if id = genericTemplate then some { kind := .function, type := pattern }
    else none
  methodFact := fun _ => none
  templateSpecialization := fun id =>
    if id = generic then some { templateEntity := genericTemplate, patternType := pattern }
    else none
  hasTemplateInfo := fun id => id = genericTemplate
  referenceType := fun _ _ => {}
  declarationMoreConstrained := fun _ _ => false

/-- The binding of `const T&` to an lvalue of type `T`. -/
def bind (argument : TypeId) (parameter : TypeRef) : Conversion :=
  match shape parameter.type with
  | some (.lvalueReference referred) =>
    if referred.type = argument then
      (.exact, { standard := {
        source := { type := argument }
        target := parameter
        sourceCategory := .lValue
        steps := StandardConversionStep.referenceBinding
        boundReferred := argument
        boundQualifiers := 1 } })
    else (.bad, {})
  | _ => (.bad, {})

/-- A session in which an expression is an lvalue of the given type. -/
def session : OverloadSession Unit TypeId where
  file := file
  deduction := ⟨fun _ _ => (), fun a b _ => (a = b, ()), fun _ => false, fun _ _ => (),
    fun _ _ => true⟩
  argumentType := id
  argumentCategory := fun _ => .lValue
  semanticObjectQualifiers := fun _ => none
  placeQualifiers := fun _ => some 0
  typesCompatible := fun a b => a.type = b.type
  conversionRank := fun argument _ parameter _ _ => bind argument parameter
  conversionRankOfType := fun _ _ _ _ => (.bad, {})
  callableDefaultArgument := fun _ _ => false
  hasVirtualBases := fun _ => false

/-- `a == b` -/
def call : OverloadCall TypeId where
  arguments := [structA, structB]

def genericCandidate : OverloadCandidate where
  entity := generic

/-- `b == a`, for an `a == b` -/
def reversedCandidate : OverloadCandidate where
  entity := plainBA
  hasReversedParameters := true
  rewriteKind := .equality

def plainCandidate : OverloadCandidate where
  entity := plainAB

def conversions : List Conversion :=
  [bind structA { type := refA }, bind structB { type := refB }]

def genericScored : Scored where
  entity := generic
  conversions := conversions
  isTemplateSpecialization := true
  orderingArgumentCount := 2

def plainScored : Scored where
  entity := plainAB
  conversions := conversions
  orderingArgumentCount := 2

end Comparison

open Comparison in
/-- The function that is no template is better than the template, and the template is
better than the rewritten candidate: whichever comes last is selected. -/
theorem reversed_not_orderIndependent :
    session.NoneSupersedes [genericCandidate, reversedCandidate] ∧
      ¬session.OrderIndependent call [genericCandidate, reversedCandidate] := by
  constructor
  · refine List.pairwise_pair.mpr ⟨?_, ?_⟩ <;> decide
  · intro independent
    have same := independent.permuted [reversedCandidate, genericCandidate] (List.Perm.swap _ _ [])
    revert same
    decide

open Comparison in
theorem plain_orderIndependent :
    session.OrderIndependent call [genericCandidate, plainCandidate] := by
  have isViable : session.viable call [genericCandidate, plainCandidate] =
      [genericScored, plainScored] := rfl
  have known : ∀ scored ∈ session.viable call [genericCandidate, plainCandidate],
      scored = genericScored ∨ scored = plainScored := by
    intro scored member
    rw [isViable] at member
    simpa using member
  have same : ∀ scored ∈ session.viable call [genericCandidate, plainCandidate],
      scored.conversions = conversions ∧ scored.result = none := by
    intro scored member
    rcases known scored member with rfl | rfl
    · exact ⟨rfl, rfl⟩
    · exact ⟨rfl, rfl⟩
  apply (OverloadSession.orderIndependent_iff _).mpr
  · constructor
    · intro a aMember b bMember position first second isFirst isSecond
      rw [(same a aMember).1] at isFirst
      rw [(same b bMember).1, isFirst] at isSecond
      obtain rfl := Option.some.inj isSecond
      exact fun _ disagree => absurd rfl disagree.2.1
    · intro a aMember b _ first second isFirst
      rw [(same a aMember).2] at isFirst
      contradiction
    · intro a aMember b bMember contradicts
      have noFacts : ∀ x y, session.isMoreConstrained x y = false := by
        intro x y
        simp [OverloadSession.isMoreConstrained, session, file]
      have noMembers : ∀ x y, session.compareMembers x y = 0 := fun _ _ => rfl
      have noRewrites : OverloadSession.compareRewrites b a = 0 := by
        rcases known a aMember with rfl | rfl <;> rcases known b bMember with rfl | rfl <;> rfl
      rcases contradicts.2 with ⟨_, _, later⟩ | ⟨_, _, _, more, _⟩
      · rw [noMembers, noFacts, noRewrites] at later
        simp at later
      · rw [noFacts] at more
        contradiction
  · refine List.pairwise_pair.mpr ⟨?_, ?_⟩ <;> decide

end Aburi.Collect
