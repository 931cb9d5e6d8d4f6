import Aburi.Cir.InternExprSound

/-!
# Nested expressions are walked once

To canonicalize an expression is to canonicalize the expressions in its nodes
and then to intern it, and the interning canonicalizes the nodes again.  The
second walk finds every nested expression with its canonical id and changes
nothing.
-/

namespace Aburi.Cir

open Aburi.Lib (HashCons)

section Settled

variable (file : File)

mutual

/-- All expressions in the argument know the id of their canonical copy. -/
def SettledArgument : TemplateArgument → Prop
  | .mk _ elements valueExpr countExpr alternative =>
    SettledArguments elements ∧ SettledAlternative alternative ∧
      SettledExpression valueExpr ∧ SettledExpression countExpr

def SettledArguments : List TemplateArgument → Prop
  | [] => True
  | argument :: rest => SettledArgument argument ∧ SettledArguments rest

def SettledAlternative : Option TemplateArgument → Prop
  | none => True
  | some argument => SettledArgument argument

def SettledExpression : TemplateValueExpression → Prop
  | .mk nodes root canonicalId =>
    ((TemplateValueExpression.mk nodes root canonicalId).valid = false ∧ canonicalId = {}) ∨
      ((TemplateValueExpression.mk nodes root canonicalId).valid = true ∧
        SettledNodes nodes ∧
        ∃ stored, file.valueExprTable.keyAt canonicalId = some stored ∧
          templateValueExprsStructurallyEqual stored (.mk nodes root {}) = true)

def SettledNodes : List TemplateValueExprNode → Prop
  | [] => True
  | node :: rest => SettledNode node ∧ SettledNodes rest

def SettledNode : TemplateValueExprNode → Prop
  | .mk _ arguments => SettledArguments arguments

end

end Settled

section Walks

variable (stringHash : String → UInt64) {file later : File}

/-- Every expression that has a name in the file has it later. -/
def File.KeepsExprs (file later : File) : Prop :=
  ∀ id stored, file.valueExprTable.keyAt id = some stored →
    later.valueExprTable.keyAt id = some stored

mutual

theorem settledArgument_later (kept : file.KeepsExprs later)
    (argument : TemplateArgument)
    (settled : SettledArgument file argument) : SettledArgument later argument := by
  cases argument with
  | mk fields elements valueExpr countExpr alternative =>
    obtain ⟨elementsSettled, alternativeSettled, valueSettled, countSettled⟩ := settled
    exact ⟨settledArguments_later kept elements elementsSettled,
      settledAlternative_later kept alternative alternativeSettled,
      settledExpression_later kept valueExpr valueSettled,
      settledExpression_later kept countExpr countSettled⟩

theorem settledArguments_later (kept : file.KeepsExprs later)
    (arguments : List TemplateArgument)
    (settled : SettledArguments file arguments) : SettledArguments later arguments := by
  cases arguments with
  | nil => trivial
  | cons argument rest =>
    exact ⟨settledArgument_later kept argument settled.1,
      settledArguments_later kept rest settled.2⟩

theorem settledAlternative_later (kept : file.KeepsExprs later)
    (alternative : Option TemplateArgument)
    (settled : SettledAlternative file alternative) :
    SettledAlternative later alternative := by
  cases alternative with
  | none => trivial
  | some argument => exact settledArgument_later kept argument settled

theorem settledExpression_later (kept : file.KeepsExprs later)
    (expression : TemplateValueExpression)
    (settled : SettledExpression file expression) : SettledExpression later expression := by
  cases expression with
  | mk nodes root canonicalId =>
    rcases settled with unset | ⟨valid, nodesSettled, stored, named, equal⟩
    · exact Or.inl unset
    · exact Or.inr ⟨valid, settledNodes_later kept nodes nodesSettled, stored,
        kept _ _ named, equal⟩

theorem settledNodes_later (kept : file.KeepsExprs later)
    (nodes : List TemplateValueExprNode)
    (settled : SettledNodes file nodes) : SettledNodes later nodes := by
  cases nodes with
  | nil => trivial
  | cons node rest =>
    exact ⟨settledNode_later kept node settled.1, settledNodes_later kept rest settled.2⟩

theorem settledNode_later (kept : file.KeepsExprs later)
    (node : TemplateValueExprNode)
    (settled : SettledNode file node) : SettledNode later node := by
  cases node with
  | mk fields arguments => exact settledArguments_later kept arguments settled

end

theorem length_canonicalizeNodes (nodes : List TemplateValueExprNode) (file : File) :
    (canonicalizeTemplateValueExprNodes stringHash nodes file).1.length = nodes.length := by
  induction nodes generalizing file with
  | nil => rfl
  | cons node rest ih =>
    simp [canonicalizeTemplateValueExprNodes, ih]

variable {nodes : List TemplateValueExprNode} {root : UInt32}

theorem valid_mk_iff {id : ValueExprId} :
    (TemplateValueExpression.mk nodes root id).valid = true ↔
      root ≠ templateValueExprNoNode ∧ root.toNat < nodes.length := by
  rw [TemplateValueExpression.valid, Bool.and_eq_true, bne_iff_ne, decide_eq_true_iff]
  rfl

theorem valid_canonicalizeNodes {id id' : ValueExprId} (file : File) :
    (TemplateValueExpression.mk (canonicalizeTemplateValueExprNodes stringHash nodes file).1
        root id).valid =
      (TemplateValueExpression.mk nodes root id').valid := by
  rw [Bool.eq_iff_iff, valid_mk_iff, valid_mk_iff, length_canonicalizeNodes]

mutual

theorem canonicalizeArgument_settled (argument : TemplateArgument) (file : File)
    (sound : file.ExprsSound stringHash)
    (fits : (canonicalizeTemplateArgumentValueExpressions stringHash argument
      file).2.valueExpressions.length ≤ 2 ^ 32) :
    SettledArgument (canonicalizeTemplateArgumentValueExpressions stringHash argument file).2
      (canonicalizeTemplateArgumentValueExpressions stringHash argument file).1 := by
  cases argument with
  | mk fields elements valueExpr countExpr alternative =>
    simp only [canonicalizeTemplateArgumentValueExpressions] at fits ⊢
    -- every part of the argument is settled in the file after it and stays so
    have elementsGrow := (grows_walk stringHash).arguments elements file
    have elementsSettled := canonicalizeArguments_settled elements file sound
    revert fits elementsGrow elementsSettled
    generalize canonicalizeTemplateArguments stringHash elements file = first
    intro fits elementsGrow elementsSettled
    have alternativeGrow := (grows_walk stringHash).alternative alternative first.2
    have alternativeSettled := canonicalizeAlternative_settled alternative first.2
    revert fits alternativeGrow alternativeSettled
    generalize canonicalizeAlternative stringHash alternative first.2 = second
    intro fits alternativeGrow alternativeSettled
    have valueGrow := (grows_walk stringHash).expression valueExpr second.2
    have valueSettled := canonicalizeExpression_settled valueExpr second.2
    revert fits valueGrow valueSettled
    generalize canonicalizeTemplateValueExpression stringHash valueExpr second.2 = third
    intro fits valueGrow valueSettled
    have countGrow := (grows_walk stringHash).expression countExpr third.2
    have countSettled := canonicalizeExpression_settled countExpr third.2
    have thirdFits := le_trans countGrow.length fits
    have secondFits := le_trans valueGrow.length thirdFits
    have firstFits := le_trans alternativeGrow.length secondFits
    obtain ⟨firstSound, -⟩ := elementsGrow.sound firstFits sound
    obtain ⟨secondSound, secondKept⟩ := alternativeGrow.sound secondFits firstSound
    obtain ⟨thirdSound, thirdKept⟩ := valueGrow.sound thirdFits secondSound
    obtain ⟨-, countKept⟩ := countGrow.sound fits thirdSound
    refine ⟨?_, ?_, ?_, countSettled thirdSound fits⟩
    · apply settledArguments_later countKept
      apply settledArguments_later thirdKept
      exact settledArguments_later secondKept _ (elementsSettled firstFits)
    · apply settledAlternative_later countKept
      exact settledAlternative_later thirdKept _ (alternativeSettled firstSound secondFits)
    · exact settledExpression_later countKept _ (valueSettled secondSound thirdFits)

theorem canonicalizeArguments_settled (arguments : List TemplateArgument) (file : File)
    (sound : file.ExprsSound stringHash)
    (fits : (canonicalizeTemplateArguments stringHash arguments
      file).2.valueExpressions.length ≤ 2 ^ 32) :
    SettledArguments (canonicalizeTemplateArguments stringHash arguments file).2
      (canonicalizeTemplateArguments stringHash arguments file).1 := by
  cases arguments with
  | nil => trivial
  | cons argument rest =>
    simp only [canonicalizeTemplateArguments] at fits ⊢
    have restGrow := (grows_walk stringHash).arguments rest
      (canonicalizeTemplateArgumentValueExpressions stringHash argument file).2
    have firstFits := le_trans restGrow.length fits
    obtain ⟨firstSound, -⟩ := ((grows_walk stringHash).argument argument file).sound firstFits sound
    obtain ⟨-, kept⟩ := restGrow.sound fits firstSound
    exact ⟨settledArgument_later kept _
        (canonicalizeArgument_settled argument file sound firstFits),
      canonicalizeArguments_settled rest _ firstSound fits⟩

theorem canonicalizeAlternative_settled (alternative : Option TemplateArgument) (file : File)
    (sound : file.ExprsSound stringHash)
    (fits : (canonicalizeAlternative stringHash alternative
      file).2.valueExpressions.length ≤ 2 ^ 32) :
    SettledAlternative (canonicalizeAlternative stringHash alternative file).2
      (canonicalizeAlternative stringHash alternative file).1 := by
  cases alternative with
  | none => trivial
  | some argument =>
    simp only [canonicalizeAlternative] at fits ⊢
    exact canonicalizeArgument_settled argument file sound fits

theorem canonicalizeExpression_settled (expression : TemplateValueExpression) (file : File)
    (sound : file.ExprsSound stringHash)
    (fits : (canonicalizeTemplateValueExpression stringHash expression
      file).2.valueExpressions.length ≤ 2 ^ 32) :
    SettledExpression (canonicalizeTemplateValueExpression stringHash expression file).2
      (canonicalizeTemplateValueExpression stringHash expression file).1 := by
  cases expression with
  | mk nodes root canonicalId =>
    rw [canonicalizeTemplateValueExpression] at fits ⊢
    split at fits
    case isFalse invalid =>
      rw [if_neg invalid]
      exact Or.inl ⟨Bool.not_eq_true _ ▸ invalid, rfl⟩
    case isTrue valid =>
      rw [if_pos valid]
      simp only at fits ⊢
      have nodesGrow := (grows_walk stringHash).nodes nodes file
      have nodesSettled := canonicalizeNodes_settled nodes file sound
      have sameValid := @valid_canonicalizeNodes stringHash nodes root canonicalId canonicalId file
      have validity := fun id => @valid_canonicalizeNodes stringHash nodes root id canonicalId file
      revert fits nodesGrow nodesSettled sameValid validity
      generalize canonicalizeTemplateValueExprNodes stringHash nodes file = walked
      intro fits nodesGrow nodesSettled sameValid validity
      have grows := internCanonicalized_grows stringHash walked.2 (.mk walked.1 root canonicalId)
      have walkedFits := le_trans grows.length fits
      obtain ⟨walkedSound, -⟩ := nodesGrow.sound walkedFits sound
      obtain ⟨-, kept⟩ := grows.sound fits walkedSound
      obtain ⟨sameId, sameTable⟩ := internCanonicalized_eq stringHash walkedSound
        (.mk walked.1 root canonicalId)
      have room : (walked.2.internCanonicalized stringHash
          (.mk walked.1 root canonicalId)).2.valueExprTable.keys.length ≤ 2 ^ 32 := fits
      rw [sameTable] at room
      obtain ⟨stored, named, equal⟩ := HashCons.intern_keyAt _ _ walkedSound
        valueExprsEqual_refl room
      refine Or.inr ⟨(validity _).trans valid,
        settledNodes_later kept _ (nodesSettled walkedFits), stored, ?_, ?_⟩
      · rw [sameId, sameTable]
        exact named
      · rw [structurallyEqual_withCanonicalId, ← structurallyEqual_withCanonicalId _ _ {}] at equal
        exact equal

theorem canonicalizeNodes_settled (nodes : List TemplateValueExprNode) (file : File)
    (sound : file.ExprsSound stringHash)
    (fits : (canonicalizeTemplateValueExprNodes stringHash nodes
      file).2.valueExpressions.length ≤ 2 ^ 32) :
    SettledNodes (canonicalizeTemplateValueExprNodes stringHash nodes file).2
      (canonicalizeTemplateValueExprNodes stringHash nodes file).1 := by
  cases nodes with
  | nil => trivial
  | cons node rest =>
    simp only [canonicalizeTemplateValueExprNodes] at fits ⊢
    have restGrow := (grows_walk stringHash).nodes rest
      (canonicalizeTemplateValueExprNode stringHash node file).2
    have firstFits := le_trans restGrow.length fits
    obtain ⟨firstSound, -⟩ := ((grows_walk stringHash).node node file).sound firstFits sound
    obtain ⟨-, kept⟩ := restGrow.sound fits firstSound
    exact ⟨settledNode_later kept _ (canonicalizeNode_settled node file sound firstFits),
      canonicalizeNodes_settled rest _ firstSound fits⟩

theorem canonicalizeNode_settled (node : TemplateValueExprNode) (file : File)
    (sound : file.ExprsSound stringHash)
    (fits : (canonicalizeTemplateValueExprNode stringHash node
      file).2.valueExpressions.length ≤ 2 ^ 32) :
    SettledNode (canonicalizeTemplateValueExprNode stringHash node file).2
      (canonicalizeTemplateValueExprNode stringHash node file).1 := by
  cases node with
  | mk fields arguments =>
    simp only [canonicalizeTemplateValueExprNode] at fits ⊢
    exact canonicalizeArguments_settled arguments file sound fits

end

theorem isCanonical_of_keyAt {file : File} {canonicalId : ValueExprId}
    {stored : TemplateValueExpression} (named : file.valueExprTable.keyAt canonicalId = some stored)
    (equal : templateValueExprsStructurallyEqual stored (.mk nodes root {}) = true) :
    file.isCanonical (.mk nodes root canonicalId) = true := by
  have alive : file.validValueExpression canonicalId = true := by
    by_contra dead
    have : file.valueExprTable.keyAt canonicalId = none := if_neg dead
    simp [this] at named
  have found := (HashCons.keyAt_eq_some.mp named).2.1
  rw [← structurallyEqual_withCanonicalId stored (.mk nodes root {}) canonicalId] at equal
  simp only [File.isCanonical, TemplateValueExpression.canonicalId, alive, Bool.true_and]
  rw [show file.valueExpressions[canonicalId.index.toNat]? = some stored from found]
  exact equal

mutual

theorem canonicalizeArgument_of_settled (argument : TemplateArgument) (file : File)
    (settled : SettledArgument file argument) :
    canonicalizeTemplateArgumentValueExpressions stringHash argument file = (argument, file) := by
  cases argument with
  | mk fields elements valueExpr countExpr alternative =>
    obtain ⟨elementsSettled, alternativeSettled, valueSettled, countSettled⟩ := settled
    simp only [canonicalizeTemplateArgumentValueExpressions,
      canonicalizeArguments_of_settled elements file elementsSettled,
      canonicalizeAlternative_of_settled alternative file alternativeSettled,
      canonicalizeExpression_of_settled valueExpr file valueSettled,
      canonicalizeExpression_of_settled countExpr file countSettled]

theorem canonicalizeArguments_of_settled (arguments : List TemplateArgument) (file : File)
    (settled : SettledArguments file arguments) :
    canonicalizeTemplateArguments stringHash arguments file = (arguments, file) := by
  cases arguments with
  | nil => rfl
  | cons argument rest =>
    simp only [canonicalizeTemplateArguments,
      canonicalizeArgument_of_settled argument file settled.1,
      canonicalizeArguments_of_settled rest file settled.2]

theorem canonicalizeAlternative_of_settled (alternative : Option TemplateArgument)
    (file : File) (settled : SettledAlternative file alternative) :
    canonicalizeAlternative stringHash alternative file = (alternative, file) := by
  cases alternative with
  | none => rfl
  | some argument =>
    simp only [canonicalizeAlternative, canonicalizeArgument_of_settled argument file settled]

theorem canonicalizeExpression_of_settled (expression : TemplateValueExpression)
    (file : File) (settled : SettledExpression file expression) :
    canonicalizeTemplateValueExpression stringHash expression file = (expression, file) := by
  cases expression with
  | mk nodes root canonicalId =>
    rw [canonicalizeTemplateValueExpression]
    rcases settled with ⟨invalid, unset⟩ | ⟨valid, nodesSettled, stored, named, equal⟩
    · rw [if_neg (by simp [invalid]), unset]
    · have canonical := isCanonical_of_keyAt named equal
      simp only [if_pos valid, canonicalizeNodes_of_settled nodes file nodesSettled,
        File.internCanonicalized, if_pos canonical]
      rfl

theorem canonicalizeNodes_of_settled (nodes : List TemplateValueExprNode) (file : File)
    (settled : SettledNodes file nodes) :
    canonicalizeTemplateValueExprNodes stringHash nodes file = (nodes, file) := by
  cases nodes with
  | nil => rfl
  | cons node rest =>
    simp only [canonicalizeTemplateValueExprNodes, canonicalizeNode_of_settled node file settled.1,
      canonicalizeNodes_of_settled rest file settled.2]

theorem canonicalizeNode_of_settled (node : TemplateValueExprNode) (file : File)
    (settled : SettledNode file node) :
    canonicalizeTemplateValueExprNode stringHash node file = (node, file) := by
  cases node with
  | mk fields arguments =>
    simp only [canonicalizeTemplateValueExprNode,
      canonicalizeArguments_of_settled arguments file settled]

end

/-- The definition of the source: canonicalize the nodes, keep a canonical id that is
still right, and intern the expression otherwise. -/
theorem canonicalizeTemplateValueExpression_eq (sound : file.ExprsSound stringHash)
    {canonicalId : ValueExprId}
    (valid : (TemplateValueExpression.mk nodes root canonicalId).valid = true)
    (fits : (canonicalizeTemplateValueExprNodes stringHash nodes
      file).2.valueExpressions.length ≤ 2 ^ 32) :
    canonicalizeTemplateValueExpression stringHash (.mk nodes root canonicalId) file =
      (let walked := canonicalizeTemplateValueExprNodes stringHash nodes file
       if walked.2.isCanonical (.mk walked.1 root canonicalId) then
         (.mk walked.1 root canonicalId, walked.2)
       else
         let interned := walked.2.internTemplateValueExpression stringHash (.mk walked.1 root {})
         (.mk walked.1 root interned.1, interned.2)) := by
  have settled := canonicalizeNodes_settled stringHash nodes file sound fits
  have validity := @valid_canonicalizeNodes stringHash nodes root {} canonicalId file
  rw [valid] at validity
  rw [canonicalizeTemplateValueExpression, if_pos valid]
  revert settled validity
  generalize canonicalizeTemplateValueExprNodes stringHash nodes file = walked
  intro settled validity
  have unchanged := canonicalizeNodes_of_settled stringHash walked.1 walked.2 settled
  simp only [File.internTemplateValueExpression, validity, if_true,
    TemplateValueExpression.nodes, TemplateValueExpression.root,
    TemplateValueExpression.canonicalId, unchanged]
  split
  case isTrue canonical =>
    simp only [File.internCanonicalized, if_pos canonical]
    rfl
  case isFalse stale =>
    have unset : walked.2.isCanonical (.mk walked.1 root {}) = false := by
      simp [File.isCanonical, TemplateValueExpression.canonicalId, File.validValueExpression,
        Aburi.Lib.Generations.live, Aburi.Lib.Handle.valid]
    simp only [File.internCanonicalized, if_neg stale, unset, Bool.false_eq_true, if_false]
    rfl

/-- The number 3, and a file that stores it. -/
def three : TemplateValueExpression := .mk [.mk { kind := .integer, value := 3 } []] 0 {}

def fileOfThree : File := (File.internTemplateValueExpression (fun _ => 0) {} three).2

/-- The nodes of a call whose argument holds the number 3 without its canonical id. -/
def callOfThree (id : ValueExprId) : List TemplateValueExprNode :=
  [.mk { kind := .call } [.mk { kind := .value } [] (three.withCanonicalId id) .empty none]]

theorem canonicalizeTemplateValueExpression_eq_nested :
    canonicalizeTemplateValueExprNodes (fun _ => 0) (callOfThree {}) fileOfThree =
        (callOfThree ⟨1, 1⟩, fileOfThree) ∧
      canonicalizeTemplateValueExpression (fun _ => 0) (.mk (callOfThree {}) 0 {}) fileOfThree =
        (let interned := fileOfThree.internTemplateValueExpression (fun _ => 0)
          (.mk (callOfThree ⟨1, 1⟩) 0 {})
         (.mk (callOfThree ⟨1, 1⟩) 0 interned.1, interned.2)) := by
  have sound : fileOfThree.ExprsSound (fun _ => 0) :=
    ((internTemplateValueExpression_grows _ {} three).sound (by decide)
      (HashCons.initial_sound _)).1
  have walked : canonicalizeTemplateValueExprNodes (fun _ => 0) (callOfThree {}) fileOfThree =
      (callOfThree ⟨1, 1⟩, fileOfThree) := rfl
  have once := @canonicalizeTemplateValueExpression_eq (fun _ => 0) fileOfThree (callOfThree {}) 0
    sound {} rfl (by rw [walked]; decide)
  refine ⟨walked, once.trans ?_⟩
  simp only [walked]
  rfl

end Walks

end Aburi.Cir
