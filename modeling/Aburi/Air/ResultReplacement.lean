import Aburi.Air.SingleAssignment
import Aburi.Air.ValueTables

/-!
# Replacing a result

An instruction is deleted and another value stands for its result.  The points
of the new function are the old ones without the point of the deleted
instruction, so what was executed on every path still is.
-/

namespace Aburi.Air

open Aburi.Lib List

variable {point : Point} {j : InstId} {v : ValueId}

namespace Function

/-- The value that is read instead of a value. -/
def renamed (old new v : ValueId) : ValueId := if v = old then new else v

/-- The second function is the first without an instruction, whose result is
replaced by a value; more constants may have been interned. -/
structure Replaces (f g : Function) (i : InstId) (w : ValueId) : Prop where
  layout : g.layout = f.layout
  insts : ∀ b, g.blockInsts b = (f.blockInsts b).erase i
  params : ∀ b, g.blockParams b = f.blockParams b
  inst : ∀ j, j ≠ i → g.inst j =
    { f.inst j with operands := (f.operands j).map (renamed (f.inst i).result w) }
  calls : ∀ call, g.blockCall call =
    { f.blockCall call with
      args := (f.blockCallArgs call).map (renamed (f.inst i).result w) }
  jumpTables : g.jumpTables = f.jumpTables
  blockCallLists : g.blockCallLists = f.blockCallLists
  values : ∀ v, f.isValidValue v = true → g.value v = f.value v
  valid : ∀ v, f.isValidValue v = true → g.isValidValue v = true

/-- What the value has to be at the point of the instruction that is deleted. -/
structure Stands (f g : Function) (i : InstId) (w : ValueId) (gone : Point) : Prop where
  other : w ≠ (f.inst i).result
  readable : f.Readable w gone ∨ g.isValidValue w = true ∧ g.isConstant w = true
  type : g.valueType w = f.valueType (f.inst i).result

/-- The point of the old function at which a point of the new one continues,
when the instruction at `gone` is deleted. -/
def expand (gone point : Point) : Point :=
  if point.1 = gone.1 ∧ gone.2 ≤ point.2 then (point.1, point.2 + 1) else point

theorem expand_ne (gone point : Point) : expand gone point ≠ gone := by
  rw [expand]
  split
  case isTrue later =>
    intro same
    have := congrArg Prod.snd same
    simp only at this
    omega
  case isFalse earlier =>
    rintro rfl
    exact earlier ⟨rfl, Nat.le_refl _⟩

theorem expand_injective (gone : Point) : Function.Injective (expand gone) := by
  rintro ⟨b, k⟩ ⟨c, l⟩ same
  simp only [expand] at same
  split at same <;> split at same <;> grind

theorem expand_surjective {gone : Point} (other : point ≠ gone) :
    ∃ image, expand gone image = point := by
  obtain ⟨b, k⟩ := point
  by_cases later : b = gone.1 ∧ gone.2 < k
  · refine ⟨(b, k - 1), ?_⟩
    rw [expand, if_pos ⟨later.1, by omega⟩]
    simp only [Prod.mk.injEq, true_and]
    omega
  · refine ⟨(b, k), ?_⟩
    rw [expand, if_neg]
    rintro ⟨sameBlock, bound⟩
    have equal : k = gone.2 := by
      by_contra different
      exact later ⟨sameBlock, Nat.lt_of_le_of_ne bound (Ne.symm different)⟩
    exact other (Prod.ext sameBlock equal)

@[simp] theorem expand_fst (gone point : Point) : (expand gone point).1 = point.1 := by
  rw [expand]
  split <;> rfl

theorem expand_start (gone : Point) (b : BlockId) :
    expand gone (b, 0) = (b, 0) ∨ gone = (b, 0) ∧ expand gone (b, 0) = (b, 1) := by
  by_cases here : b = gone.1 ∧ gone.2 ≤ 0
  · right
    refine ⟨Prod.ext here.1.symm (Nat.le_zero.mp here.2), ?_⟩
    rw [expand, if_pos here]
  · left
    rw [expand, if_neg here]

theorem expand_next (gone point : Point) :
    expand gone (point.1, point.2 + 1) = ((expand gone point).1, (expand gone point).2 + 1) ∨
      gone = ((expand gone point).1, (expand gone point).2 + 1) ∧
        expand gone (point.1, point.2 + 1) = (gone.1, gone.2 + 1) := by
  obtain ⟨b, k⟩ := point
  obtain ⟨c, l⟩ := gone
  simp only [expand]
  split <;> split <;> grind

namespace Replaces

variable {f g : Function} {i : InstId} {w : ValueId} (replaces : Replaces f g i w)
  (single : f.SingleAssignment) {gone : Point} (found : f.instAt gone i)
  (inside : (f.inst i).op.isTerminator = false)

include replaces

theorem op_eq (other : j ≠ i) : (g.inst j).op = (f.inst j).op := by
  rw [replaces.inst j other]

theorem result_eq (other : j ≠ i) : (g.inst j).result = (f.inst j).result := by
  rw [replaces.inst j other]

theorem operands_eq (other : j ≠ i) :
    g.operands j = (f.operands j).map (renamed (f.inst i).result w) := by
  rw [operands, replaces.inst j other]

theorem target_eq (call : BlockCallId) :
    (g.blockCall call).target = (f.blockCall call).target := by
  rw [replaces.calls]

theorem args_eq (call : BlockCallId) :
    g.blockCallArgs call = (f.blockCallArgs call).map (renamed (f.inst i).result w) := by
  rw [blockCallArgs, replaces.calls]

theorem successors_eq (other : j ≠ i) : g.successors j = f.successors j := by
  simp only [successors, replaces.inst j other, jumpTable, replaces.jumpTables,
    blockCallList, replaces.blockCallLists]

theorem isConstant_eq (valid : f.isValidValue v = true) :
    g.isConstant v = f.isConstant v := by
  simp only [isConstant]
  rw [replaces.values v valid]

theorem entryBlock_eq : g.entryBlock = f.entryBlock := by
  rw [entryBlock, replaces.layout, entryBlock]

include single found

theorem instAt_iff :
    g.instAt point j ↔ f.instAt (expand gone point) j := by
  obtain ⟨b, k⟩ := point
  rw [instAt, instAt, replaces.insts, expand_fst]
  by_cases sameBlock : b = gone.1
  · subst sameBlock
    have erased : (f.blockInsts gone.1).erase i = (f.blockInsts gone.1).eraseIdx gone.2 := by
      have bound := (List.getElem?_eq_some_iff.mp found).1
      have isInst : (f.blockInsts gone.1)[gone.2] = i := (List.getElem?_eq_some_iff.mp found).2
      conv_lhs => rw [← isInst]
      exact (single.consistent.instsNodup gone.1).erase_getElem gone.2 bound
    rw [erased, getElem?_eraseIdx, expand]
    by_cases later : gone.2 ≤ k
    · rw [if_neg (by omega), if_pos ⟨rfl, later⟩]
    · rw [if_pos (by omega), if_neg (by simp [later])]
  · have absent : i ∉ f.blockInsts b := by
      intro member
      have owner := (single.consistent.attached _ i (mem_of_getElem? found)).2.2
      exact sameBlock ((single.consistent.attached b i member).2.2.symm.trans owner)
    rw [erase_of_not_mem absent, expand, if_neg (fun both => sameBlock both.1)]

theorem ne_of_instAt (at' : g.instAt point j) : j ≠ i := by
  rintro rfl
  have here := (replaces.instAt_iff single found).mp at'
  exact expand_ne gone point (single.consistent.point_unique here found)

include inside

/-- A step of the new function is a step of the old one, or two where the
deleted instruction lies between. -/
theorem edge_expand {next : Point} (edge : next ∈ g.pointSuccs point) :
    expand gone next ∈ f.pointSuccs (expand gone point) ∨
      gone ∈ f.pointSuccs (expand gone point) ∧ expand gone next ∈ f.pointSuccs gone := by
  have onlyNext := pointSuccs_of_inst found inside
  rw [pointSuccs] at edge
  split at edge
  · cases edge
  rename_i j at'
  have other := replaces.ne_of_instAt single found at'
  have here : f.instAt (expand gone point) j := (replaces.instAt_iff single found).mp at'
  rw [replaces.op_eq other, replaces.successors_eq other] at edge
  split at edge
  case isTrue terminator =>
    obtain ⟨target, inList, rfl⟩ := List.mem_map.mp edge
    obtain ⟨member, linked⟩ := mem_filter.mp inList
    obtain ⟨call, isEdge, rfl⟩ := List.mem_map.mp member
    obtain ⟨index, taken⟩ := getElem?_of_mem isEdge
    rw [replaces.target_eq, replaces.layout] at linked
    have step := mem_pointSuccs_of_edge here taken (of_decide_eq_true linked)
    rw [replaces.target_eq]
    rcases expand_start gone (f.blockCall call).target with same | ⟨before, after⟩
    · exact .inl (same.symm ▸ step)
    · refine .inr ⟨before ▸ step, ?_⟩
      rw [onlyNext, after, before]
      exact mem_singleton_self _
  case isFalse inner =>
    have step := pointSuccs_of_inst here (Bool.eq_false_iff.mpr inner)
    rw [mem_singleton.mp edge]
    rcases expand_next gone point with same | ⟨before, after⟩
    · left
      rw [step, same]
      exact mem_singleton_self _
    · right
      rw [step, onlyNext, after]
      exact ⟨mem_singleton.mpr before, mem_singleton_self _⟩

theorem walk_expand {trail : List (Point × ℕ)}
    (walk : Cfg.Walk g.pointSuccs g.entryPoint trail point) :
    ∃ longer, Cfg.Walk f.pointSuccs f.entryPoint longer (expand gone point) ∧
      ∀ taken ∈ longer, taken.1 = gone ∨
        ∃ image index, expand gone image = taken.1 ∧ (image, index) ∈ trail := by
  have passGone : ∀ {longer : List (Point × ℕ)} {next : Point},
      Cfg.Walk f.pointSuccs f.entryPoint longer gone → next ∈ f.pointSuccs gone →
      ∃ index, Cfg.Walk f.pointSuccs f.entryPoint ((gone, index) :: longer) next := by
    intro longer next walk edge
    obtain ⟨index, taken⟩ := getElem?_of_mem edge
    exact ⟨index, walk.step taken⟩
  induction walk with
  | start =>
    have sameEntry : g.entryPoint = (f.entryBlock, 0) := by
      rw [entryPoint, replaces.entryBlock_eq]
    rw [sameEntry]
    rcases expand_start gone f.entryBlock with same | ⟨here, after⟩
    · rw [same]
      exact ⟨[], .start, fun taken member => nomatch member⟩
    · have edge : (f.entryBlock, 1) ∈ f.pointSuccs gone := by
        rw [pointSuccs_of_inst found inside, here]
        exact mem_singleton_self _
      have atGone : Cfg.Walk f.pointSuccs f.entryPoint [] gone := by
        rw [here]
        exact .start
      obtain ⟨index, walk⟩ := passGone atGone edge
      rw [after]
      refine ⟨_, walk, ?_⟩
      intro taken member
      rw [mem_singleton.mp member]
      exact .inl rfl
  | @step trail point next index before edge ih =>
    obtain ⟨longer, walk, covered⟩ := ih
    have grown : ∀ {index' : ℕ} {taken : Point × ℕ},
        taken ∈ (expand gone point, index') :: longer → taken.1 = gone ∨
          ∃ image index'', expand gone image = taken.1 ∧
            (image, index'') ∈ (point, index) :: trail := by
      intro index' taken member
      rcases mem_cons.mp member with newest | older
      · exact .inr ⟨point, index, by rw [newest], mem_cons_self⟩
      · exact (covered taken older).imp id fun ⟨image, index'', same, left⟩ =>
          ⟨image, index'', same, mem_cons_of_mem _ left⟩
    rcases replaces.edge_expand single found inside (mem_of_getElem? edge) with
      direct | ⟨toGone, onward⟩
    · obtain ⟨index', taken⟩ := getElem?_of_mem direct
      exact ⟨_, walk.step taken, fun taken member => grown member⟩
    · obtain ⟨index', taken⟩ := getElem?_of_mem toGone
      obtain ⟨last, whole⟩ := passGone (walk.step taken) onward
      refine ⟨_, whole, ?_⟩
      intro taken member
      rcases mem_cons.mp member with newest | older
      · exact .inl (by rw [newest])
      · exact grown older

theorem reached_expand (reached : g.PointReached point) :
    f.PointReached (expand gone point) := by
  obtain ⟨trail, walk⟩ := reached
  obtain ⟨longer, expanded, -⟩ := replaces.walk_expand single found inside walk
  exact ⟨longer, expanded⟩

theorem executed_of_expand {earlier : Point}
    (executed : f.Executed (expand gone earlier) (expand gone point)) :
    g.Executed earlier point := by
  intro trail walk
  obtain ⟨longer, expanded, covered⟩ := replaces.walk_expand single found inside walk
  obtain ⟨index, member⟩ := executed longer expanded
  rcases covered _ member with isGone | ⟨image, taken, same, left⟩
  · exact absurd isGone (expand_ne gone earlier)
  · rw [expand_injective gone same] at left
    exact ⟨taken, left⟩

theorem readable_of_ne (readable : f.Readable v (expand gone point))
    (other : v ≠ (f.inst i).result) :
    g.Readable v point := by
  obtain ⟨valid, available⟩ := readable
  refine ⟨replaces.valid v valid, ?_⟩
  rw [AvailableAt] at available ⊢
  rw [defInst, replaces.values v valid]
  cases kind : (f.value v).kind with
  | instResult =>
    simp only [kind, if_true] at available ⊢
    obtain ⟨defPoint, atDef, executed⟩ := available
    have different : defPoint ≠ gone := by
      rintro rfl
      have isInst : f.defInst v = i := Option.some.inj (atDef.symm.trans found)
      rw [defInst, if_pos kind] at isInst
      have defined := single.consistent.defs v kind
      rw [isInst] at defined
      exact other defined.symm
    obtain ⟨image, rfl⟩ := expand_surjective different
    rw [defInst, if_pos kind] at atDef
    exact ⟨image, (replaces.instAt_iff single found).mpr atDef,
      replaces.executed_of_expand single found inside executed⟩
  | blockParam =>
    simp only [kind] at available ⊢
    by_cases first : point = (payloadIndex (f.value v), 0)
    · exact .inl first
    right
    have before : f.Executed (payloadIndex (f.value v), 0) (expand gone point) := by
      refine available.resolve_left ?_
      intro here
      rw [expand] at here
      split at here
      · exact absurd (congrArg Prod.snd here) (Nat.succ_ne_zero _)
      · exact first here
    apply replaces.executed_of_expand single found inside
    rcases expand_start gone (payloadIndex (f.value v)) with same | ⟨here, after⟩
    · rw [same]
      exact before
    · -- the deleted instruction began the block
      have onlyNext := pointSuccs_of_inst found inside
      rw [after]
      rw [here] at onlyNext
      refine before.after_only onlyNext ?_
      intro same
      exact first (expand_injective gone (same.trans after.symm))
  | _ => trivial

theorem readable_renamed (produces : (f.inst i).result ≠ 0)
    (stands : f.PointReached gone → Stands f g i w gone) (reached : g.PointReached point)
    (readable : f.Readable v (expand gone point)) :
    g.Readable (renamed (f.inst i).result w v) point := by
  by_cases isResult : v = (f.inst i).result
  · have executed : f.Executed gone (expand gone point) :=
      (isResult ▸ readable).executed single.consistent produces found
    rw [renamed, if_pos isResult]
    have reachedGone := executed.reached (replaces.reached_expand single found inside reached)
    obtain ⟨other, before | ⟨valid, constant⟩, -⟩ := stands reachedGone
    · exact replaces.readable_of_ne single found inside (before.later executed) other
    · refine ⟨valid, ?_⟩
      rw [isConstant] at constant
      rw [AvailableAt]
      split at constant <;> simp_all
  · rw [renamed, if_neg isResult]
    exact replaces.readable_of_ne single found inside readable isResult

theorem laidOut {b : BlockId} (laidOut : f.LaidOut b) : g.LaidOut b := by
  have nodup := single.consistent.instsNodup b
  have members : ∀ {j : InstId}, j ∈ g.blockInsts b ↔ j ∈ f.blockInsts b ∧ j ≠ i := by
    intro j
    rw [replaces.insts, nodup.mem_erase_iff, and_comm]
  have lastKept : g.lastInst? b = f.lastInst? b := by
    obtain ⟨last, isLast, terminator⟩ := laidOut.last
    have other : last ≠ i := by
      rintro rfl
      rw [inside] at terminator
      cases terminator
    obtain ⟨initial, split⟩ := getLast?_eq_some_iff.mp isLast
    rw [isLast, lastInst?, replaces.insts, split, erase_append]
    split
    · simp
    · rw [erase_of_not_mem (by simpa using Ne.symm other)]
      simp
  obtain ⟨last, isLast, terminator⟩ := laidOut.last
  have inG : last ∈ g.blockInsts b := by
    refine members.mpr ⟨mem_of_getLast? isLast, ?_⟩
    rintro rfl
    rw [inside] at terminator
    cases terminator
  constructor
  · refine ⟨last, lastKept.trans isLast, ?_⟩
    rw [replaces.op_eq (members.mp inG).2]
    exact terminator
  · intro j member ends
    obtain ⟨before, other⟩ := members.mp member
    rw [replaces.op_eq other] at ends
    rw [lastKept]
    exact laidOut.only j before ends

theorem singleAssignment (consistent : g.Consistent) (produces : (f.inst i).result ≠ 0)
    (stands : f.PointReached gone → Stands f g i w gone) :
    g.SingleAssignment where
  consistent := consistent
  defined := by
    rw [isDeclaration, replaces.layout]
    exact single.defined
  laidOut b linked := by
    rw [replaces.layout] at linked
    exact replaces.laidOut single found inside (single.laidOut b linked)
  operands := by
    intro point j reached at' v used
    have other := replaces.ne_of_instAt single found at'
    rw [replaces.operands_eq other] at used
    obtain ⟨before, isUsed, rfl⟩ := List.mem_map.mp used
    exact replaces.readable_renamed single found inside produces stands reached
      (single.operands (replaces.reached_expand single found inside reached)
        ((replaces.instAt_iff single found).mp at') before isUsed)
  arguments := by
    intro point j index call reached at' edge linked v used
    have other := replaces.ne_of_instAt single found at'
    rw [replaces.successors_eq other] at edge
    rw [replaces.target_eq, replaces.layout] at linked
    rw [replaces.args_eq] at used
    obtain ⟨before, isUsed, rfl⟩ := List.mem_map.mp used
    rcases single.arguments (replaces.reached_expand single found inside reached)
      ((replaces.instAt_iff single found).mp at') edge linked before isUsed with
      readable | ⟨own, positive, produced⟩
    · exact .inl (replaces.readable_renamed single found inside produces stands reached readable)
    · right
      have different : before ≠ (f.inst i).result := by
        rw [own]
        intro same
        exact other (single.consistent.result_inj (own ▸ positive) same)
      rw [renamed, if_neg different, replaces.result_eq other]
      refine ⟨own, positive, ?_⟩
      simpa only [producesOnEdge, replaces.op_eq other] using produced

end Replaces

end Function

/-- The two functions may differ in what they hold for the deleted result. -/
def AgreeExcept (r : ValueId) (env env' : Env) : Prop := ∀ v, v ≠ r → env' v = env v

variable {env env' : Env}

theorem AgreeExcept.assign {r : ValueId} (agree : AgreeExcept r env env') (names : List ValueId)
    (vals : List Val) :
    AgreeExcept r (assign env names vals) (assign env' names vals) := by
  intro v other
  simp only [Air.assign, agree v other]

open Aburi.Air.Function

/-- The replaced result and the value that stands for it are equal wherever
the instruction was executed. -/
structure SoundReplacement {World : Type} (interp : Interp World) (mod : Module)
    (f g : Function) (i : InstId) (w : ValueId) (gone : Point) : Prop where
  replaces : Replaces f g i w
  single : f.SingleAssignment
  labelled : f.Labelled
  found : f.instAt gone i
  inside : (f.inst i).op.isTerminator = false
  produces : (f.inst i).result ≠ 0
  stands : f.PointReached gone → Stands f g i w gone
  equal : ∀ env point, f.PointReached point → point = gone ∨ f.Executed gone point →
    EquationsHold interp mod f env point →
    ∃ x, evalPure interp mod (f.shape i) (readAll interp mod f env (f.operands i)) = some x ∧
      clamp mod (f.inst i).type x = readValue interp mod g env w

namespace SoundReplacement

variable {World : Type} {interp : Interp World} {mod : Module} {f g : Function}
  {i : InstId} {w : ValueId} {gone : Point}
  (sound : SoundReplacement interp mod f g i w gone)

include sound

theorem readValue_of_ne (agree : AgreeExcept (f.inst i).result env env')
    (valid : f.isValidValue v = true) (other : v ≠ (f.inst i).result) :
    readValue interp mod g env' v = readValue interp mod f env v := by
  simp only [readValue, sound.replaces.isConstant_eq valid, sound.replaces.values v valid,
    agree v other]

theorem executed (readable : f.Readable (f.inst i).result point) :
    f.Executed gone point :=
  readable.executed sound.single.consistent sound.produces sound.found

section

variable (agree : AgreeExcept (f.inst i).result env env') (reached : f.PointReached point)
  (holds : EquationsHold interp mod f env point)
include agree reached holds

theorem readValue_renamed (readable : f.Readable v point) :
    readValue interp mod g env' (renamed (f.inst i).result w v) = readValue interp mod f env v := by
  by_cases isResult : v = (f.inst i).result
  · subst isResult
    have executed := sound.executed readable
    obtain ⟨other, -, -⟩ := sound.stands (executed.reached reached)
    obtain ⟨x, computed, same⟩ := sound.equal env point reached (.inr executed) holds
    have value := holds gone i sound.found sound.inside executed sound.produces x computed
    calc readValue interp mod g env' (renamed (f.inst i).result w (f.inst i).result)
        = readValue interp mod g env w := by
          rw [renamed, if_pos rfl]
          exact readValue_congr (agree w other)
      _ = clamp mod (f.inst i).type x := same.symm
      _ = readValue interp mod f env (f.inst i).result := by
          rw [readValue, sound.single.consistent.isConstant_result sound.produces]
          simp only [Bool.false_eq_true, if_false]
          rw [value, show (f.value (f.inst i).result).type = (f.inst i).type from
            sound.labelled.types i sound.produces, clamp_idem]
  · rw [renamed, if_neg isResult]
    exact sound.readValue_of_ne agree readable.1 isResult

theorem readAll_renamed {vs : List ValueId} (readable : ∀ v ∈ vs, f.Readable v point) :
    readAll interp mod g env' (vs.map (renamed (f.inst i).result w)) =
      readAll interp mod f env vs := by
  rw [readAll, readAll, map_map]
  exact map_congr_left fun v used =>
    sound.readValue_renamed agree reached holds (readable v used)

end

section

variable (other : j ≠ i) (reached : f.PointReached point) (at' : f.instAt point j)
include other reached at'

theorem shape_eq :
    g.shape j = f.shape j := by
  have types : ((f.operands j).map (renamed (f.inst i).result w)).map g.valueType =
      (f.operands j).map f.valueType := by
    rw [map_map]
    apply map_congr_left
    intro v used
    have readable := sound.single.operands reached at' v used
    by_cases isResult : v = (f.inst i).result
    · subst isResult
      have executed := sound.executed readable
      rw [Function.comp, renamed, if_pos rfl]
      exact (sound.stands (executed.reached reached)).type
    · rw [Function.comp, renamed, if_neg isResult]
      rw [valueType, valueType, sound.replaces.values v readable.1]
  simp only [shape, sound.replaces.inst j other]
  rw [types]
  rfl

theorem leaveInst_eq (vals : List Val) (world : World) :
    leaveInst interp g j vals world = leaveInst interp f j vals world := by
  simp only [leaveInst, sound.shape_eq other reached at', sound.replaces.inst j other,
    sound.replaces.successors_eq other, sound.replaces.target_eq, jumpTable,
    sound.replaces.jumpTables]

theorem execInst_eq (vals : List Val) (world : World) :
    execInst interp mod g j vals world = execInst interp mod f j vals world := by
  simp only [execInst, sound.shape_eq other reached at', sound.replaces.inst j other]

end

theorem edgeEnv_agree (agree : AgreeExcept (f.inst i).result env env') (other : j ≠ i) (index : ℕ)
    (result : Val) :
    AgreeExcept (f.inst i).result (edgeEnv mod f j index result env)
      (edgeEnv mod g j index result env') := by
  have sameEdge : g.producesOnEdge j index = f.producesOnEdge j index := by
    simp only [producesOnEdge, sound.replaces.inst j other]
  rw [edgeEnv, edgeEnv, sameEdge, sound.replaces.inst j other]
  by_cases produced : f.producesOnEdge j index = true
  · rw [if_pos produced, if_pos produced]
    exact agree.assign _ _
  · rw [if_neg produced, if_neg produced]
    exact agree

/-- The arguments of an edge, after the result of its terminator was assigned. -/
theorem readAll_arguments (agree : AgreeExcept (f.inst i).result env env')
    (reached : f.PointReached point) (holds : EquationsHold interp mod f env point) (other : j ≠ i)
    (at' : f.instAt point j) {index : ℕ} {call : BlockCallId}
    (edge : (f.successors j)[index]? = some call) (linked : (f.blockCall call).target ∈ f.layout)
    (result : Val) :
    readAll interp mod g (edgeEnv mod g j index result env') (g.blockCallArgs call) =
      readAll interp mod f (edgeEnv mod f j index result env) (f.blockCallArgs call) := by
  have consistent := sound.single.consistent
  rw [sound.replaces.args_eq, readAll, readAll, map_map]
  apply map_congr_left
  intro v used
  have allowed := sound.single.arguments reached at' edge linked v used
  by_cases isResult : v = (f.inst i).result
  · -- the deleted result: neither it nor its replacement is redefined here
    subst isResult
    have readable : f.Readable (f.inst i).result point := by
      refine allowed.resolve_right ?_
      rintro ⟨own, -, -⟩
      exact other (consistent.result_inj sound.produces own).symm
    obtain ⟨-, place, -⟩ := sound.stands ((sound.executed readable).reached reached)
    have notOwn : w ≠ (f.inst j).result := by
      rcases place with before | ⟨valid, constant⟩
      · exact (before.later (sound.executed readable)).ne_result consistent reached at' (.inl rfl)
      · rintro rfl
        have positive := Nat.pos_iff_ne_zero.mp (Slots.isValid_iff.mp valid).1
        have isResult := (consistent.results j positive).2.1
        rw [sound.replaces.isConstant_eq isResult, consistent.isConstant_result positive]
          at constant
        cases constant
    calc readValue interp mod g (edgeEnv mod g j index result env')
          (renamed (f.inst i).result w (f.inst i).result)
        = readValue interp mod g env' (renamed (f.inst i).result w (f.inst i).result) := by
          rw [renamed, if_pos rfl]
          apply readValue_congr
          rw [← sound.replaces.result_eq other] at notOwn
          exact edgeEnv_of_ne notOwn
      _ = readValue interp mod f env (f.inst i).result :=
          sound.readValue_renamed agree reached holds readable
      _ = readValue interp mod f (edgeEnv mod f j index result env) (f.inst i).result := by
          apply readValue_congr
          exact (edgeEnv_of_ne (readable.ne_result consistent reached at' (.inl rfl))).symm
  · have valid : f.isValidValue v = true := by
      rcases allowed with readable | ⟨own, positive, -⟩
      · exact readable.1
      · rw [own] at positive ⊢
        exact (consistent.results j positive).2.1
    rw [Function.comp, renamed, if_neg isResult]
    exact sound.readValue_of_ne (sound.edgeEnv_agree agree other index result) valid isResult

end SoundReplacement

/-- The states of the two functions: at the same point, or the old function
has still to execute the deleted instruction. -/
inductive ReplacedState {World : Type} (interp : Interp World) (mod : Module) (f : Function)
    (i : InstId) (gone : Point) : State World → State World → Prop
  | running {b : BlockId} {k k' : ℕ} {env env' : Env} {world : World} :
      f.PointReached (b, k) → EquationsHold interp mod f env (b, k) →
      AgreeExcept (f.inst i).result env env' →
      (b, k) = expand gone (b, k') ∨ gone = (b, k) ∧ expand gone (b, k') = (b, k + 1) →
      ReplacedState interp mod f i gone (.running b k env world) (.running b k' env' world)
  | returned (world : World) : ReplacedState interp mod f i gone (.returned world) (.returned world)

namespace SoundReplacement

variable {World : Type} {interp : Interp World} {mod : Module} {f g : Function}
  {i : InstId} {w : ValueId} {gone : Point}
  (sound : SoundReplacement interp mod f g i w gone)

include sound

section

variable {b : BlockId} {k k' : ℕ} (world : World) (reached : f.PointReached (b, k))
  (holds : EquationsHold interp mod f env (b, k)) (agree : AgreeExcept (f.inst i).result env env')
include world reached holds agree

/-- At the same point both functions are stuck, or they execute the same
instruction on the same values. -/
theorem step_aligned (aligned : (b, k) = expand gone (b, k')) :
    stepState interp mod f (.running b k env world) = none ∧
        stepState interp mod g (.running b k' env' world) = none ∨
      ∃ next next' event,
        stepState interp mod f (.running b k env world) = some (next, event) ∧
        stepState interp mod g (.running b k' env' world) = some (next', event) ∧
        ReplacedState interp mod f i gone next next' := by
  have samePlace : ∀ {j}, g.instAt (b, k') j ↔ f.instAt (b, k) j := by
    intro j
    rw [sound.replaces.instAt_iff sound.single sound.found, aligned]
  cases at' : (f.blockInsts b)[k]? with
  | none =>
    left
    have none' : (g.blockInsts b)[k']? = none := by
      by_contra some'
      obtain ⟨j, found⟩ := Option.ne_none_iff_exists'.mp some'
      have impossible : (f.blockInsts b)[k]? = some j := samePlace.mp found
      rw [at'] at impossible
      cases impossible
    simp only [stepState, at', none', and_self]
  | some j =>
    have here : g.instAt (b, k') j := samePlace.mpr at'
    have other := sound.replaces.ne_of_instAt sound.single sound.found here
    have vals : readAll interp mod g env' (g.operands j) =
        readAll interp mod f env (f.operands j) := by
      rw [sound.replaces.operands_eq other]
      exact sound.readAll_renamed agree reached holds (sound.single.operands reached at')
    have exec := sound.execInst_eq other reached at' (readAll interp mod f env (f.operands j)) world
    have leave := sound.leaveInst_eq other reached at'
      (readAll interp mod f env (f.operands j)) world
    have sameOp := sound.replaces.op_eq other
    rw [← vals] at exec leave
    cases terminator : (f.inst j).op.isTerminator with
    | false =>
      right
      cases executed : execInst interp mod f j (readAll interp mod f env (f.operands j)) world with
      | none =>
        have step : Transition interp mod f _ _ _ := .stop at' terminator executed
        have step' : Transition interp mod g _ _ _ :=
          .stop here (sameOp ▸ terminator) (exec.trans (vals ▸ executed))
        rw [vals] at step'
        exact ⟨_, _, _, stepState_iff.mpr step, stepState_iff.mpr step', .returned _⟩
      | some result =>
        obtain ⟨value, world'⟩ := result
        have step : Transition interp mod f _ _ _ := .exec at' terminator executed
        have step' : Transition interp mod g _ _ _ :=
          .exec here (sameOp ▸ terminator) (exec.trans (vals ▸ executed))
        rw [vals, sound.replaces.result_eq other] at step'
        obtain ⟨reached', holds'⟩ := step.equations sound.single reached holds
        refine ⟨_, _, _, stepState_iff.mpr step, stepState_iff.mpr step',
          .running reached' holds' (agree.assign _ _) ?_⟩
        rcases expand_next gone (b, k') with same | ⟨before, after⟩
        · rw [← aligned] at same
          exact .inl same.symm
        · rw [← aligned] at before
          exact .inr ⟨before, by rw [after, before]⟩
    | true =>
      cases left : leaveInst interp f j (readAll interp mod f env (f.operands j)) world with
      | none =>
        have step : Transition interp mod f _ _ _ := .finish at' terminator left
        have step' : Transition interp mod g _ _ _ :=
          .finish here (sameOp ▸ terminator) (leave.trans (vals ▸ left))
        rw [vals] at step'
        exact .inr ⟨_, _, _, stepState_iff.mpr step, stepState_iff.mpr step', .returned _⟩
      | some result =>
        obtain ⟨index, value, world'⟩ := result
        have left' := leave.trans (vals ▸ left)
        have sameEdges := sound.replaces.successors_eq other
        by_cases linked : ∃ call, (f.successors j)[index]? = some call ∧
            (f.blockCall call).target ∈ f.layout
        · obtain ⟨call, edge, linked⟩ := linked
          have step : Transition interp mod f _ _ _ := .leave at' terminator left edge linked
          have step' : Transition interp mod g _ _ _ :=
            .leave here (sameOp ▸ terminator) left' (sameEdges ▸ edge)
              (by rwa [sound.replaces.target_eq, sound.replaces.layout])
          rw [sound.readAll_arguments agree reached holds other at' edge linked, vals,
            sound.replaces.target_eq, sound.replaces.params] at step'
          obtain ⟨reached', holds'⟩ := step.equations sound.single reached holds
          refine .inr ⟨_, _, _, stepState_iff.mpr step, stepState_iff.mpr step',
            .running reached' holds' ((sound.edgeEnv_agree agree other index value).assign _ _) ?_⟩
          exact (expand_start gone (f.blockCall call).target).imp Eq.symm id
        · left
          refine ⟨stepState_stuck at' terminator left ?_,
            stepState_stuck here (sameOp ▸ terminator) left' ?_⟩
          · exact fun call edge isLinked => linked ⟨call, edge, isLinked⟩
          · intro call edge isLinked
            rw [sameEdges] at edge
            rw [sound.replaces.target_eq, sound.replaces.layout] at isLinked
            exact linked ⟨call, edge, isLinked⟩

theorem pass_gone (here : gone = (b, k)) (next : expand gone (b, k') = (b, k + 1)) :
    ∃ env₁ vals, stepState interp mod f (.running b k env world) =
        some (.running b (k + 1) env₁ world, (i, vals)) ∧
      f.PointReached (b, k + 1) ∧ EquationsHold interp mod f env₁ (b, k + 1) ∧
      AgreeExcept (f.inst i).result env₁ env' ∧ (b, k + 1) = expand gone (b, k') := by
  obtain ⟨x, computed, -⟩ := sound.equal env (b, k) reached (.inl here.symm) holds
  have found : f.instAt (b, k) i := here ▸ sound.found
  have step : Transition interp mod f _ _ _ :=
    @Transition.exec _ interp mod f b k env world i _ world found sound.inside
      (by rw [execInst, computed])
  obtain ⟨reached', holds'⟩ := step.equations sound.single reached holds
  refine ⟨_, _, stepState_iff.mpr step, reached', holds', ?_, next.symm⟩
  intro v other
  rw [agree v other, assign_of_notMem (by simpa using other)]

end

theorem answers {kept : InstId → Bool} (silent : kept i = false) :
    Machine.Answers (machine interp mod f kept) finalWorld (machine interp mod g kept)
      finalWorld (ReplacedState interp mod f i gone) := by
  have aligned : ∀ {b : BlockId} {k k' : ℕ} {env env' : Env} {world : World},
      f.PointReached (b, k) → EquationsHold interp mod f env (b, k) →
      AgreeExcept (f.inst i).result env env' → (b, k) = expand gone (b, k') →
      Machine.StepsAlike (machine interp mod f kept) finalWorld (machine interp mod g kept)
        finalWorld (ReplacedState interp mod f i gone) (.running b k env world)
        (.running b k' env' world) := by
    intro b k k' env env' world reached holds agree samePoint
    rcases sound.step_aligned world reached holds agree samePoint with
      ⟨stuck, stuck'⟩ | ⟨next, next', event, stepped, stepped', related⟩
    · exact .inl ⟨machine_stuck stuck, machine_stuck stuck', rfl⟩
    · exact .inr ⟨next, next', _, machine_step stepped, machine_step stepped', related⟩
  apply Machine.Answers.of_stepsAlike
  intro state image related
  cases related with
  | returned world => exact ⟨0, _, .stay _, .inl ⟨rfl, rfl, rfl⟩⟩
  | @running b k k' env env' world reached holds agree place =>
    rcases place with samePoint | ⟨here, next⟩
    · exact ⟨0, _, .stay _, aligned reached holds agree samePoint⟩
    · obtain ⟨env₁, vals, stepped, reached', holds', agree', samePoint⟩ :=
        sound.pass_gone world reached holds agree here next
      have moved : (machine interp mod f kept).step (.running b k env world) =
          some (.running b (k + 1) env₁ world, []) := by
        rw [machine_step stepped, silent]
        rfl
      exact ⟨1, _, .step moved (.stay _), aligned reached' holds' agree' samePoint⟩

theorem sameBehaviour {kept : InstId → Bool} (silent : kept i = false)
    (arguments : List Val) (junk : Env) (world : World) :
    Machine.SameBehaviour (machine interp mod f kept) finalWorld
      (start f arguments junk world) (machine interp mod g kept) finalWorld
      (start g arguments junk world) := by
  apply (sound.answers silent).sameBehaviour
  rw [start, start, sound.replaces.entryBlock_eq, sound.replaces.params]
  refine .running ⟨[], .start⟩ (.entry _) (fun v _ => rfl) ?_
  exact (expand_start gone f.entryBlock).imp Eq.symm id

end SoundReplacement

end Aburi.Air
