import Mathlib.Data.List.Basic

/-!
# Ordered choice

A machine whose configuration fails, succeeds, goes on, or splits into two that are
tried in order.  A configuration comes to its first success.
-/

namespace Aburi.Lib

inductive Move (Config Result : Type) where
  | fails
  | succeeds (result : Result)
  | goes (next : Config)
  | splits (first second : Config)

variable {Config Result : Type}

/-- What a configuration comes to; there is nothing for one that runs forever. -/
inductive Comes (move : Config → Move Config Result) : Config → Option Result → Prop where
  | fails {config : Config} : move config = .fails → Comes move config none
  | succeeds {config : Config} {result : Result} :
      move config = .succeeds result → Comes move config (some result)
  | goes {config next : Config} {result : Option Result} :
      move config = .goes next → Comes move next result → Comes move config result
  | first {config first second : Config} {result : Result} :
      move config = .splits first second → Comes move first (some result) →
        Comes move config (some result)
  | second {config first second : Config} {result : Option Result} :
      move config = .splits first second → Comes move first none →
        Comes move second result → Comes move config result

inductive FirstOf {Item : Type} (comes : Item → Option Result → Prop) :
    List Item → Option Result → Prop where
  | nil : FirstOf comes [] none
  | here {item : Item} {rest : List Item} {result : Result} :
      comes item (some result) → FirstOf comes (item :: rest) (some result)
  | later {item : Item} {rest : List Item} {result : Option Result} :
      comes item none → FirstOf comes rest result → FirstOf comes (item :: rest) result

section

variable {move : Config → Move Config Result} {config next first second : Config}
  {rest : List Config} {result : Option Result}

theorem FirstOf.goes (moved : move config = .goes next)
    (whole : FirstOf (Comes move) (next :: rest) result) :
    FirstOf (Comes move) (config :: rest) result := by
  cases whole with
  | here comes => exact .here (.goes moved comes)
  | later fails others => exact .later (.goes moved fails) others

theorem FirstOf.splits (moved : move config = .splits first second)
    (whole : FirstOf (Comes move) (first :: second :: rest) result) :
    FirstOf (Comes move) (config :: rest) result := by
  cases whole with
  | here comes => exact .here (.first moved comes)
  | later fails others =>
    cases others with
    | here comes => exact .here (.second moved fails comes)
    | later fails' others => exact .later (.second moved fails fails') others

inductive Move.Alike (same : Config → Config → Prop) :
    Move Config Result → Move Config Result → Prop where
  | fails : Alike same .fails .fails
  | succeeds {one other : Result} : Alike same (.succeeds one) (.succeeds other)
  | goes {one other : Config} : same one other → Alike same (.goes one) (.goes other)
  | splits {first second first' second' : Config} : same first first' → same second second' →
      Alike same (.splits first second) (.splits first' second')

/-- Where a configuration fails, so does every other that moves alike, if it comes to
anything. -/
theorem Comes.fails_of_alike {same : Config → Config → Prop}
    (alike : ∀ one other, same one other → (move one).Alike same (move other))
    {one other : Config} (kind : (move one).Alike same (move other)) (fails : Comes move one none)
    (comes : Comes move other result) : result = none := by
  generalize failure : none = outcome at fails
  induction fails generalizing other result with
  | fails moved =>
    rw [moved] at kind
    cases comes with
    | fails => rfl
    | succeeds moved' | goes moved' | first moved' | second moved' =>
      rw [moved'] at kind
      exact nomatch kind
  | succeeds | first => exact nomatch failure
  | goes moved _ ih =>
    rw [moved] at kind
    cases comes with
    | goes moved' comes =>
      rw [moved'] at kind
      cases kind with
      | goes related => exact ih (alike _ _ related) comes failure
    | fails moved' | succeeds moved' | first moved' | second moved' =>
      rw [moved'] at kind
      exact nomatch kind
  | second moved _ _ firstIh secondIh =>
    rw [moved] at kind
    cases comes with
    | first moved' comes =>
      rw [moved'] at kind
      cases kind with
      | splits related _ => exact nomatch firstIh (alike _ _ related) comes rfl
    | second moved' _ comes =>
      rw [moved'] at kind
      cases kind with
      | splits _ related => exact secondIh (alike _ _ related) comes failure
    | fails moved' | succeeds moved' | goes moved' =>
      rw [moved'] at kind
      exact nomatch kind

end

namespace FirstOf

variable {Item : Type} {comes : Item → Option Result → Prop} {items more : List Item}

theorem append_some (more : List Item) {result : Result}
    (whole : FirstOf comes items (some result)) : FirstOf comes (items ++ more) (some result) := by
  generalize success : some result = outcome at whole
  induction whole with
  | nil => exact nomatch success
  | here found => exact .here found
  | later fails _ ih => exact .later fails (ih success)

theorem append {result : Option Result} (one : FirstOf comes items none)
    (other : FirstOf comes more result) : FirstOf comes (items ++ more) result := by
  generalize failure : none = outcome at one
  induction one with
  | nil => exact other
  | here => exact nomatch failure
  | later fails _ ih => exact .later fails (ih failure)

theorem all_fail (whole : FirstOf comes items none) : ∀ item ∈ items, comes item none := by
  generalize failure : none = outcome at whole
  induction whole with
  | nil => exact nofun
  | here => exact nomatch failure
  | later fails _ ih =>
    intro item member
    subst failure
    rcases List.mem_cons.1 member with rfl | member
    · exact fails
    · exact ih rfl item member

theorem eq_none {result : Option Result} (whole : FirstOf comes items result)
    (fails : ∀ item ∈ items, ∀ result, comes item result → result = none) : result = none := by
  induction whole with
  | nil => rfl
  | here found => exact fails _ (List.mem_cons_self ..) _ found
  | later _ _ ih => exact ih fun item member => fails item (List.mem_cons_of_mem _ member)

end FirstOf

end Aburi.Lib
