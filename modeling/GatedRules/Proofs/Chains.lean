import GatedRules.Proofs.ReferenceWalk

/-!
# Chains of includes

The reference walk comes to a statement along a chain of includes, each of which leads from one
module into the next. `Arrives` says to which places it comes: the chain, the module, the gate
there, the statements that are left, and what has occurred so far.

At every place, the conditions of the gate are those of the chain, from the entry module inwards
(`Arrives.names`): a step within a module keeps chain and gate, and an include adds its condition to
both. And the places account for all that occurs in a walk, in both directions: what the statement
at a place contributes occurs in the whole walk (`Arrives.mem_binding`, `Arrives.mem_site`), and
whatever occurs has come from a statement at a place (`Walks.placed`).
-/

namespace GatedRules

open Occurrences

/-- The name under which a condition is known: a bare name, or else the canonical text. -/
def Expr.conditionName : Expr → String
  | name n => n
  | e => e.text

/-- The names of the conditions of an include, of which there is one or none. -/
def Include.conditionNames (directive : Include) : List String :=
  directive.condition.toList.map Expr.conditionName

/-- The reference walk from the module `root` comes along a chain of includes to a module, under a
gate, with statements left to take and after what has occurred. -/
inductive Arrives (loader : Loader) (root : String) :
    List Include → String → Gate → List Statement → List Occurrence → Prop
  /-- The walk begins with the statements of the entry module. -/
  | start {source : String} {module : List Statement} :
    loader.fetch root = .ok source → Statement.parse root source = .ok module →
    Arrives loader root [] root .always module [.visit root]
  /-- After a statement, the walk comes to the next one. -/
  | next {chain : List Include} {origin : String} {gate : Gate} {s : Statement}
    {rest : List Statement} {os mid : List Occurrence} :
    Arrives loader root chain origin gate (s :: rest) os → Walks loader origin gate [s] os mid →
    Arrives loader root chain origin gate rest mid
  /-- At an include whose target is known, the walk comes to the included module. -/
  | enter {chain : List Include} {origin : String} {gate : Gate} {directive : Include}
    {rest : List Statement} {os : List Occurrence} {target source : String}
    {module : List Statement} :
    Arrives loader root chain origin gate (.inclusion directive :: rest) os →
    directive.target.render (literal? os) = .ok target →
    loader.fetch (Path.canonical target) = .ok source →
    Statement.parse (Path.canonical target) source = .ok module →
    Arrives loader root (chain ++ [directive]) (Path.canonical target)
      (gate.and (gateOf (os ++ ofCondition origin directive.condition) directive.condition)) module
      (os ++ ofCondition origin directive.condition ++ [.visit (Path.canonical target)])

variable {loader : Loader} {root origin : String} {chain : List Include} {gate : Gate}
  {ss : List Statement} {os os' : List Occurrence}

/-! ### Gates -/

theorem names_gateOf (os : List Occurrence) (directive : Include) :
    (gateOf os directive.condition).names = directive.conditionNames := by
  unfold Include.conditionNames
  cases directive.condition with
  | none => rfl
  | some e => cases e <;> rfl

/-- **The conditions of the gate are those of the chain**, in the same order. -/
theorem Arrives.names (h : Arrives loader root chain origin gate ss os) :
    gate.names = chain.flatMap Include.conditionNames := by
  induction h with
  | start => rfl
  | next _ _ ih => exact ih
  | @enter _ _ _ directive _ _ _ _ _ _ _ _ _ ih =>
    rw [Gate.names_and, ih, names_gateOf, List.flatMap_append, List.flatMap_singleton]

/-! ### Places in a walk -/

theorem Walks.isPrefix (h : Walks loader origin gate ss os os') : os <+: os' := by
  induction h with
  | nil => exact List.prefix_rfl
  | binding _ ih => exact (List.prefix_append _ _).trans ih
  | enter _ _ _ _ _ ihin ihrest =>
    rw [List.append_assoc] at ihin
    exact (List.prefix_append _ _).trans (ihin.trans ihrest)
  | site _ _ _ ih => exact (List.prefix_append _ _).trans ih

/-- A walk takes the first statement and then the others. -/
theorem Walks.cons {s : Statement} (h : Walks loader origin gate (s :: ss) os os') :
    ∃ mid, Walks loader origin gate [s] os mid ∧ Walks loader origin gate ss mid os' := by
  cases h with
  | binding h => exact ⟨_, .binding .nil, h⟩
  | enter ht hf hp hin hrest => exact ⟨_, .enter ht hf hp hin .nil, hrest⟩
  | site ht hc h => exact ⟨_, .site ht hc .nil, h⟩

/-- From every place, the walk goes on to what is a part of the whole. -/
theorem Arrives.walks (h : Arrives loader root chain origin gate ss os) {whole : List Occurrence}
    (hwhole : Enters loader root .always [] whole) :
    ∃ os', Walks loader origin gate ss os os' ∧ os' <+: whole := by
  induction h with
  | start hf hp =>
    obtain ⟨source, module, hf', hp', hw⟩ := hwhole
    obtain rfl := Except.ok.inj (hf.symm.trans hf')
    obtain rfl := Except.ok.inj (hp.symm.trans hp')
    exact ⟨whole, hw, List.prefix_rfl⟩
  | next _ hs ih =>
    obtain ⟨os', hw, hprefix⟩ := ih
    obtain ⟨mid, hs', hrest⟩ := hw.cons
    obtain rfl := hs'.unique hs
    exact ⟨os', hrest, hprefix⟩
  | enter _ ht hf hp ih =>
    obtain ⟨os', hw, hprefix⟩ := ih
    cases hw with
    | enter ht' hf' hp' hin hrest =>
      obtain rfl := Except.ok.inj (ht.symm.trans ht')
      obtain rfl := Except.ok.inj (hf.symm.trans hf')
      obtain rfl := Except.ok.inj (hp.symm.trans hp')
      exact ⟨_, hin, hrest.isPrefix.trans hprefix⟩
    | site ht' =>
      rw [ht] at ht'
      cases ht'

/-- A binding at a place occurs in the walk, under the gate of the place. -/
theorem Arrives.mem_binding {name : String} {expr : Expr} {isDefault : Bool} {line : Nat}
    (h : Arrives loader root chain origin gate (.binding name expr isDefault line :: ss) os)
    {whole : List Occurrence} (hwhole : Enters loader root .always [] whole) :
    .binding origin gate name expr isDefault ∈ whole := by
  obtain ⟨os', hw, hprefix⟩ := h.walks hwhole
  cases hw with
  | binding hw => exact (hw.isPrefix.trans hprefix).subset (by simp)

/-- An include at a place occurs as a site in the walk, under the gate of the place, if its target
is not known there; it has no condition. -/
theorem Arrives.mem_site {directive : Include} {name : String}
    (h : Arrives loader root chain origin gate (.inclusion directive :: ss) os)
    (ht : directive.target.render (literal? os) = .error name)
    {whole : List Occurrence} (hwhole : Enters loader root .always [] whole) :
    .site ⟨directive.target, gate, origin, directive.line⟩ ∈ whole ∧
      directive.condition = none := by
  obtain ⟨os', hw, hprefix⟩ := h.walks hwhole
  cases hw with
  | enter ht' =>
    rw [ht] at ht'
    cases ht'
  | site _ hc hw => exact ⟨(hw.isPrefix.trans hprefix).subset (by simp), hc⟩

/-- A condition on the chain to a place has occurred, unless it is a bare name. -/
theorem Arrives.mem_condition (h : Arrives loader root chain origin gate ss os)
    {directive : Include} (hd : directive ∈ chain) {e : Expr} (he : directive.condition = some e)
    (hname : e.asName? = none) : ∃ origin, .condition origin e ∈ os := by
  induction h with
  | start => cases hd
  | next _ hs ih =>
    obtain ⟨origin, hm⟩ := ih hd
    exact ⟨origin, hs.isPrefix.subset hm⟩
  | @enter _ origin _ directive' _ _ _ _ _ _ _ _ _ ih =>
    rcases List.mem_append.1 hd with hd | hd
    · obtain ⟨origin', hm⟩ := ih hd
      exact ⟨origin', by simp [hm]⟩
    · obtain rfl := List.mem_singleton.1 hd
      exact ⟨origin, by simp [ofCondition, he, hname]⟩

/-! ### Origins of what occurs -/

/-- An occurrence comes from a statement to which the walk has come. -/
def Occurrence.Placed (loader : Loader) (root : String) : Occurrence → Prop
  | binding origin gate name expr isDefault => ∃ chain line rest os,
    Arrives loader root chain origin gate (.binding name expr isDefault line :: rest) os
  | site s => ∃ chain directive rest os name,
    Arrives loader root chain s.origin s.gate (.inclusion directive :: rest) os ∧
      directive.target.render (Occurrences.literal? os) = .error name ∧
      s = ⟨directive.target, s.gate, s.origin, directive.line⟩
  | visit _ | condition .. => True

/-- What occurs in a walk from a place on comes from a statement to which the walk comes. -/
theorem Walks.placed (h : Walks loader origin gate ss os os')
    (harrives : Arrives loader root chain origin gate ss os)
    (hos : ∀ o ∈ os, o.Placed loader root) : ∀ o ∈ os', o.Placed loader root := by
  induction h generalizing chain with
  | nil => exact hos
  | binding _ ih =>
    refine ih (harrives.next (.binding .nil)) fun o ho => ?_
    rcases List.mem_append.1 ho with ho | ho
    · exact hos o ho
    · obtain rfl := List.mem_singleton.1 ho
      exact ⟨chain, _, _, _, harrives⟩
  | @enter origin _ directive _ _ _ _ _ _ _ ht hf hp hin _ ihin ihrest =>
    refine ihrest (harrives.next (.enter ht hf hp hin .nil)) (ihin (harrives.enter ht hf hp) ?_)
    intro o ho
    -- Before the statements of the included module, only its condition and the visit occur.
    rw [List.append_assoc, List.mem_append, List.mem_append, List.mem_singleton] at ho
    rcases ho with ho | ho | rfl
    · exact hos o ho
    · unfold ofCondition at ho
      split at ho
      · cases ho
      · split at ho
        · cases ho
        · obtain rfl := List.mem_singleton.1 ho
          trivial
    · trivial
  | site ht _ _ ih =>
    refine ih (harrives.next (.site ht ‹_› .nil)) fun o ho => ?_
    rcases List.mem_append.1 ho with ho | ho
    · exact hos o ho
    · obtain rfl := List.mem_singleton.1 ho
      exact ⟨chain, _, _, _, _, harrives, ht, rfl⟩

/-- All that occurs in a whole walk comes from statements to which the walk comes. -/
theorem Enters.placed {whole : List Occurrence} (h : Enters loader root .always [] whole) :
    ∀ o ∈ whole, o.Placed loader root := by
  obtain ⟨source, module, hf, hp, hw⟩ := h
  refine hw.placed (.start hf hp) fun o ho => ?_
  obtain rfl := List.mem_singleton.1 ho
  trivial

end GatedRules
