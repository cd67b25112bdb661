import GatedRules.Evaluation.Execution
import GatedRules.Proofs.Chains
import GatedRules.Proofs.Words

/-!
# Gates along chains of includes

Every definition of a compiled module and every site of it stands at a place to which a chain of
includes leads, and has the gate of that place, whose conditions are those of the chain. At run time
such a gate holds just when all these conditions are `true`, one after the other.

A condition that is not a bare name is evaluated through a gate slot, which is known by the
canonical text of the condition. So what is evaluated is the condition itself, provided that nothing
else is registered under its text (`Occurrences.Owns`). An overflowing number is written `inf`, and
a name may be spelled like this; then two conditions that differ share one gate slot
(`overflow_opens_gate`).
-/

namespace GatedRules

open Occurrences

/-! ### Groupings -/

/-- A way to join conditions by gates: with brackets anywhere, and with the gate that always holds
put in anywhere. -/
inductive Gate.Grouping
  /-- The gate that always holds. -/
  | always
  /-- The gate of a condition. -/
  | condition (c : Condition)
  /-- Two gates are joined. -/
  | both (outer inner : Gate.Grouping)

namespace Gate.Grouping

/-- The tree to which a grouping leads. -/
def tree : Gate.Grouping → GateTree
  | always => .always
  | condition c => .when (.condition c)
  | both outer inner => outer.tree.combine inner.tree

/-- The gate to which a grouping leads. -/
def gate (a : Gate.Grouping) : Gate :=
  a.tree.gate

/-- The conditions of a grouping, from left to right. -/
def conditions : Gate.Grouping → List Condition
  | always => []
  | condition c => [c]
  | both outer inner => outer.conditions ++ inner.conditions

theorem conditions_gate (a : Gate.Grouping) : a.gate.conditions = a.conditions := by
  induction a with
  | always => rfl
  | condition c => rfl
  | both outer inner ihouter ihinner =>
    rw [gate, tree, GateTree.gate_combine, Gate.and, conditions, ← ihouter, ← ihinner, gate, gate]

/-- Gates do not depend on the grouping, but only on the conditions in their order. -/
theorem gate_eq_iff {a b : Gate.Grouping} : a.gate = b.gate ↔ a.conditions = b.conditions := by
  rw [← conditions_gate a, ← conditions_gate b, Gate.mk.injEq]

/-- Two groupings of the same conditions make trees that count as equal. -/
theorem regroup {a b : Gate.Grouping} (h : a.conditions = b.conditions) :
    (a.tree == b.tree) = true ∧ (a.tree = .always ↔ b.tree = .always) ∧ a.gate = b.gate := by
  have hgate : a.tree.gate = b.tree.gate := gate_eq_iff.2 h
  refine ⟨GateTree.beq_iff_gate_eq.2 hgate, ?_, hgate⟩
  rw [← GateTree.isAlways_gate, ← GateTree.isAlways_gate, hgate]

end Gate.Grouping

/-! ### Values of conditions -/

namespace EvalM

variable {σ : Setting} {k : Nat}

/-- The value of a cell, which is computed inside its frame if the cell is empty. -/
def once (frame : String) (compute : EvalM Value) : EvalM Value :=
  enter frame (memo frame compute)

/-- Whether all of several values are `true`. They are computed in order, up to one that is not. -/
def allTrue : List (EvalM Value) → EvalM Bool
  | [] => pure true
  | x :: xs => do
    if (← x).isTrue then allTrue xs else return false

/-- All of several values come out `true`, one after the other, and lead from one world to
another. -/
inductive EachTrue (stack : List String) : List (EvalM Value) → World → World → Prop
  /-- There is no value left. -/
  | nil {w : World} : EachTrue stack [] w w
  /-- The next value is `true`, and so are the others. -/
  | cons {x : EvalM Value} {xs : List (EvalM Value)} {w mid w' : World} :
    x.exec stack w = (.ok (.bool true), mid) → EachTrue stack xs mid w' →
    EachTrue stack (x :: xs) w w'

/-- The value of a name in a scope. -/
def nameValue (σ : Setting) (k : Nat) (scope : Scope) (name : String) : EvalM Value :=
  (handler σ).answer k (.frame (.name scope name))

/-- The value of a condition in a scope: that of a name, or else that of the expression itself,
within the frames of its canonical text. -/
def conditionValue (σ : Setting) (k : Nat) (scope : Scope) : Expr → EvalM Value
  | .name n => nameValue σ (k + 3) scope n
  | e => once (scope.frame e.text) (once (scope.definitionFrame e.text .primary)
      ((e.eval scope e.text).run (handler σ) ((handler σ).answer k)))

theorem allTrue_iff {xs : List (EvalM Value)} {stack : List String} {w w' : World} :
    (allTrue xs).exec stack w = (.ok true, w') ↔ EachTrue stack xs w w' := by
  induction xs generalizing w with
  | nil =>
    constructor
    · intro h
      cases h
      exact .nil
    · rintro ⟨⟩
      rfl
  | cons x xs ih =>
    rw [allTrue, exec_bind]
    constructor
    · intro h
      rcases hx : x.exec stack w with ⟨halt | v, mid⟩
      · rw [hx] at h
        cases h
      · rw [hx] at h
        dsimp only at h
        split at h
        · rename_i hv
          rw [Value.isTrue_iff.1 hv] at hx
          exact .cons hx (ih.1 h)
        · cases h
    · rintro (_ | ⟨hx, hrest⟩)
      rw [hx]
      exact ih.2 hrest

theorem run_bind {α β : Type} {answer : (goal : Goal) → EvalM goal.Answer} (x : Plan α)
    (f : α → Plan β) :
    (x >>= f).run (handler σ) answer =
      x.run (handler σ) answer >>= fun a => (f a).run (handler σ) answer := by
  induction x with
  | done a => rfl
  | fail error => rfl
  | perform action next ih => exact (bind_congr ih).trans (bind_assoc _ _ _).symm
  | ask goal next ih => exact (bind_congr ih).trans (bind_assoc _ _ _).symm

/-- Whether a gate holds is whether all names of its conditions are `true`. -/
theorem run_gateHolds (scope : Scope) (gate : Gate) :
    (scope.gateHolds gate).run (handler σ) ((handler σ).answer k) =
      allTrue (gate.names.map (nameValue σ k scope)) := by
  rw [Scope.gateHolds, Gate.names, List.map_map]
  induction gate.conditions with
  | nil => rfl
  | cons c cs ih =>
    have hvalue : (Plan.value (.name scope c.name)).run (handler σ) ((handler σ).answer k) =
        nameValue σ k scope c.name := bind_pure _
    rw [Scope.conditionsHold, run_bind, hvalue, List.map_cons, allTrue, ← ih]
    refine bind_congr fun v => ?_
    split <;> rfl

/-- The value of a name whose proper definition is always active is that of its expression, within
the frames of the name and of the definition. -/
theorem nameValue_of_definition? {scope : Scope} {name origin : String} {e : Expr}
    (h : scope.definition? name .primary = some ⟨e, .always, origin⟩) :
    nameValue σ (k + 3) scope name =
      once (scope.frame name) (once (scope.definitionFrame name .primary)
        ((e.eval scope name).run (handler σ) ((handler σ).answer k))) := by
  let x : EvalM Value := once (scope.definitionFrame name .primary)
    ((e.eval scope name).run (handler σ) ((handler σ).answer k))
  have hvalue : (Plan.value (.definition scope name .primary ⟨e, .always, origin⟩)).run
      (handler σ) ((handler σ).answer (k + 1)) = x := bind_pure _
  -- The proper definition yields the value at once, since its gate has no condition.
  have hprimary : (scope.fromPrimary name).run (handler σ) ((handler σ).answer (k + 1)) =
      x >>= fun v => pure (some v) := by
    rw [Scope.fromPrimary, Scope.fromRank_of_always h rfl, run_bind, run_bind, hvalue, bind_assoc]
    exact bind_congr fun v => pure_bind _ _
  have hask : (Plan.primary scope name).run (handler σ) ((handler σ).answer (k + 2)) =
      (scope.fromPrimary name).run (handler σ) ((handler σ).answer (k + 1)) := bind_pure _
  have hsettle : (scope.settle name).run (handler σ) ((handler σ).answer (k + 2)) = x := by
    rw [Scope.settle, run_bind, hask, hprimary, bind_assoc]
    exact (bind_congr fun v => pure_bind _ _).trans (bind_pure x)
  exact congrArg (once (scope.frame name)) hsettle

end EvalM

/-! ### Gate slots -/

/-- Nothing but a condition itself is registered under its canonical text. -/
def Occurrences.Owns (os : List Occurrence) (e : Expr) : Prop :=
  ∀ o ∈ os, o.name? = some e.text → ∃ origin, o = .condition origin e

namespace Occurrences

variable {os : List Occurrence}

/-- A condition that owns its text has a gate slot with itself. -/
theorem slot?_of_owns {e : Expr} (h : Owns os e) {origin : String}
    (hm : .condition origin e ∈ os) :
    ∃ first, slot? os e.text = some ⟨.gate, .primary ⟨e, .always, first⟩⟩ := by
  have hdefinition : ∀ isDefault, definition? os e.text isDefault = none := by
    intro isDefault
    rw [definition?, List.findSome?_eq_none_iff]
    intro o ho
    cases o with
    | binding origin gate name expr d =>
      rw [Occurrence.definition?, if_neg]
      rintro ⟨rfl, -⟩
      obtain ⟨_, he⟩ := h _ ho rfl
      cases he
    | _ => rfl
  have hgate : ∃ first, gate? os e.text = some ⟨e, .always, first⟩ := by
    cases hg : gate? os e.text with
    | none =>
      have hnone := List.findSome?_eq_none_iff.1 hg _ hm
      simp [Occurrence.gate?] at hnone
    | some d =>
      obtain ⟨o, ho, hd⟩ := List.exists_of_findSome?_eq_some hg
      cases o with
      | condition first e' =>
        rw [Occurrence.gate?] at hd
        split at hd
        · rename_i htext
          obtain ⟨_, he⟩ := h _ ho (congrArg some htext)
          cases he
          cases hd
          exact ⟨first, rfl⟩
        · cases hd
      | _ => cases hd
  obtain ⟨first, hgate⟩ := hgate
  exact ⟨first, by rw [slot?, hdefinition, hdefinition, hgate]; rfl⟩

/-- A gate slot has one definition, which is always active and has the name for its text. -/
theorem gate_of_slot? {name : String} {slot : Slot} (h : slot? os name = some slot)
    (hkind : slot.kind = .gate) :
    ∃ e origin, slot.definitions = .primary ⟨e, .always, origin⟩ ∧ e.text = name := by
  unfold slot? slotOf at h
  split at h
  · cases h
    cases hkind
  · cases h
    cases hkind
  · cases h
    cases hkind
  · obtain ⟨d, hd, rfl⟩ := Option.map_eq_some_iff.1 h
    obtain ⟨o, -, ho⟩ := List.exists_of_findSome?_eq_some hd
    cases o with
    | condition origin e =>
      rw [Occurrence.gate?] at ho
      split at ho
      · cases ho
        exact ⟨e, origin, rfl, ‹_›⟩
      · cases ho
    | _ => cases ho

end Occurrences

/-! ### Gates of compiled modules -/

/-- The gates of a compiled module are those of the chains of includes, where `os` is what occurs in
the walk. -/
structure Compiled.Gated (c : Compiled) (loader : Loader) (os : List Occurrence) : Prop where
  /-- A binding to which a chain leads is a definition, whose gate has the conditions of the
  chain. -/
  binding : ∀ {chain origin gate name expr isDefault line rest mid},
    Arrives loader c.path chain origin gate (.binding name expr isDefault line :: rest) mid →
    gate.names = chain.flatMap Include.conditionNames ∧
      ∃ slot, c.graph.slot? name = some slot ∧ slot.kind = .value ∧
        (if isDefault then slot.fallback? else slot.primary?) = some ⟨expr, gate, origin⟩
  /-- Every definition of a value slot is a binding to which a chain leads. -/
  definition : ∀ {name slot isDefault d}, c.graph.slot? name = some slot → slot.kind = .value →
    (if isDefault then slot.fallback? else slot.primary?) = some d → ∃ chain line rest mid,
      Arrives loader c.path chain d.origin d.gate (.binding name d.expr isDefault line :: rest) mid
  /-- An include to which a chain leads, and whose target is not known there, is a site, whose gate
  has the conditions of the chain. -/
  inclusion : ∀ {chain origin gate directive rest mid name},
    Arrives loader c.path chain origin gate (.inclusion directive :: rest) mid →
    directive.target.render (literal? mid) = .error name →
    gate.names = chain.flatMap Include.conditionNames ∧
      ⟨directive.target, gate, origin, directive.line⟩ ∈ c.graph.sites
  /-- Every site is an include to which a chain leads. -/
  site : ∀ s ∈ c.graph.sites, ∃ chain directive rest mid name,
    Arrives loader c.path chain s.origin s.gate (.inclusion directive :: rest) mid ∧
      directive.target.render (literal? mid) = .error name ∧
      s = ⟨directive.target, s.gate, s.origin, directive.line⟩
  /-- A gate slot has one definition, which is always active and has the name for its text. -/
  gateSlot : ∀ {name slot}, c.graph.slot? name = some slot → slot.kind = .gate →
    ∃ e origin, slot.definitions = .primary ⟨e, .always, origin⟩ ∧ e.text = name
  /-- At run time, the gate of a place holds just when the names of the conditions of the chain are
  `true`, one after the other. -/
  names : ∀ {chain origin gate rest mid}, Arrives loader c.path chain origin gate rest mid →
    ∀ (σ : Setting) (k : Nat) (scope : Scope) (stack : List String) (w w' : World),
      ((scope.gateHolds gate).run (EvalM.handler σ) ((EvalM.handler σ).answer k)).exec stack w =
          (.ok true, w') ↔
        EvalM.EachTrue stack
          ((chain.flatMap Include.conditionNames).map (EvalM.nameValue σ k scope)) w w'
  /-- It holds just when the conditions of the chain themselves are `true`, if each of them is a
  bare name or owns its text. -/
  conditions : ∀ {chain origin gate rest mid}, Arrives loader c.path chain origin gate rest mid →
    (∀ e ∈ chain.filterMap Include.condition, e.asName? = none → Owns os e) →
    ∀ (σ : Setting) (k : Nat) (scope : Scope), scope.graph = c.graph →
    ∀ (stack : List String) (w w' : World),
      ((scope.gateHolds gate).run (EvalM.handler σ) ((EvalM.handler σ).answer (k + 3))).exec stack
          w = (.ok true, w') ↔
        EvalM.EachTrue stack
          ((chain.filterMap Include.condition).map (EvalM.conditionValue σ k scope)) w w'

variable {loader : Loader} {path : String} {c : Compiled}

theorem flatMap_conditionNames (chain : List Include) :
    chain.flatMap Include.conditionNames =
      (chain.filterMap Include.condition).map Expr.conditionName := by
  induction chain with
  | nil => rfl
  | cons directive chain ih =>
    rw [List.flatMap_cons, ih, Include.conditionNames, List.filterMap_cons]
    cases directive.condition <;> rfl

/-- The name of a condition that owns its text has the value of the condition. -/
theorem nameValue_conditionName {os : List Occurrence} {scope : Scope}
    (hslots : ∀ n, scope.graph.slot? n = slot? os n) {e : Expr} {origin : String}
    (h : e.asName? = none → Owns os e ∧ .condition origin e ∈ os) (σ : Setting) (k : Nat) :
    EvalM.nameValue σ (k + 3) scope e.conditionName = EvalM.conditionValue σ k scope e := by
  have htext : e.asName? = none → EvalM.nameValue σ (k + 3) scope e.text =
      EvalM.once (scope.frame e.text) (EvalM.once (scope.definitionFrame e.text .primary)
        ((e.eval scope e.text).run (EvalM.handler σ) ((EvalM.handler σ).answer k))) := by
    intro hname
    obtain ⟨howns, hm⟩ := h hname
    obtain ⟨first, hslot⟩ := slot?_of_owns howns hm
    have hdefinition : scope.definition? e.text .primary = some ⟨e, .always, first⟩ := by
      rw [Scope.definition?, hslots, hslot]
      rfl
    exact EvalM.nameValue_of_definition? hdefinition
  cases e with
  | name n => rfl
  | _ => exact htext rfl

/-- Every binding that occurs is a definition, and every definition of a value slot is a binding
that occurs. -/
theorem definition_iff_mem {os : List Occurrence} (hnodup : (bound os).Nodup)
    (hslots : ∀ n, c.graph.slot? n = slot? os n) {name : String} {isDefault : Bool}
    {d : Definition} :
    (∃ slot, c.graph.slot? name = some slot ∧ slot.kind = .value ∧
      (if isDefault then slot.fallback? else slot.primary?) = some d) ↔
        .binding d.origin d.gate name d.expr isDefault ∈ os := by
  rw [mem_binding_iff hnodup, hslots, slot?, slotOf_value]
  cases isDefault <;> rfl

/-- **Gates follow chains of includes.** Every definition and every site of a compiled module is
what a statement contributes to which a chain of includes leads, and its gate has the conditions of
the chain, from the entry module inwards; gate slots are always active. So at run time the gate
holds just when all conditions of the chain are `true`; those that are not bare names have to own
their texts. And however conditions are grouped when they are joined, the trees that are kept count
as equal, and the gate is the same. -/
theorem gates_follow_chains (h : loader.compile path = .ok c) :
    (∃ os, Enters loader c.path .always [] os ∧ c.Gated loader os) ∧
      ∀ a b : Gate.Grouping, a.conditions = b.conditions →
        (a.tree == b.tree) = true ∧ (a.tree = .always ↔ b.tree = .always) ∧ a.gate = b.gate := by
  refine ⟨?_, fun a b => Gate.Grouping.regroup⟩
  obtain ⟨os, w, henters, hfinds, hbuild, hpath, -⟩ := finds_of_compile h
  obtain ⟨-, -, hslots, hsites, -⟩ := Draft.of_build hbuild
  rw [← hpath] at henters
  have hslot : ∀ n, c.graph.slot? n = slot? os n := fun n => by
    rw [Graph.slot?, hslots, hfinds.draft.slots]
  have hsite : ∀ s, s ∈ c.graph.sites ↔ .site s ∈ os := by
    intro s
    rw [hsites, hfinds.draft.sites, Occurrences.sites, List.mem_filterMap]
    constructor
    · rintro ⟨o, ho, hs⟩
      cases o <;> cases hs
      exact ho
    · exact fun hs => ⟨_, hs, rfl⟩
  refine ⟨os, henters, ?_, ?_, ?_, ?_, ?_, ?_, ?_⟩
  · intro chain origin gate name expr isDefault line rest mid harrives
    exact ⟨harrives.names,
      (definition_iff_mem hfinds.draft.nodup hslot).2 (harrives.mem_binding henters)⟩
  · intro name slot isDefault d hs hk hd
    have hm := (definition_iff_mem hfinds.draft.nodup hslot).1 ⟨slot, hs, hk, hd⟩
    exact henters.placed _ hm
  · intro chain origin gate directive rest mid name harrives ht
    exact ⟨harrives.names, (hsite _).2 (harrives.mem_site ht henters).1⟩
  · intro s hs
    exact henters.placed _ ((hsite s).1 hs)
  · intro name slot hs hk
    exact gate_of_slot? ((hslot name).symm.trans hs) hk
  · intro chain origin gate rest mid harrives σ k scope stack w w'
    rw [EvalM.run_gateHolds, harrives.names, EvalM.allTrue_iff]
  · intro chain origin gate rest mid harrives howns σ k scope hscope stack w w'
    have hvalues : (chain.flatMap Include.conditionNames).map (EvalM.nameValue σ (k + 3) scope) =
        (chain.filterMap Include.condition).map (EvalM.conditionValue σ k scope) := by
      rw [flatMap_conditionNames, List.map_map]
      refine List.map_congr_left fun e he => ?_
      obtain ⟨directive, hd, hc⟩ := List.mem_filterMap.1 he
      cases hname : e.asName? with
      | some n =>
        have hnamed : e.asName? = none → Owns os e ∧ .condition "" e ∈ os := fun hnone =>
          absurd hname (by simp [hnone])
        exact nameValue_conditionName (fun n => by rw [hscope, hslot]) hnamed σ k
      | none =>
        obtain ⟨origin, hm⟩ := harrives.mem_condition hd hc hname
        obtain ⟨os', hw, hprefix⟩ := harrives.walks henters
        exact nameValue_conditionName (fun n => by rw [hscope, hslot])
          (fun _ => ⟨howns e he hname, hprefix.subset (hw.isPrefix.subset hm)⟩) σ k
    rw [EvalM.run_gateHolds, harrives.names, hvalues, EvalM.allTrue_iff]

/-- A module `leaf` to which a chain of two includes leads, with a default and a site. -/
def nested : Loader :=
  (Bundle.ofList [
    ("main", "LET A := input(); INCLUDE \"inner\" WHERE A;"),
    ("inner", "INCLUDE \"leaf\" WHERE NOT A;"),
    ("leaf", "LET R := \"none\" DEFAULT; INCLUDE \"${U}\";")]).loader

theorem nested_gates_follow_chains :
    ∃ c os, nested.compile "main" = .ok c ∧ Enters nested "main" .always [] os ∧
      c.Gated nested os ∧
      ((c.graph.slot? "R").bind Slot.fallback?).map (fun d => d.gate.names) = some ["A", "NOT A"] ∧
      c.graph.sites.map (fun s => s.gate.names) = [["A", "NOT A"]] := by
  have heval : (nested.compile "main").toOption.map (fun c =>
      (c.path, ((c.graph.slot? "R").bind Slot.fallback?).map (fun d => d.gate.names),
        c.graph.sites.map (fun s => s.gate.names))) =
      some ("main", some ["A", "NOT A"], [["A", "NOT A"]]) := by
    decide +kernel
  obtain ⟨c, hc, heval⟩ := Option.map_eq_some_iff.1 heval
  simp only [Prod.mk.injEq] at heval
  obtain ⟨hpath, hdefinition, hsites⟩ := heval
  obtain ⟨⟨os, henters, hgated⟩, -⟩ := gates_follow_chains (eq_ok_of_toOption hc)
  exact ⟨c, os, eq_ok_of_toOption hc, hpath ▸ henters, hgated, hdefinition, hsites⟩

/-! ### Overflow -/

/-- The digits of a number that is too large for a float. -/
def overflow : List Char :=
  '1' :: List.replicate 309 '0'

/-- Two includes: that of `a` has a condition on a name that is spelled like an infinite number, and
that of `b` the same condition on a number that overflows. -/
def overflowSource : List Char :=
  "LET inf := true; INCLUDE \"a\" WHERE inf IS NOT NULL; INCLUDE \"b\" WHERE ".toList ++
    overflow ++ " IS NOT NULL;".toList

@[inherit_doc overflowSource]
def overflowing : Loader :=
  (Bundle.ofList [
    ("main", String.ofList overflowSource),
    ("a", "LET X := \"a\";"),
    ("b", "LET Y := \"b\";")]).loader

/-- The setting of an execution without inputs. -/
def noInputs : Setting :=
  ⟨overflowing, 0, .empty⟩

/-- The condition on the number, which is infinite and therefore null. -/
def infinityGiven : Expr :=
  .isNull (.literal (.number (1 / 0))) true

/-- The statements of the source. -/
def overflowModule : List Statement :=
  [.binding "inf" (.literal (.bool true)) false 1,
    .inclusion ⟨.literal "a", some (.isNull (.name "inf") true), 1⟩,
    .inclusion ⟨.literal "b", some infinityGiven, 1⟩]

theorem parse_overflowSource :
    Statement.parse "main" (String.ofList overflowSource) = .ok overflowModule := by
  have heval : (scanFrom ⟨1, 1⟩ overflowSource).toOption.bind
      (fun scanned => (Parser.statements scanned.1).toOption) = some overflowModule := by
    decide +kernel
  obtain ⟨⟨tokens, stop⟩, hscan, hstatements⟩ := Option.bind_eq_some_iff.1 heval
  refine bind_eq_ok.2 ⟨⟨tokens, stop⟩, ?_, ?_⟩
  · rw [Tokens.scan, String.toList_ofList, eq_ok_of_toOption hscan]
  · rw [eq_ok_of_toOption hstatements]
    rfl

theorem fetch_overflowSource :
    overflowing.fetch "main" = .ok (String.ofList overflowSource) :=
  rfl

theorem arrives_overflowing : ∃ gate rest mid,
    Arrives overflowing "main" [⟨.literal "b", some infinityGiven, 1⟩] "b" gate rest mid := by
  have hfa : overflowing.fetch (Path.canonical "a") = .ok "LET X := \"a\";" := rfl
  have hfb : overflowing.fetch (Path.canonical "b") = .ok "LET Y := \"b\";" := rfl
  have hpa : Statement.parse (Path.canonical "a") "LET X := \"a\";" =
      .ok [.binding "X" (.literal (.string "a")) false 1] :=
    eq_ok_of_toOption (by decide +kernel)
  have hpb : Statement.parse (Path.canonical "b") "LET Y := \"b\";" =
      .ok [.binding "Y" (.literal (.string "b")) false 1] :=
    eq_ok_of_toOption (by decide +kernel)
  have harrives := (((Arrives.start fetch_overflowSource parse_overflowSource).next
    (.binding .nil)).next (.enter rfl hfa hpa (.binding .nil) .nil)).enter rfl hfb hpb
  exact ⟨_, _, _, harrives⟩

/-- The name of the condition has the value of the other condition. -/
theorem compile_overflowing : ∃ c, overflowing.compile "main" = .ok c ∧
    (EvalM.allTrue ([infinityGiven.text].map (EvalM.nameValue noInputs 9 (.entry c.graph)))
      |>.exec [] ⟨.start, .empty⟩).1 = .ok true ∧
    (EvalM.conditionValue noInputs 9 (.entry c.graph) infinityGiven
      |>.exec [] ⟨.start, .empty⟩).1 = .ok (.bool false) := by
  have hdepth : overflowing.depth = 419 + 1 := by
    have hsources : overflowing.sources =
        [String.ofList overflowSource, "LET X := \"a\";", "LET Y := \"b\";"] := rfl
    have hlength : overflowSource.length = 393 := by decide +kernel
    rw [Loader.depth, hsources, List.map_cons, String.length_ofList, hlength]
    rfl
  -- The module at "main" is loaded; what is left of the walk is evaluated.
  let rest : Except CompileError Unit × Walk :=
    ExceptT.run (overflowModule.forM (Walk.take "main" .always fun target inner =>
        Walk.resolve overflowing 419 target inner ["main"] (some "main")))
      ⟨.empty, Table.empty.insert "main" overflowModule,
        [("main", String.ofList overflowSource)], ["main"]⟩
  have heval : rest.1.toOption.bind (fun _ =>
      (rest.2.draft.build "main" (.sources rest.2.fetched)).toOption.map fun graph =>
        ((EvalM.allTrue ([infinityGiven.text].map (EvalM.nameValue noInputs 9 (.entry graph)))
            |>.exec [] ⟨.start, .empty⟩).1.toOption,
          (EvalM.conditionValue noInputs 9 (.entry graph) infinityGiven
            |>.exec [] ⟨.start, .empty⟩).1.toOption)) =
      some (some true, some (.bool false)) := by
    decide +kernel
  obtain ⟨_, hrest, heval⟩ := Option.bind_eq_some_iff.1 heval
  obtain ⟨graph, hbuild, heval⟩ := Option.map_eq_some_iff.1 heval
  obtain ⟨hgate, hcondition⟩ := Prod.mk.injEq .. ▸ heval
  have hwalk : overflowing.walk "main" = (.ok (), rest.2) := by
    rw [Loader.walk, hdepth]
    exact Walk.yields_bind.2 ⟨_, _,
      Walk.yields_load (w := .start) rfl fetch_overflowSource parse_overflowSource none,
      Prod.ext (eq_ok_of_toOption hrest) rfl⟩
  have hcompile : overflowing.compile "main" = .ok ⟨"main", graph, rest.2.modules.keys⟩ := by
    have hroot : Path.canonical "main" = "main" := by decide +kernel
    rw [Loader.compile, hroot, hwalk]
    dsimp only
    rw [eq_ok_of_toOption hbuild]
  exact ⟨_, hcompile, eq_ok_of_toOption hgate, eq_ok_of_toOption hcondition⟩

/-- The gate of `b` holds, though the condition of its include is `false`: both conditions have the
same canonical text, so they share the gate slot of the first. -/
theorem overflow_opens_gate : ∃ c gate rest mid, overflowing.compile "main" = .ok c ∧
    Arrives overflowing "main" [⟨.literal "b", some infinityGiven, 1⟩] "b" gate rest mid ∧
    (((Scope.entry c.graph).gateHolds gate).run (EvalM.handler noInputs)
      ((EvalM.handler noInputs).answer 9) |>.exec [] ⟨.start, .empty⟩).1 = .ok true ∧
    (EvalM.conditionValue noInputs 9 (.entry c.graph) infinityGiven
      |>.exec [] ⟨.start, .empty⟩).1 = .ok (.bool false) := by
  obtain ⟨gate, rest, mid, harrives⟩ := arrives_overflowing
  obtain ⟨c, hc, hgate, hcondition⟩ := compile_overflowing
  refine ⟨c, gate, rest, mid, hc, harrives, ?_, hcondition⟩
  rw [EvalM.run_gateHolds, harrives.names]
  exact hgate

end GatedRules
