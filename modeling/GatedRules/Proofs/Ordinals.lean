import GatedRules.Proofs.Chains
import GatedRules.Proofs.Ingredients
import GatedRules.Proofs.Reached
import GatedRules.Slot.Printer

/-!
# Ordinals of conditions

A condition of a gate keeps the ordinal that its name has when the include is taken. Slots keep
their ordinals, and a condition that is not a bare name has a slot by then. So the ordinal can only
be missing, where the name of a slot is a bare condition of an include that is taken before the
first binding of the name (`Compiled.Early`, `ordinal_of_hasGate`). A name that the entry module
binds before its includes is none of these (`not_namedAhead_of_module`).

Where no name is early, gates are what their names say, and the printed graph is one in which all
names are printed alike, in expressions and in conditions (`printed_names_have_ordinals`). An early
name is printed without its ordinal (`late_ordinal_is_lost`).
-/

namespace GatedRules

open Occurrences

theorem Expr.eq_name_of_asName? {e : Expr} {n : String} (h : e.asName? = some n) : e = .name n := by
  cases e <;> cases h
  rfl

/-! ### Ordinals during a walk -/

theorem Occurrences.mem_names {os : List Occurrence} {n : String} :
    n ∈ Occurrences.names os ↔ ∃ o ∈ os, o.name? = some n := by
  rw [Occurrences.names, List.mem_eraseDups, List.mem_filterMap]

theorem Occurrences.names_isPrefix {os os' : List Occurrence} (h : os <+: os') :
    Occurrences.names os <+: Occurrences.names os' := by
  obtain ⟨later, rfl⟩ := h
  rw [Occurrences.names, Occurrences.names, List.filterMap_append, List.eraseDups_append]
  exact List.prefix_append _ _

/-- Names keep their ordinals. -/
theorem Occurrences.ordinal?_of_isPrefix {os os' : List Occurrence} (h : os <+: os') {n : String}
    {i : Nat} (hn : ordinal? os n = some i) : ordinal? os' n = some i := by
  obtain ⟨later, hlater⟩ := names_isPrefix h
  rw [ordinal?, List.idxOf?] at hn ⊢
  rw [← hlater, List.findIdx?_append, hn]
  rfl

theorem Occurrences.ordinal?_eq_none_iff {os : List Occurrence} {n : String} :
    ordinal? os n = none ↔ n ∉ Occurrences.names os := by
  rw [ordinal?, List.idxOf?_eq_none_iff]

/-- An include takes a bare name for its condition before the name has a slot. -/
def NamedAhead (loader : Loader) (root name : String) : Prop :=
  ∃ chain origin gate directive rest os,
    Arrives loader root chain origin gate (.inclusion directive :: rest) os ∧
      directive.condition = some (.name name) ∧ name ∉ Occurrences.names os

variable {loader : Loader} {root origin : String} {chain : List Include} {gate : Gate}
  {ss : List Statement} {os : List Occurrence}

/-- The condition of an include has the ordinal that its name has then. It has none only if it is a
bare name without a slot. -/
theorem Arrives.ordinal_condition {directive : Include} {rest : List Statement}
    (h : Arrives loader root chain origin gate (.inclusion directive :: rest) os)
    {cond : Condition} (hc : cond ∈ (gateOf (os ++ ofCondition origin directive.condition)
      directive.condition).conditions) :
    cond.ordinal = ordinal? (os ++ ofCondition origin directive.condition) cond.name ∧
      (cond.ordinal = none → NamedAhead loader root cond.name) := by
  cases hcondition : directive.condition with
  | none =>
    rw [hcondition] at hc
    cases hc
  | some e =>
    rw [hcondition] at hc
    obtain rfl := List.mem_singleton.1 hc
    refine ⟨rfl, fun hnone => ?_⟩
    have hmissing := ordinal?_eq_none_iff.1 hnone
    cases hname : e.asName? with
    | some n =>
      obtain rfl := Expr.eq_name_of_asName? hname
      refine ⟨chain, origin, gate, directive, rest, os, h, hcondition, ?_⟩
      simpa [ofCondition, hname] using hmissing
    | none =>
      -- Any other condition has a slot from here on.
      refine absurd (mem_names.2 ⟨.condition origin e, ?_, ?_⟩) hmissing
      · simp [ofCondition, hname]
      · rw [hname]
        rfl

/-- The conditions of the gate at a place have the ordinals of their names, unless these have been
named ahead. -/
theorem Arrives.ordinals (h : Arrives loader root chain origin gate ss os) :
    ∀ cond ∈ gate.conditions,
      (∃ i, cond.ordinal = some i ∧ ordinal? os cond.name = some i) ∨
        cond.ordinal = none ∧ NamedAhead loader root cond.name := by
  induction h with
  | start =>
    intro cond hc
    cases hc
  | next _ hs ih =>
    intro cond hc
    exact (ih cond hc).imp_left fun ⟨i, hi, hordinal⟩ =>
      ⟨i, hi, ordinal?_of_isPrefix hs.isPrefix hordinal⟩
  | @enter _ origin _ directive _ os _ _ _ h _ _ _ ih =>
    intro cond hc
    rcases List.mem_append.1 hc with hc | hc
    · refine (ih cond hc).imp_left fun ⟨i, hi, hordinal⟩ => ⟨i, hi, ?_⟩
      rw [List.append_assoc]
      exact ordinal?_of_isPrefix (List.prefix_append _ _) hordinal
    · obtain ⟨hordinal, hahead⟩ := h.ordinal_condition hc
      cases hi : cond.ordinal with
      | none => exact .inr ⟨rfl, hahead hi⟩
      | some i =>
        exact .inl ⟨i, rfl, ordinal?_of_isPrefix (List.prefix_append _ _) (hordinal ▸ hi)⟩

/-! ### Ordinals in a graph -/

/-- A gate of a graph is that of a definition or of a site. -/
def Graph.HasGate (g : Graph) (gate : Gate) : Prop :=
  (∃ name d, g.Defines name d ∧ d.gate = gate) ∨ ∃ s ∈ g.sites, s.gate = gate

/-- A name has a slot, but an include takes it for its condition before. -/
def Compiled.Early (c : Compiled) (loader : Loader) (name : String) : Prop :=
  name ∈ c.graph.names ∧ NamedAhead loader c.path name

variable {path : String} {c : Compiled}

/-- A definition that occurs has the gate of a place to which the walk comes. -/
theorem arrives_of_definition? {whole : List Occurrence}
    (hwhole : Enters loader root .always [] whole) (hnodup : (bound whole).Nodup) {name : String}
    {isDefault : Bool} {d : Definition} (hd : definition? whole name isDefault = some d) :
    ∃ chain origin rest mid, Arrives loader root chain origin d.gate rest mid := by
  have hm : .binding d.origin d.gate name d.expr isDefault ∈ whole := (mem_binding_iff hnodup).2 hd
  obtain ⟨chain, line, rest, mid, harrives⟩ := hwhole.placed _ hm
  exact ⟨chain, _, _, mid, harrives⟩

/-- The gate of every definition and of every site is that of a place to which the walk comes, but
for gate slots, which are always active. -/
theorem arrives_of_hasGate (h : loader.compile path = .ok c) (hgate : c.graph.HasGate gate) :
    gate = .always ∨ ∃ chain origin rest mid, Arrives loader c.path chain origin gate rest mid := by
  obtain ⟨os, w, henters, hfinds, hbuild, hpath, -⟩ := finds_of_compile h
  obtain ⟨-, -, hslots, hsites, -⟩ := Draft.of_build hbuild
  rw [← hpath] at henters
  obtain ⟨name, d, ⟨slot, hslot, hd⟩, rfl⟩ | ⟨s, hs, rfl⟩ := hgate
  · rw [Graph.slot?, hslots, hfinds.draft.slots] at hslot
    rcases mem_slotOf hslot hd with hd | hd | hd
    · exact .inr (arrives_of_definition? henters hfinds.draft.nodup hd)
    · exact .inr (arrives_of_definition? henters hfinds.draft.nodup hd)
    · obtain ⟨o, -, ho⟩ := List.exists_of_findSome?_eq_some hd
      cases o with
      | condition first e =>
        rw [Occurrence.gate?, Option.ite_none_right_eq_some] at ho
        cases ho.2
        exact .inl rfl
      | _ => cases ho
  · rw [hsites, hfinds.draft.sites] at hs
    obtain ⟨o, ho, hsite⟩ := List.mem_filterMap.1 hs
    cases o with
    | site s' =>
      cases hsite
      obtain ⟨chain, directive, rest, mid, name, harrives, -, -⟩ := henters.placed _ ho
      exact .inr ⟨chain, _, _, mid, harrives⟩
    | _ => cases hsite

/-- A graph knows the ordinals of the conditions of its gates, but for early names. -/
theorem ordinal_of_hasGate (h : loader.compile path = .ok c) (hgate : c.graph.HasGate gate)
    {cond : Condition} (hc : cond ∈ gate.conditions) :
    cond.ordinal = c.graph.ordinal? cond.name ∨
      cond.ordinal = none ∧ c.Early loader cond.name := by
  obtain rfl | ⟨chain, origin, rest, mid, harrives⟩ := arrives_of_hasGate h hgate
  · cases hc
  obtain ⟨os, w, henters, hfinds, hbuild, hpath, -⟩ := finds_of_compile h
  obtain ⟨-, -, hslots, -, -⟩ := Draft.of_build hbuild
  rw [← hpath] at henters
  have hordinal : ∀ n, c.graph.ordinal? n = ordinal? os n := fun n => by
    rw [Graph.ordinal?, hslots]
    exact hfinds.draft.ordinal? n
  obtain ⟨os', hwalks, hprefix⟩ := harrives.walks henters
  obtain ⟨i, hi, hmid⟩ | ⟨hnone, hahead⟩ := harrives.ordinals cond hc
  · rw [hi, hordinal, ordinal?_of_isPrefix (hwalks.isPrefix.trans hprefix) hmid]
    exact .inl rfl
  · -- A name without a slot in the whole graph has no ordinal there either.
    by_cases hslot : cond.name ∈ c.graph.names
    · exact .inr ⟨hnone, hslot, hahead⟩
    · refine .inl (hnone.trans ?_)
      rw [Graph.ordinal?, Table.rank?, eq_comm, List.idxOf?_eq_none_iff]
      exact hslot

/-- A gate knows the ordinals that its names have in a graph. -/
def Gate.Knows (gate : Gate) (g : Graph) : Prop :=
  ∀ cond ∈ gate.conditions, cond.ordinal = g.ordinal? cond.name

theorem knows_of_hasGate (h : loader.compile path = .ok c) (hgate : c.graph.HasGate gate)
    (hearly : ∀ n ∈ gate.names, ¬ c.Early loader n) : gate.Knows c.graph := fun _ hc =>
  (ordinal_of_hasGate h hgate hc).resolve_right fun hlost =>
    hearly _ (List.mem_map_of_mem hc) hlost.2

/-- Gates that know their ordinals are what their names say. -/
theorem Gate.Knows.eq_of_names {g : Graph} {gate' : Gate} (h : gate.Knows g) (h' : gate'.Knows g)
    (hnames : gate.names = gate'.names) : gate = gate' := by
  have hconditions : ∀ gate : Gate, gate.Knows g →
      gate.conditions = gate.names.map fun n => ⟨n, g.ordinal? n⟩ := by
    intro gate h
    rw [names, List.map_map]
    refine (List.map_id _).symm.trans (List.map_congr_left fun cond hc => ?_)
    exact congrArg (Condition.mk cond.name) (h cond hc)
  have hsame : gate.conditions = gate'.conditions := by
    rw [hconditions gate h, hconditions gate' h', hnames]
  cases gate
  cases gate'
  exact congrArg Gate.mk hsame

/-! ### Printed names -/

namespace Printer

variable (put : String → String)

/-- The conditions of a gate, with names as `put` writes them. -/
def gateWith (names : List String) : String :=
  match names.map fun n => "bool(" ++ put n ++ ")" with
  | [] => "true"
  | [text] => text
  | texts => "and(" ++ Text.joinedText ", " texts ++ ")"

/-- A definition, with all names as `put` writes them. -/
def definitionWith (d : Definition) (fallback : String) : String :=
  if d.gate.names = [] then d.expr.render put
  else "if(" ++ gateWith put d.gate.names ++ ", " ++ d.expr.render put ++ ", " ++ fallback ++ ")"

/-- A slot, with all names as `put` writes them. -/
def slotWith (s : Slot) : String :=
  match s.definitions with
  | .both primary fallback => definitionWith put primary (definitionWith put fallback "null")
  | .primary d | .fallback d => definitionWith put d "null"

/-- The line of a slot, with all names as `put` writes them. -/
def slotLineWith (ordinal : Nat) (name : String) (s : Slot) : String :=
  ordinalText ordinal ++ " " ++ name ++ marker s ++ " := " ++ slotWith put s ++ "\n"

/-- The line of a site, with the names of its gate as `put` writes them. -/
def siteLineWith (id : Nat) (s : Site) : String :=
  "site " ++ toString id ++ ": INCLUDE \"" ++ s.template.text ++ "\"" ++
    (if s.gate.names = [] then "" else " WHEN " ++ gateWith put s.gate.names) ++
    " (" ++ s.origin ++ ":" ++ toString s.line ++ ")\n"

variable {g : Graph}

theorem gateText_eq (h : gate.Knows g) : gateText gate = gateWith (nameText g) gate.names := by
  have htexts : (gate.names.map fun n => "bool(" ++ nameText g n ++ ")") =
      gate.conditions.map conditionText := by
    rw [Gate.names, List.map_map]
    refine List.map_congr_left fun cond hc => ?_
    simp only [Function.comp_apply, conditionText, nameText, h cond hc]
  rw [gateText, gateWith, htexts]
  rcases gate.conditions with _ | ⟨first, _ | ⟨second, rest⟩⟩ <;> rfl

theorem isAlways_iff : gate.isAlways = true ↔ gate.names = [] := by
  rw [Gate.isAlways, List.isEmpty_iff, Gate.names, List.map_eq_nil_iff]

theorem definitionText_eq {d : Definition} (h : d.gate.Knows g) (fallback : String) :
    definitionText g d fallback = definitionWith (nameText g) d fallback := by
  rw [definitionText, definitionWith, gateText_eq h]
  simp only [isAlways_iff]

theorem slotText_eq {s : Slot} (h : ∀ d ∈ s.definitions.toList, d.gate.Knows g) :
    slotText g s = slotWith (nameText g) s := by
  obtain ⟨kind, definitions⟩ := s
  cases definitions with
  | primary d => exact definitionText_eq (h d List.mem_cons_self) _
  | fallback d => exact definitionText_eq (h d List.mem_cons_self) _
  | both d e =>
    have he := definitionText_eq (h e (List.mem_cons_of_mem _ List.mem_cons_self)) "null"
    have hd := definitionText_eq (h d List.mem_cons_self) (definitionText g e "null")
    exact hd.trans (congrArg _ he)

theorem siteLine_eq {s : Site} (h : s.gate.Knows g) (id : Nat) :
    siteLine id s = siteLineWith (nameText g) id s := by
  unfold siteLine siteLineWith
  simp only [isAlways_iff, gateText_eq h]

end Printer

/-- The printed graph, with all names as `put` writes them. -/
def Graph.printedWith (put : String → String) (g : Graph) : String :=
  String.join (g.slots.entries.mapIdx fun i e => Printer.slotLineWith put i e.1 e.2) ++
    String.join (g.sites.mapIdx (Printer.siteLineWith put))

theorem Graph.printed_eq {g : Graph} (h : ∀ gate, g.HasGate gate → gate.Knows g) :
    g.printed = g.printedWith (Printer.nameText g) := by
  have hslots : (g.slots.entries.mapIdx fun i e => Printer.slotLine g i e.1 e.2) =
      g.slots.entries.mapIdx fun i e => Printer.slotLineWith (Printer.nameText g) i e.1 e.2 := by
    refine List.mapIdx_eq_mapIdx_iff.2 fun i hi => ?_
    have hslot : g.slot? g.slots.entries[i].1 = some g.slots.entries[i].2 :=
      Table.get?_eq_some_iff.2 (List.getElem_mem hi)
    rw [Printer.slotLine, Printer.slotLineWith,
      Printer.slotText_eq fun d hd => h _ (.inl ⟨_, d, ⟨_, hslot, hd⟩, rfl⟩)]
  have hsites : g.sites.mapIdx Printer.siteLine =
      g.sites.mapIdx (Printer.siteLineWith (Printer.nameText g)) :=
    List.mapIdx_eq_mapIdx_iff.2 fun i hi =>
      Printer.siteLine_eq (h _ (.inr ⟨_, List.getElem_mem hi, rfl⟩)) i
  rw [Graph.printed, Graph.printedWith, hslots, hsites]

/-! ### Names that are bound first -/

/-- Where a name is bound before the first include of the entry module, it has a slot at every
include. -/
theorem not_namedAhead_of_module {source name : String} {first rest : List Statement}
    (hf : loader.fetch root = .ok source)
    (hp : Statement.parse root source = .ok (first ++ rest))
    (hfirst : ∀ s ∈ first, ∃ n e isDefault line, s = .binding n e isDefault line)
    (hname : ∃ e isDefault line, .binding name e isDefault line ∈ first) :
    ¬ NamedAhead loader root name := by
  have hinclusion : ∀ {left later directive}, left <:+ first →
      (∃ e isDefault line, .binding name e isDefault line ∈ left) →
      .inclusion directive :: later ≠ left ++ rest := by
    rintro left later directive hleft ⟨e, isDefault, line, hm⟩ hss
    obtain ⟨s, left, rfl⟩ := List.exists_cons_of_ne_nil (List.ne_nil_of_mem hm)
    obtain ⟨rfl, -⟩ := List.cons.inj hss
    obtain ⟨n, e, isDefault, line, hbinding⟩ := hfirst _ (hleft.subset List.mem_cons_self)
    cases hbinding
  -- The walk has met the binding, or has still to take it, with bindings only before it.
  have hmet : ∀ {chain origin gate ss os}, Arrives loader root chain origin gate ss os →
      name ∈ Occurrences.names os ∨ ∃ left, left <:+ first ∧ ss = left ++ rest ∧
        ∃ e isDefault line, .binding name e isDefault line ∈ left := by
    intro chain origin gate ss os h
    induction h with
    | start hf' hp' =>
      obtain rfl := Except.ok.inj (hf.symm.trans hf')
      obtain rfl := Except.ok.inj (hp.symm.trans hp')
      exact .inr ⟨first, List.suffix_refl first, rfl, hname⟩
    | next _ hs ih =>
      obtain hmem | ⟨left, hleft, hss, e, isDefault, line, hm⟩ := ih
      · exact .inl ((names_isPrefix hs.isPrefix).subset hmem)
      obtain ⟨s, left, rfl⟩ := List.exists_cons_of_ne_nil (List.ne_nil_of_mem hm)
      obtain ⟨rfl, rfl⟩ := List.cons.inj hss
      rcases List.mem_cons.1 hm with rfl | hm
      · cases hs with
        | binding hs =>
          refine .inl ((names_isPrefix hs.isPrefix).subset (mem_names.2 ?_))
          exact ⟨.binding _ _ name e isDefault, List.mem_append_right _ List.mem_cons_self, rfl⟩
      · exact .inr ⟨left, (List.suffix_cons _ _).trans hleft, rfl, e, isDefault, line, hm⟩
    | enter _ _ _ _ ih =>
      obtain hmem | ⟨left, hleft, hss, hm⟩ := ih
      · rw [List.append_assoc]
        exact .inl ((names_isPrefix (List.prefix_append _ _)).subset hmem)
      · exact absurd hss (hinclusion hleft hm)
  rintro ⟨chain, origin, gate, directive, later, os, harrives, -, hmissing⟩
  obtain hmem | ⟨left, hleft, hss, hm⟩ := hmet harrives
  · exact hmissing hmem
  · exact hinclusion hleft hm hss

/-- **Printed names have their ordinals**, those of conditions as those in expressions: every
condition of a gate has the ordinal of the slot of its name, if there is one. The exception are
names that are early. They have no ordinal as conditions of includes that are taken before their
slots are there, although they have one in the graph. But for these names, gates with the same
conditions are equal, and a printed slot and the printed graph show every name in the same way.
A name that the entry module binds before its first include is not early. -/
theorem printed_names_have_ordinals (h : loader.compile path = .ok c) :
    (∀ gate, c.graph.HasGate gate → ∀ cond ∈ gate.conditions,
      cond.ordinal = c.graph.ordinal? cond.name ∨
        cond.ordinal = none ∧ c.Early loader cond.name) ∧
    (∀ gate gate', c.graph.HasGate gate → c.graph.HasGate gate' → gate.names = gate'.names →
      (∀ n ∈ gate.names, ¬ c.Early loader n) → gate = gate') ∧
    (∀ name slot, c.graph.slot? name = some slot →
      (∀ d ∈ slot.definitions.toList, ∀ n ∈ d.gate.names, ¬ c.Early loader n) →
      c.graph.source? name = some (Printer.slotWith (Printer.nameText c.graph) slot)) ∧
    ((∀ gate, c.graph.HasGate gate → ∀ n ∈ gate.names, ¬ c.Early loader n) →
      c.graph.printed = c.graph.printedWith (Printer.nameText c.graph)) ∧
    ∀ source first rest, loader.fetch c.path = .ok source →
      Statement.parse c.path source = .ok (first ++ rest) →
      (∀ s ∈ first, ∃ n e isDefault line, s = .binding n e isDefault line) →
      ∀ name, (∃ e isDefault line, .binding name e isDefault line ∈ first) →
        ¬ c.Early loader name := by
  refine ⟨fun gate hgate cond hc => ordinal_of_hasGate h hgate hc, ?_, ?_, ?_, ?_⟩
  · intro gate gate' hgate hgate' hnames hearly
    exact (knows_of_hasGate h hgate hearly).eq_of_names
      (knows_of_hasGate h hgate' (hnames ▸ hearly)) hnames
  · intro name slot hslot hearly
    rw [Graph.source?, hslot, Option.map_some, Printer.slotText_eq fun d hd =>
      knows_of_hasGate h (.inl ⟨name, d, ⟨slot, hslot, hd⟩, rfl⟩) (hearly d hd)]
  · exact fun hearly => Graph.printed_eq fun gate hgate =>
      knows_of_hasGate h hgate (hearly gate hgate)
  · exact fun source first rest hf hp hfirst name hname hearly =>
      not_namedAhead_of_module hf hp hfirst hname hearly.2

/-- A module that binds the name of a condition before the include. -/
def punctual : Loader :=
  (Bundle.ofList [("main", "LET A := true; INCLUDE \"x\" WHERE A;"), ("x", "LET X := A;")]).loader

theorem punctual_prints_ordinal : ∃ c slot, punctual.compile "main" = .ok c ∧
    c.graph.slot? "X" = some slot ∧
    (∀ d ∈ slot.definitions.toList, ∀ n ∈ d.gate.names, ¬ c.Early punctual n) ∧
    c.graph.source? "X" = some (Printer.slotWith (Printer.nameText c.graph) slot) ∧
    c.graph.source? "X" = some "if(bool(A:00), A:00, null)" := by
  have heval : (punctual.compile "main").toOption.map
      (fun c => (c.path, c.graph.slot? "X", c.graph.source? "X")) =
        some ("main", some ⟨.value, .primary ⟨.name "A", ⟨[⟨"A", some 0⟩]⟩, "x"⟩⟩,
          some "if(bool(A:00), A:00, null)") := by decide +kernel
  obtain ⟨c, hc, hvalues⟩ := exists_ok_of_map heval
  obtain ⟨hpath, hvalues⟩ := Prod.mk.inj hvalues
  obtain ⟨hslot, hsource⟩ := Prod.mk.inj hvalues
  obtain ⟨-, -, hprinted, -, hfirst⟩ := printed_names_have_ordinals hc
  rw [hpath] at hfirst
  have hfetch : punctual.fetch "main" = .ok "LET A := true; INCLUDE \"x\" WHERE A;" :=
    eq_ok_of_toOption (by decide +kernel)
  have hparse : Statement.parse "main" "LET A := true; INCLUDE \"x\" WHERE A;" =
      .ok ([.binding "A" (.literal (.bool true)) false 1] ++
        [.inclusion ⟨.literal "x", some (.name "A"), 1⟩]) :=
    eq_ok_of_toOption (by decide +kernel)
  have hpunctual : ¬ c.Early punctual "A" :=
    hfirst _ _ _ hfetch hparse (by simp) "A" (by simp)
  have hearly : ∀ d ∈ (Definitions.primary ⟨.name "A", ⟨[⟨"A", some 0⟩]⟩, "x"⟩).toList,
      ∀ n ∈ d.gate.names, ¬ c.Early punctual n := by
    simpa [Definitions.toList, Gate.names] using hpunctual
  exact ⟨c, _, hc, hslot, hearly, hprinted "X" _ hslot hearly, hsource⟩

/-- A module that binds the name of a condition after an include, and before another one. -/
def tardy : Loader :=
  (Bundle.ofList [
    ("main", "INCLUDE \"x\" WHERE A; LET A := true; INCLUDE \"y\" WHERE A;"),
    ("x", "LET X := 1;"), ("y", "LET Y := 2;")]).loader

/-- **A later ordinal is lost**: the first condition is printed without the ordinal that its name
has in the graph, and the second one with it. So the gates of `X` and `Y` have the same conditions,
and are not equal. -/
theorem late_ordinal_is_lost : ∃ c, tardy.compile "main" = .ok c ∧
    c.graph.ordinal? "A" = some 1 ∧
    c.graph.source? "X" = some "if(bool(A), 1, null)" ∧
    c.graph.source? "Y" = some "if(bool(A:01), 2, null)" ∧
    ∃ gate gate', c.graph.HasGate gate ∧ c.graph.HasGate gate' ∧ gate.names = gate'.names ∧
      gate ≠ gate' := by
  have heval : (tardy.compile "main").toOption.map
      (fun c => ((c.graph.ordinal? "A", c.graph.source? "X", c.graph.source? "Y"),
        (c.graph.slot? "X").map fun s => s.definitions.toList.map Definition.gate,
        (c.graph.slot? "Y").map fun s => s.definitions.toList.map Definition.gate)) =
      some ((some 1, some "if(bool(A), 1, null)", some "if(bool(A:01), 2, null)"),
        some [⟨[⟨"A", none⟩]⟩], some [⟨[⟨"A", some 1⟩]⟩]) := by decide +kernel
  obtain ⟨c, hc, hvalues⟩ := exists_ok_of_map heval
  simp only [Prod.mk.injEq] at hvalues
  obtain ⟨⟨hordinal, hx, hy⟩, hgate, hgate'⟩ := hvalues
  have hasGate : ∀ {name : String} {gate : Gate}, ((c.graph.slot? name).map fun s =>
      s.definitions.toList.map Definition.gate) = some [gate] → c.graph.HasGate gate := by
    intro name gate h
    obtain ⟨slot, hslot, hgates⟩ := Option.map_eq_some_iff.1 h
    obtain ⟨d, hd, he⟩ := List.mem_map.1 (hgates ▸ List.mem_cons_self)
    exact .inl ⟨name, d, ⟨slot, hslot, hd⟩, he⟩
  exact ⟨c, hc, hordinal, hx, hy, _, _, hasGate hgate, hasGate hgate', rfl, by decide⟩

end GatedRules
