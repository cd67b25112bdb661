import GatedRules.Proofs.Constants
import GatedRules.Proofs.GateSlots
import GatedRules.Proofs.Places

/-!
# Targets that are known beforehand

The target of an include may take names, and still be known when the module is compiled: a draft
keeps the texts of the names that are bound to a string or a number under no gate. At run time the
same target would be rendered with the values of these names. Both give the same path
(`targets_known_beforehand`): such a name has the same value in all executions, which is that of the
literal, and a literal has the text of its value (`Literal.pathText?_eq`). For numbers this needs
that they are finite, and that numbers of rule source have no sign; a whole number may become an
integer, whose text is that of the number again.

The texts that a draft keeps are exactly those of the names that are bound so
(`Draft.literal?_eq_some_iff`), however it was made, and also where there is a default besides. The
slot of a condition has a definition too, and the condition may be a literal; but its name is no
bound name, and no text is kept for it (`Draft.literal?_of_condition`).
-/

namespace GatedRules

open Occurrences

/-! ### Texts of literals -/

/-- The number of a literal is finite and has no sign. -/
def Literal.IsPlain : Literal → Prop
  | number x => ∃ m e, Decimal.Binary.ofFloat x = .finite false m e
  | null | bool _ | string _ => True

/-- A number without a sign has the text of its value. -/
theorem Value.pathText?_ofNumber {x : Float} {m : Nat} {e : Int}
    (hx : Decimal.Binary.ofFloat x = .finite false m e) :
    (Value.ofNumber x).pathText? = some (Decimal.sourceText x) := by
  unfold Value.ofNumber
  split
  · rename_i n hn
    have hwhole : Decimal.whole? x = some n := (Option.filter_eq_some_iff.1 hn).1
    rw [pathText?, Decimal.ofInt_of_whole? hx hwhole]
  · rw [hx]
    rfl

/-- **A literal has the text of its value**, if it has one. -/
theorem Literal.pathText?_eq {l : Literal} (hl : l.IsPlain) {text : String}
    (h : l.pathText? = some text) : (Value.ofLiteral l).pathText? = some text := by
  cases l with
  | number x =>
    obtain ⟨m, e, hx⟩ := hl
    exact (Value.pathText?_ofNumber hx).trans h
  | string s => exact h
  | null => cases h
  | bool b => cases h

/-- A literal of a parsed module is finite, and has no sign. -/
theorem Expr.Parsed.isPlain {l : Literal} (h : (Expr.literal l).Parsed) : l.IsPlain := by
  cases l with
  | number x =>
    have hself : Expr.literal (.number x) ∈ (Expr.literal (.number x)).parts :=
      Expr.mem_parts_self _
    exact ((h.legible _ hself).number x rfl).ofFloat (h.finite x hself)
  | null | bool _ | string _ => trivial

/-! ### The texts that a draft keeps -/

theorem Gate.isAlways_iff {g : Gate} : g.isAlways = true ↔ g = .always := by
  obtain ⟨conditions⟩ := g
  simp [isAlways, always]

theorem Definition.literalText?_eq_some_iff {d : Definition} {text : String} :
    d.literalText? = some text ↔
      ∃ l, d.expr = .literal l ∧ d.gate = .always ∧ l.pathText? = some text := by
  obtain ⟨expr, gate, origin⟩ := d
  cases expr with
  | literal l => simp [literalText?, Gate.isAlways_iff]
  | _ => simp [literalText?]

/-- The text of a name with this slot, if it is bound to a literal under no gate. -/
def Slot.text? (s : Slot) : Option String :=
  match s.kind with
  | .gate => none
  | .value => s.primary?.bind Definition.literalText?

namespace Draft

/-- One registration, of whatever is given. -/
inductive Registers : Draft → Draft → Prop
  /-- A definition, which is accepted. -/
  | define {d d' : Draft} {name : String} {definition : Definition} {isDefault : Bool} :
    d.define name definition isDefault = .ok d' → Registers d d'
  /-- A condition. -/
  | defineGate {d : Draft} {expr : Expr} {origin : String} :
    Registers d (d.defineGate expr origin).1
  /-- A site. -/
  | addSite {d : Draft} {site : Site} : Registers d (d.addSite site)

/-- The texts that are kept are those of the slots. -/
def KeepsTexts (d : Draft) : Prop :=
  ∀ n, d.literal? n = (d.slots.get? n).bind Slot.text?

variable {d d' : Draft}

/-- A default leaves the text of a name as it is; a proper definition gives the name its text, and
there was none before. -/
theorem text?_addTo? {definition : Definition} {isDefault : Bool} {slot slot' : Slot}
    (h : addTo? definition isDefault slot = some slot') :
    slot'.text? = (if isDefault then none else definition.literalText?).or slot.text? := by
  obtain ⟨kind, definitions⟩ := slot
  cases kind with
  | gate => cases h
  | value =>
    obtain ⟨added, hadded, rfl⟩ := Option.map_eq_some_iff.1 h
    cases isDefault <;> cases definitions <;> cases hadded <;>
      simp [Slot.text?, Slot.primary?, Definitions.primary?]

theorem KeepsTexts.define (h : d.KeepsTexts) {name : String} {definition : Definition}
    {isDefault : Bool} (hd : d.define name definition isDefault = .ok d') : d'.KeepsTexts := by
  obtain ⟨slot, hslot, rfl⟩ := of_define hd
  have hslot : slot.text? = (if isDefault then none else definition.literalText?).or
      ((d.slots.get? name).bind Slot.text?) := by
    obtain ⟨hnone, rfl⟩ | ⟨old, hsome, hadd⟩ := hslot
    · rw [hnone]
      cases isDefault <;> simp [Slot.text?, Slot.primary?, Definitions.primary?, Definitions.single]
    · rw [hsome]
      exact text?_addTo? hadd
  intro n
  rw [literal?, literals_define, Table.get?_insert]
  by_cases hn : n = name
  · subst hn
    rw [if_pos rfl, Option.bind_some, hslot, ← h n, literal?]
    cases isDefault <;> simp
  · rw [if_neg hn, if_neg fun hc => hn hc.1]
    exact h n

theorem KeepsTexts.defineGate (h : d.KeepsTexts) (expr : Expr) (origin : String) :
    (d.defineGate expr origin).1.KeepsTexts := by
  cases hname : expr.asName? with
  | some m => rwa [defineGate_name hname]
  | none =>
    cases hordinal : d.ordinal? expr.text with
    | some i => rwa [defineGate_known hname hordinal]
    | none =>
      rw [defineGate_new hname hordinal]
      intro n
      rw [Table.get?_insert]
      split
      · rename_i hn
        have hnew := h n
        rw [hn, ordinal?_eq_none_iff.1 hordinal] at hnew
        exact hn ▸ hnew
      · exact h n

/-- However a draft was made, the texts that it keeps are those of its slots. -/
theorem keepsTexts_of_registers (h : Relation.ReflTransGen Registers .empty d) : d.KeepsTexts := by
  induction h with
  | refl => exact fun _ => rfl
  | tail _ hstep ih =>
    cases hstep with
    | define hd => exact ih.define hd
    | defineGate => exact ih.defineGate _ _
    | addSite => exact ih

/-- **The texts that are kept** are those of the names that are bound to a literal under no gate,
with or without a default besides. -/
theorem literal?_eq_some_iff (h : Relation.ReflTransGen Registers .empty d) {n text : String} :
    d.literal? n = some text ↔ ∃ slot l origin, d.slots.get? n = some slot ∧ slot.kind = .value ∧
      slot.primary? = some ⟨.literal l, .always, origin⟩ ∧ l.pathText? = some text := by
  rw [keepsTexts_of_registers h n, Option.bind_eq_some_iff]
  constructor
  · rintro ⟨slot, hslot, ht⟩
    unfold Slot.text? at ht
    split at ht
    · cases ht
    · rename_i hkind
      obtain ⟨⟨expr, gate, origin⟩, hd, ht⟩ := Option.bind_eq_some_iff.1 ht
      obtain ⟨l, rfl, rfl, hl⟩ := Definition.literalText?_eq_some_iff.1 ht
      exact ⟨slot, l, origin, hslot, hkind, hd, hl⟩
  · rintro ⟨slot, l, origin, hslot, hkind, hd, hl⟩
    refine ⟨slot, hslot, ?_⟩
    rw [Slot.text?, hkind, hd]
    exact (Definition.literalText?_eq_some_iff (d := ⟨_, _, origin⟩)).2 ⟨l, rfl, rfl, hl⟩

/-- The condition `5` has a slot, and its definition is a literal with a text, but no text is
kept. -/
theorem literal?_of_condition :
    let d := (empty.defineGate (.literal (.number 5)) "main").1
    Relation.ReflTransGen Registers .empty d ∧
      (d.slots.get? "5").bind Slot.primary? = some ⟨.literal (.number 5), .always, "main"⟩ ∧
      (Literal.number 5).pathText? = some "5" ∧ d.literal? "5" = none := by
  intro d
  have htext : (Expr.literal (.number 5)).text = "5" := by decide +kernel
  refine ⟨.single .defineGate, ?_, by decide +kernel, rfl⟩
  rw [show d = _ from congrArg Prod.fst (defineGate_new rfl rfl), htext]
  rfl

end Draft

/-! ### Names at run time -/

/-- A name has a value in all executions of a graph, whatever they are asked for before. -/
def Graph.Binds (g : Graph) (n : String) (v : Value) : Prop :=
  ∀ (e : Engine) (inputs : Table String Value) (turns : List Turn) (budget : Nat) (loader : Loader),
    e.Numbered → (∀ turn ∈ turns, turn.Fair e.nextId) → 3 ≤ budget →
    let now := (Execution.start e g inputs).1.take (Execution.start e g inputs).2 turns
    (now.2.1.fetchWithin budget now.2.2 loader n).1 = .ok v

theorem Graph.Fixes.binds {g : Graph} {n : String} {l : Literal} (h : g.Fixes n l)
    (hg : g.IsCompiled) (hn : Text.Sheltered n.toList) : g.Binds n (.ofLiteral l) :=
  fun _ inputs _ _ loader he hturns hbudget =>
    Execution.fetch_constant hg h hn he inputs hturns hbudget loader

/-- Bindings and conditions of parsed modules, the numbers of which are finite. -/
def Ingredients.parsed : Ingredients where
  binding n e := Text.Sheltered n.toList ∧ e.Parsed
  condition e := e.Parsed
  target _ := True
  gate _ := True
  always := trivial
  and _ _ := trivial
  gateOf _ _ := trivial

theorem Loader.Finite.isMadeOf {loader : Loader} (h : loader.Finite) :
    loader.IsMadeOf .parsed := by
  intro path source ss hf hp s hs
  have hparsed : s.Parsed := ⟨⟨path, source, ss, hp, hs⟩, h path source ss hf hp s hs⟩
  cases s with
  | binding name expr isDefault line =>
    have hname := (Statement.spelled_of_parse hp _ hs).1
    exact ⟨Text.sheltered_of_isWord hname, hparsed.expression (List.mem_singleton_self expr)⟩
  | inclusion directive =>
    exact ⟨trivial, fun e he => hparsed.expression (Option.mem_toList.2 he)⟩

/-- It is a binding to a literal under no gate that makes a text known. -/
theorem Occurrence.eq_of_literal? {o : Occurrence} {n text : String}
    (h : o.literal? n = some text) : ∃ origin l,
      o = .binding origin .always n (.literal l) false ∧ l.pathText? = some text := by
  obtain ⟨d, hd, ht⟩ := Option.bind_eq_some_iff.1 h
  cases o with
  | binding origin gate m expr isDefault =>
    rw [Occurrence.definition?, Option.ite_none_right_eq_some] at hd
    obtain ⟨⟨rfl, rfl⟩, he⟩ := hd
    cases he
    obtain ⟨l, rfl, rfl, hl⟩ := Definition.literalText?_eq_some_iff.1 ht
    exact ⟨origin, l, rfl, hl⟩
  | _ => cases hd

section

variable {loader : Loader} {path : String} {c : Compiled} {chain : List String} {origin : String}
  {gate : Gate} {ss : List Statement} {w : Walk} {n text : String}

/-- A name whose text is known at some place of a walk is constant in the graph, and has this
text. -/
theorem Walk.Stands.fixes (hs : Stands loader c.path chain origin gate ss w)
    (h : loader.compile path = .ok c) (hfinite : loader.Finite)
    (hn : w.draft.literal? n = some text) : ∃ l, c.graph.Fixes n l ∧
      (Value.ofLiteral l).pathText? = some text ∧ Text.Sheltered n.toList := by
  obtain ⟨whole, hwhole, hpath, -, hmatches⟩ := compile_follows_reference_walk h
  have henters : Enters loader c.path .always [] whole := hpath ▸ (hwhole whole).2 rfl
  -- What makes the text known has occurred before the place, so it has occurred in the end.
  obtain ⟨includes, os, harrives, hfinds, -, -⟩ := hs.arrives
  obtain ⟨os', hwalks, hend⟩ := harrives.walks henters
  have hknown : literal? os n = some text := (hfinds.draft.literals n).symm.trans hn
  obtain ⟨o, ho, hliteral⟩ := List.exists_of_findSome?_eq_some hknown
  obtain ⟨origin', l, rfl, hl⟩ := Occurrence.eq_of_literal? hliteral
  have hmem := (hwalks.isPrefix.trans hend).subset ho
  obtain ⟨slot, hslot, -, hd⟩ := (hmatches.bindings ..).1 hmem
  have hfixes : c.graph.Fixes n l := ⟨origin', (congrArg (Option.bind · _) hslot).trans hd⟩
  obtain ⟨source, module, hf, hp, hw⟩ := henters
  obtain ⟨⟨hsheltered, hparsed⟩, -⟩ := hw.isMadeOf hfinite.isMadeOf trivial
    (hfinite.isMadeOf _ _ _ hf hp) (by simp [Occurrence.IsMadeOf]) _ hmem
  exact ⟨l, hfixes, Literal.pathText?_eq hparsed.isPlain hl, hsheltered⟩

end

/-- A target that is known is rendered from values with the texts that are known. -/
theorem Engine.render_of_target {site : Site} {known : String → Option String} {target : String}
    (h : site.template.target known = .fixed target) {bound : String → Option Value}
    (hbound : ∀ n ∈ site.template.inputs, ∀ text, known n = some text →
      (bound n).bind Value.pathText? = some text) : Engine.render site bound = .ok target := by
  obtain ⟨text, htext, rfl⟩ := Template.exists_render h
  have hrender : site.template.render (fun n => (bound n).bind Value.pathText?) = .ok text :=
    Template.render_of_known hbound htext
  rw [render, hrender]

/-- **Targets that are known beforehand are those of run time.** In a module that compiles, from
sources whose numbers are finite, let the walk come to an include whose target is known. Then every
name that the target takes has a value, the same in all executions of the graph, for all inputs and
whatever is asked for before; and with these values, the target is rendered to the path that was
known. Moreover, however a draft was made, the texts that it keeps are those of the names that are
bound to a literal with this text under no gate, with or without a default besides. -/
theorem targets_known_beforehand :
    (∀ (loader : Loader) (path : String) (c : Compiled), loader.compile path = .ok c →
      loader.Finite →
      ∀ (chain : List String) (origin : String) (gate : Gate) (directive : Include)
        (rest : List Statement) (w : Walk) (target : String),
      Walk.Stands loader c.path chain origin gate (.inclusion directive :: rest) w →
      directive.target.target w.draft.literal? = .fixed target →
      ∃ value : String → Value, (∀ n ∈ directive.target.inputs, c.graph.Binds n (value n)) ∧
        ∀ (site : Site) (bound : String → Option Value), site.template = directive.target →
          (∀ n ∈ directive.target.inputs, bound n = some (value n)) →
          Engine.render site bound = .ok target) ∧
    ∀ d : Draft, Relation.ReflTransGen Draft.Registers .empty d → ∀ n text : String,
      d.literal? n = some text ↔ ∃ slot l origin, d.slots.get? n = some slot ∧
        slot.kind = .value ∧ slot.primary? = some ⟨.literal l, .always, origin⟩ ∧
        l.pathText? = some text := by
  refine ⟨fun loader path c h hfinite chain origin gate directive rest w target hs ht => ?_,
    fun d hd n text => Draft.literal?_eq_some_iff hd⟩
  have hfixes : ∀ n ∈ directive.target.inputs, ∃ l, c.graph.Fixes n l ∧
      (Value.ofLiteral l).pathText? = w.draft.literal? n ∧ Text.Sheltered n.toList := by
    intro n hn
    obtain ⟨text, htext⟩ := Template.exists_known ht hn
    exact htext ▸ hs.fixes h hfinite htext
  have hnonempty : Nonempty Literal := ⟨.null⟩
  choose! l hl using hfixes
  refine ⟨fun n => .ofLiteral (l n), fun n hn => ?_, fun site bound hsite hbound => ?_⟩
  · obtain ⟨hfixed, -, hsheltered⟩ := hl n hn
    exact hfixed.binds ⟨loader, path, c, h, rfl⟩ hsheltered
  · rw [← hsite] at ht hbound hl
    refine Engine.render_of_target ht fun n hn text htext => ?_
    rw [hbound n hn, Option.bind_some, (hl n hn).2.1, htext]

/-- A module with an include whose target takes a string, which has a default too, and a number. -/
def stagedSource : String :=
  "LET Env := \"prod\"; LET Level := 2.50; LET Env := \"dev\" DEFAULT; " ++
    "INCLUDE \"${Env}/v${Level}\";"

/-- The include. -/
def staged : Include :=
  ⟨⟨[.input "Env", .literal "/v", .input "Level"]⟩, none, 1⟩

/-- The module, and that to which the include leads. -/
def stages : Loader :=
  (Bundle.ofList [("main", stagedSource), ("prod/v2.5", "LET Ready := true;")]).loader

/-- The statements of the module. -/
def stagedModule : List Statement :=
  [.binding "Env" (.literal (.string "prod")) false 1,
    .binding "Level" (.literal (.number 2.5)) false 1,
    .binding "Env" (.literal (.string "dev")) true 1, .inclusion staged]

theorem stages_finite : stages.Finite := by
  have hstatements : stages.statements =
      stagedModule ++ [.binding "Ready" (.literal (.bool true)) false 1] := by
    decide +kernel
  intro path source ss hf hp s hs e he x hx
  have hmem := stages.mem_statements hf hp hs
  rw [hstatements, stagedModule] at hmem
  have hvalue : x = 2.5 := by
    simp only [List.cons_append, List.nil_append, List.mem_cons, List.not_mem_nil, or_false] at hmem
    obtain rfl | rfl | rfl | rfl | rfl := hmem <;>
      simp_all [Statement.expressions, Expr.parts, staged]
  subst hvalue
  decide +kernel

theorem stages_stand : ∃ w, Walk.Stands stages "main" [] "main" .always [.inclusion staged] w ∧
    staged.target.target w.draft.literal? = .fixed "prod/v2.5" := by
  have hfetch : (stages.fetch "main").toOption = some stagedSource := by decide +kernel
  have hparse : (Statement.parse "main" stagedSource).toOption = some stagedModule := by
    decide +kernel
  have hstart : Walk.Stands stages "main" [] "main" .always stagedModule _ :=
    .start (Walk.yields_load rfl (eq_ok_of_toOption hfetch) (eq_ok_of_toOption hparse) none)
  refine ⟨_, ((hstart.next rfl).next rfl).next rfl, ?_⟩
  decide +kernel

theorem stages_known_beforehand :
    (∃ (c : Compiled) (value : String → Value), stages.compile "main" = .ok c ∧
      (let x := Execution.start Engine.start c.graph .empty
        let now := x.1.take x.2 [.request ⟨stages, 9, "Env"⟩]
        (now.2.1.fetchWithin 9 now.2.2 stages "Level").1 = .ok (value "Level")) ∧
      Engine.render ⟨staged.target, .always, "main", 1⟩ (fun n => some (value n)) =
        .ok "prod/v2.5") ∧
    ∃ d, Relation.ReflTransGen Draft.Registers .empty d ∧ d.literal? "Env" = some "prod" := by
  obtain ⟨hstatic, hdrafts⟩ := targets_known_beforehand
  constructor
  · have hcompile : (stages.compile "main").toOption.map Compiled.path = some "main" := by
      decide +kernel
    obtain ⟨c, hc, hpath⟩ := exists_ok_of_map hcompile
    obtain ⟨w, hs, ht⟩ := stages_stand
    rw [← hpath] at hs
    obtain ⟨value, hbinds, hrender⟩ := hstatic _ _ c hc stages_finite _ _ _ _ _ _ _ hs ht
    have hinputs : staged.target.inputs = ["Env", "Level"] := rfl
    rw [hinputs] at hbinds
    refine ⟨c, value, hc, ?_, hrender _ _ rfl fun _ _ => rfl⟩
    refine hbinds "Level" (by simp) Engine.start .empty _ 9 stages Engine.numbered_start ?_ ?_
    · intro turn hturn
      obtain rfl := List.mem_singleton.1 hturn
      simp [Turn.Fair]
    · simp
  · obtain ⟨d, d', hd, hd'⟩ : ∃ d d',
        Draft.empty.define "Env" ⟨.literal (.string "dev"), .always, "main"⟩ true = .ok d ∧
        d.define "Env" ⟨.literal (.string "prod"), .always, "main"⟩ false = .ok d' :=
      ⟨_, _, rfl, rfl⟩
    have hregisters : Relation.ReflTransGen Draft.Registers .empty d' :=
      (Relation.ReflTransGen.single (.define hd)).tail (.define hd')
    obtain ⟨slot, hkind, hslots, hprimary, -⟩ := Draft.slots_define hd'
    refine ⟨d', hregisters, (hdrafts d' hregisters _ _).2
      ⟨slot, _, _, ?_, hkind, hprimary, rfl⟩⟩
    rw [hslots, Table.get?_insert_self]

end GatedRules
