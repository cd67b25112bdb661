import GatedRules.Inclusion.Walk

/-!
# What a walk comes across

A walk over includes comes across modules, bindings, conditions and sites. The list of these
occurrences, in the order of the walk, is all that its graph depends on: here slots, ordinals,
sites, gates and known texts are read off occurrences alone, without any table.

A draft `Records` occurrences if it holds just what they say. Registering one more binding,
condition or site keeps this so.
-/

namespace GatedRules

/-- Something that a walk comes across. -/
inductive Occurrence
  /-- A module is entered. -/
  | visit (path : String)
  /-- A binding of the module `origin`, under the gate of the include chain. -/
  | binding (origin : String) (gate : Gate) (name : String) (expr : Expr) (isDefault : Bool)
  /-- A condition of an include in the module `origin` that is not a bare name. -/
  | condition (origin : String) (expr : Expr)
  /-- An include whose target is not known beforehand. -/
  | site (site : Site)

namespace Occurrence

/-! ### Reading occurrences -/

/-- The name that an occurrence registers: a condition registers its canonical text. -/
def name? : Occurrence → Option String
  | binding _ _ name _ _ => some name
  | condition _ expr => some expr.text
  | visit _ | site _ => none

/-- The path of a module that is entered. -/
def visited? : Occurrence → Option String
  | visit path => some path
  | _ => none

/-- The site. -/
def site? : Occurrence → Option Site
  | site s => some s
  | _ => none

/-- The name of a binding, and whether it is a default. -/
def bound? : Occurrence → Option (String × Bool)
  | binding _ _ name _ isDefault => some (name, isDefault)
  | _ => none

/-- The definition that an occurrence gives a name. -/
def definition? (name : String) (isDefault : Bool) : Occurrence → Option Definition
  | binding origin gate n expr d =>
    if n = name ∧ d = isDefault then some ⟨expr, gate, origin⟩ else none
  | _ => none

/-- The definition of the gate slot of a canonical text that an occurrence asks for. -/
def gate? (text : String) : Occurrence → Option Definition
  | condition origin expr => if expr.text = text then some ⟨expr, .always, origin⟩ else none
  | _ => none

/-- The text that an occurrence makes known for a name. -/
def literal? (name : String) (o : Occurrence) : Option String :=
  (o.definition? name false).bind Definition.literalText?

end Occurrence

namespace Occurrences

/-- The names that are registered, in the order of their first registration. -/
def names (os : List Occurrence) : List String :=
  (os.filterMap Occurrence.name?).eraseDups

/-- The modules that are entered, in the order of the first visit. -/
def modules (os : List Occurrence) : List String :=
  (os.filterMap Occurrence.visited?).eraseDups

/-- The sites. -/
def sites (os : List Occurrence) : List Site :=
  os.filterMap Occurrence.site?

/-- The names that are bound, with whether the binding is a default. -/
def bound (os : List Occurrence) : List (String × Bool) :=
  os.filterMap Occurrence.bound?

/-- The ordinal of a name. -/
def ordinal? (os : List Occurrence) (name : String) : Option Nat :=
  (names os).idxOf? name

/-- The definition of a name, or its default. -/
def definition? (os : List Occurrence) (name : String) (isDefault : Bool) : Option Definition :=
  os.findSome? (Occurrence.definition? name isDefault)

/-- The definition of the gate slot of a canonical text: that of the first condition with it. -/
def gate? (os : List Occurrence) (text : String) : Option Definition :=
  os.findSome? (Occurrence.gate? text)

/-- The slot with a definition, a default, or else the definition of a gate slot. -/
def slotOf (primary? fallback? gate? : Option Definition) : Option Slot :=
  match primary?, fallback? with
  | some d, some e => some ⟨.value, .both d e⟩
  | some d, none => some ⟨.value, .primary d⟩
  | none, some e => some ⟨.value, .fallback e⟩
  | none, none => gate?.map fun d => ⟨.gate, .primary d⟩

/-- The slot of a name. -/
def slot? (os : List Occurrence) (name : String) : Option Slot :=
  slotOf (definition? os name false) (definition? os name true) (gate? os name)

/-- The text that is known for a name. -/
def literal? (os : List Occurrence) (name : String) : Option String :=
  os.findSome? (Occurrence.literal? name)

/-- The occurrences to which a condition leads; a bare name leads to none. -/
def ofCondition (origin : String) : Option Expr → List Occurrence
  | none => []
  | some expr =>
    match expr.asName? with
    | some _ => []
    | none => [.condition origin expr]

/-- The gate of a condition after what it leads to has occurred. -/
def gateOf (os : List Occurrence) : Option Expr → Gate
  | none => .always
  | some expr =>
    let name := expr.asName?.getD expr.text
    .ofCondition ⟨name, ordinal? os name⟩

end Occurrences

/-! ### Drafts -/

open Occurrences

/-- A draft holds just what occurrences say; no name is bound twice as a definition, nor twice as a
default. -/
structure Draft.Records (d : Draft) (os : List Occurrence) : Prop where
  /-- The slots are in the order of their registration. -/
  keys : d.slots.keys = names os
  /-- The slots are those of the occurrences. -/
  slots : ∀ n, d.slots.get? n = slot? os n
  /-- The sites are in the order of the walk. -/
  sites : d.sites = Occurrences.sites os
  /-- The known texts are those of the occurrences. -/
  literals : ∀ n, d.literals.get? n = Occurrences.literal? os n
  /-- No name is bound twice in the same way. -/
  nodup : (bound os).Nodup

namespace Occurrences

/-! ### One more occurrence -/

variable {os : List Occurrence} {o : Occurrence}

theorem names_append_none (h : o.name? = none) : names (os ++ [o]) = names os := by
  rw [names, List.filterMap_append, List.filterMap_cons_none h, List.filterMap_nil,
    List.append_nil, names]

/-- An element at the end of a list counts if it has not occurred before. -/
theorem eraseDups_concat (l : List String) (a : String) :
    (l ++ [a]).eraseDups = if a ∈ l then l.eraseDups else l.eraseDups ++ [a] := by
  rw [List.eraseDups_append, List.removeAll]
  by_cases h : a ∈ l
  · rw [if_pos h, List.filter_cons_of_neg (by simpa using h)]
    simp
  · rw [if_neg h, List.filter_cons_of_pos (by simpa using h)]
    rfl

theorem idxOf?_concat {l : List String} {a : String} (h : a ∉ l) :
    (l ++ [a]).idxOf? a = some l.length := by
  rw [List.idxOf?_eq_some_iff]
  refine ⟨by simp, by simp, fun j hj => ?_⟩
  rw [List.getElem_append_left hj]
  exact fun he => h (by simpa using he ▸ List.getElem_mem hj)

theorem names_append_some {n : String} (h : o.name? = some n) :
    names (os ++ [o]) = if n ∈ names os then names os else names os ++ [n] := by
  rw [names, List.filterMap_append, List.filterMap_cons_some h, List.filterMap_nil,
    eraseDups_concat, names]
  simp only [List.mem_eraseDups]

/-- The keys of a table that takes up the name of an occurrence. -/
theorem keys_insert {t : Table String Slot} {n : String} {slot : Slot} (h : o.name? = some n)
    (ht : t.keys = names os) : (t.insert n slot).keys = names (os ++ [o]) := by
  by_cases hn : n ∈ t.keys
  · rw [Table.keys_insert_of_mem _ hn, names_append_some h, if_pos (ht ▸ hn), ht]
  · rw [Table.keys_insert_of_not_mem _ hn, names_append_some h, if_neg (ht ▸ hn), ht]

theorem definition?_append {n : String} {isDefault : Bool} :
    definition? (os ++ [o]) n isDefault =
      (definition? os n isDefault).or (o.definition? n isDefault) := by
  rw [definition?, List.findSome?_append, definition?, List.findSome?_singleton]

theorem gate?_append {n : String} : gate? (os ++ [o]) n = (gate? os n).or (o.gate? n) := by
  rw [gate?, List.findSome?_append, gate?, List.findSome?_singleton]

theorem literal?_append {n : String} :
    literal? (os ++ [o]) n = (literal? os n).or (o.literal? n) := by
  rw [literal?, List.findSome?_append, literal?, List.findSome?_singleton]

/-- Where a name has no definition, no text is known for it. -/
theorem literal?_of_definition? {n : String} (h : definition? os n false = none) :
    literal? os n = none := by
  rw [definition?, List.findSome?_eq_none_iff] at h
  rw [literal?, List.findSome?_eq_none_iff]
  intro o ho
  rw [Occurrence.literal?, h o ho]
  rfl

/-- A slot depends only on the definitions and on the gate slot of its name. -/
theorem slot?_append {n : String} (hd : ∀ isDefault, o.definition? n isDefault = none)
    (hg : o.gate? n = none) : slot? (os ++ [o]) n = slot? os n := by
  simp only [slot?, definition?_append, hd, gate?_append, hg, Option.or_none]

theorem mem_bound {n : String} {isDefault : Bool} :
    (n, isDefault) ∈ bound os ↔ (definition? os n isDefault).isSome = true := by
  rw [bound, List.mem_filterMap, definition?, List.findSome?_isSome_iff]
  refine exists_congr fun o => and_congr_right fun _ => ?_
  cases o with
  | binding origin gate m expr d =>
    rw [Occurrence.bound?, Occurrence.definition?]
    split <;> simp_all
  | _ => simp [Occurrence.bound?, Occurrence.definition?]

end Occurrences

namespace Draft

variable {d d' : Draft} {os : List Occurrence}

theorem Records.empty : Draft.empty.Records [] :=
  ⟨rfl, fun _ => rfl, rfl, fun _ => rfl, List.nodup_nil⟩

/-- Occurrences that register no name change no slot. -/
theorem Records.append (h : d.Records os) {o : Occurrence} (hn : o.name? = none) :
    d.slots.keys = names (os ++ [o]) ∧ (∀ n, d.slots.get? n = slot? (os ++ [o]) n) ∧
      (∀ n, d.literals.get? n = Occurrences.literal? (os ++ [o]) n) ∧
      (bound (os ++ [o])).Nodup := by
  have hd : ∀ n isDefault, o.definition? n isDefault = none := by
    intro n isDefault
    cases o <;> first | rfl | cases hn
  have hg : ∀ n, o.gate? n = none := by
    intro n
    cases o <;> first | rfl | cases hn
  have hb : o.bound? = none := by
    cases o <;> first | rfl | cases hn
  refine ⟨?_, fun n => ?_, fun n => ?_, ?_⟩
  · rw [names_append_none hn, h.keys]
  · rw [slot?_append (hd n) (hg n), h.slots]
  · rw [literal?_append, Occurrence.literal?, hd, h.literals]
    simp
  · rw [bound, List.filterMap_append, List.filterMap_cons_none hb, List.filterMap_nil,
      List.append_nil]
    exact h.nodup

/-- Entering a module changes nothing. -/
theorem Records.visit (h : d.Records os) (path : String) : d.Records (os ++ [.visit path]) := by
  obtain ⟨hk, hs, hl, hb⟩ := h.append (o := .visit path) rfl
  refine ⟨hk, hs, ?_, hl, hb⟩
  rw [h.sites, Occurrences.sites, Occurrences.sites, List.filterMap_append]
  simp [Occurrence.site?]

theorem Records.addSite (h : d.Records os) (s : Site) :
    (d.addSite s).Records (os ++ [.site s]) := by
  obtain ⟨hk, hs, hl, hb⟩ := h.append (o := .site s) rfl
  refine ⟨hk, hs, ?_, hl, hb⟩
  rw [Draft.addSite, h.sites, Occurrences.sites, Occurrences.sites, List.filterMap_append]
  simp [Occurrence.site?]

/-- A slot that takes one more definition had none of its kind. -/
theorem slotOf_addTo? {p f g : Option Definition} {definition : Definition} {isDefault : Bool}
    {slot slot' : Slot} (hs : slotOf p f g = some slot)
    (ha : addTo? definition isDefault slot = some slot') :
    (if isDefault then f else p) = none ∧
      slotOf (if isDefault then p else some definition) (if isDefault then some definition else f)
        g = some slot' := by
  cases isDefault <;> cases p <;> cases f <;> cases g <;> cases hs <;> cases ha <;> exact ⟨rfl, rfl⟩

/-- A name without a slot has neither definitions nor conditions. -/
theorem slotOf_eq_none {p f g : Option Definition} (h : slotOf p f g = none) :
    p = none ∧ f = none ∧ g = none := by
  cases p <;> cases f <;> cases g <;> cases h
  exact ⟨rfl, rfl, rfl⟩

/-- The definitions of a name after one more binding of it, which is the first of its kind. -/
theorem definition?_binding {name origin : String} {gate : Gate} {expr : Expr}
    {isDefault : Bool} (hnew : definition? os name isDefault = none) (b : Bool) :
    definition? (os ++ [.binding origin gate name expr isDefault]) name b =
      if isDefault = b then some ⟨expr, gate, origin⟩ else definition? os name b := by
  rw [definition?_append, Occurrence.definition?]
  by_cases hb : isDefault = b
  · subst hb
    rw [hnew]
    simp
  · simp [hb]

/-- The slot after one more binding of its name, which is the first of its kind. -/
theorem Records.slot_define (h : d.Records os) {name origin : String} {gate : Gate} {expr : Expr}
    {isDefault : Bool} (hd : d.define name ⟨expr, gate, origin⟩ isDefault = .ok d') :
    definition? os name isDefault = none ∧
      ∃ slot, d' = { d with
        slots := d.slots.insert name slot
        literals := noteLiteral name ⟨expr, gate, origin⟩ isDefault d.literals } ∧
      slot? (os ++ [.binding origin gate name expr isDefault]) name = some slot := by
  have hgate : gate? (os ++ [.binding origin gate name expr isDefault]) name = gate? os name := by
    rw [gate?_append]
    exact Option.or_none
  have hslot := h.slots name
  obtain ⟨slot, ⟨hnone, rfl⟩ | ⟨old, hsome, hadd⟩, rfl⟩ := of_define hd
  · -- The name is new: neither definitions nor conditions of it have occurred.
    rw [hnone] at hslot
    obtain ⟨hp, hf, hg⟩ := slotOf_eq_none hslot.symm
    have hnew : definition? os name isDefault = none := by
      cases isDefault
      · exact hp
      · exact hf
    refine ⟨hnew, _, rfl, ?_⟩
    rw [slot?, definition?_binding hnew, definition?_binding hnew, hgate, hp, hf, hg]
    cases isDefault <;> rfl
  · -- The name has a slot without a definition of this kind, which gets one.
    rw [hsome] at hslot
    obtain ⟨hnew, hslot'⟩ := slotOf_addTo? hslot.symm hadd
    have hnew : definition? os name isDefault = none := by
      cases isDefault <;> exact hnew
    refine ⟨hnew, slot, rfl, ?_⟩
    rw [slot?, definition?_binding hnew, definition?_binding hnew, hgate]
    cases isDefault <;> exact hslot'

theorem literals_define {t : Table String String} {name : String} {definition : Definition}
    {isDefault : Bool} (n : String) :
    (noteLiteral name definition isDefault t).get? n =
      if n = name ∧ isDefault = false then definition.literalText?.or (t.get? n) else t.get? n := by
  unfold noteLiteral
  cases isDefault with
  | true => simp
  | false =>
    cases ht : definition.literalText? with
    | none => simp
    | some text =>
      simp only [Bool.false_eq_true, if_false, Table.get?_insert]
      by_cases hn : n = name <;> simp [hn]

theorem Records.define (h : d.Records os) {name origin : String} {gate : Gate} {expr : Expr}
    {isDefault : Bool} (hd : d.define name ⟨expr, gate, origin⟩ isDefault = .ok d') :
    d'.Records (os ++ [.binding origin gate name expr isDefault]) := by
  obtain ⟨hnew, slot, rfl, hslot⟩ := h.slot_define hd
  refine ⟨keys_insert rfl h.keys, fun n => ?_, ?_, fun n => ?_, ?_⟩
  · by_cases hn : n = name
    · subst hn
      rw [hslot]
      exact Table.get?_insert_self _ _ _
    · have hd : ∀ b, (Occurrence.binding origin gate name expr isDefault).definition? n b = none :=
        fun b => by simp [Occurrence.definition?, Ne.symm hn]
      rw [slot?_append hd rfl, ← h.slots]
      exact Table.get?_insert_of_ne _ _ hn
  · rw [Occurrences.sites, List.filterMap_append, List.filterMap_cons_none rfl, List.filterMap_nil,
      List.append_nil]
    exact h.sites
  · rw [literals_define, literal?_append, h.literals, Occurrence.literal?, Occurrence.definition?]
    by_cases hn : n = name ∧ isDefault = false
    · obtain ⟨rfl, rfl⟩ := hn
      rw [literal?_of_definition? hnew]
      simp
    · have hn' : ¬ (name = n ∧ isDefault = false) := fun hc => hn ⟨hc.1.symm, hc.2⟩
      rw [if_neg hn, if_neg hn']
      simp
  · rw [bound, List.filterMap_append, List.nodup_append]
    refine ⟨h.nodup, by simp [Occurrence.bound?], ?_⟩
    rintro b hb c hc rfl
    obtain rfl : b = (name, isDefault) := by simpa [Occurrence.bound?] using hc
    have hsome := mem_bound.1 hb
    rw [hnew] at hsome
    cases hsome

theorem Records.ordinal? (h : d.Records os) (name : String) :
    d.ordinal? name = Occurrences.ordinal? os name := by
  rw [Draft.ordinal?, Table.rank?, h.keys, Occurrences.ordinal?]

/-- A condition whose text is registered already changes no slot. -/
theorem slot?_condition {text : String} (h : (slot? os text).isSome = true) (origin : String)
    {expr : Expr} (ht : expr.text = text) (n : String) :
    slot? (os ++ [.condition origin expr]) n = slot? os n := by
  subst ht
  have hdef : ∀ b, definition? (os ++ [.condition origin expr]) n b = definition? os n b := by
    intro b
    rw [definition?_append]
    exact Option.or_none
  rw [slot?, hdef, hdef, gate?_append, slot?]
  by_cases hn : expr.text = n
  · subst hn
    rw [slot?] at h
    generalize definition? os expr.text false = p at h ⊢
    generalize definition? os expr.text true = f at h ⊢
    generalize gate? os expr.text = g at h ⊢
    cases p <;> cases f <;> cases g <;> first | rfl | cases h
  · rw [Occurrence.gate?, if_neg hn, Option.or_none]

/-- A condition whose text is not registered yet makes a gate slot. -/
theorem slot?_condition_self {expr : Expr} (h : slot? os expr.text = none) (origin : String) :
    slot? (os ++ [.condition origin expr]) expr.text =
      some ⟨.gate, .primary ⟨expr, .always, origin⟩⟩ := by
  obtain ⟨hp, hf, hg⟩ := slotOf_eq_none h
  rw [slot?, definition?_append, definition?_append, gate?_append, hp, hf, hg, Occurrence.gate?,
    if_pos rfl]
  rfl

/-- A condition makes no slot but its own. -/
theorem slot?_condition_of_ne {expr : Expr} {n : String} (h : n ≠ expr.text) (origin : String) :
    slot? (os ++ [.condition origin expr]) n = slot? os n :=
  slot?_append (fun _ => rfl) (by rw [Occurrence.gate?, if_neg (Ne.symm h)])

theorem Records.condition (h : d.Records os) {o : Occurrence} {expr : Expr} {origin : String}
    (ho : o = .condition origin expr) {t : Table String Slot} (hk : t.keys = names (os ++ [o]))
    (hs : ∀ n, t.get? n = slot? (os ++ [o]) n) :
    { d with slots := t }.Records (os ++ [o]) := by
  subst ho
  refine ⟨hk, hs, ?_, fun n => ?_, ?_⟩
  · rw [Occurrences.sites, List.filterMap_append, List.filterMap_cons_none rfl, List.filterMap_nil,
      List.append_nil]
    exact h.sites
  · rw [literal?_append]
    exact (h.literals n).trans Option.or_none.symm
  · rw [bound, List.filterMap_append, List.filterMap_cons_none rfl, List.filterMap_nil,
      List.append_nil]
    exact h.nodup

/-- Registering a condition makes a gate slot unless its text is registered already. -/
theorem Records.defineGate (h : d.Records os) (expr : Expr) (origin : String) :
    (d.defineGate expr origin).1.Records (os ++ ofCondition origin (some expr)) ∧
      Gate.ofCondition (d.defineGate expr origin).2 =
        gateOf (os ++ ofCondition origin (some expr)) (some expr) := by
  cases hname : expr.asName? with
  | some name =>
    -- A bare name is its own condition, and nothing occurs.
    have hof : ofCondition origin (some expr) = [] := by simp [ofCondition, hname]
    rw [hof, List.append_nil, Draft.defineGate, gateOf, hname]
    exact ⟨h, by rw [Option.getD_some, ← h.ordinal?]⟩
  | none =>
    have hof : ofCondition origin (some expr) = [.condition origin expr] := by
      simp [ofCondition, hname]
    rw [hof, Draft.defineGate, gateOf, hname, Option.getD_none]
    dsimp only
    have hregistered : ∀ n, n ∈ d.slots.keys ↔ (slot? os n).isSome = true := by
      intro n
      rw [← h.slots, Table.isSome_get?_iff]
    split
    · rename_i ordinal hord
      -- The condition occurs again, or a name is spelled like it: the slot stays what it is.
      have hmem : expr.text ∈ d.slots.keys := by
        refine Decidable.byContradiction fun hn => ?_
        rw [Draft.ordinal?, Table.rank?, List.idxOf?_eq_none_iff.2 hn] at hord
        cases hord
      have hnames : names (os ++ [.condition origin expr]) = names os := by
        rw [names_append_some rfl, if_pos (h.keys ▸ hmem)]
      refine ⟨h.condition rfl (hnames ▸ h.keys) fun n => ?_, ?_⟩
      · rw [slot?_condition ((hregistered _).1 hmem) origin rfl, h.slots]
      · rw [Occurrences.ordinal?, hnames, ← h.keys]
        exact congrArg _ (congrArg _ hord.symm)
    · rename_i hord
      have hmem : expr.text ∉ d.slots.keys := List.idxOf?_eq_none_iff.1 hord
      -- The condition is new and gets a slot at the end.
      have hnone : slot? os expr.text = none := by
        rw [← h.slots]
        exact Table.get?_eq_none_iff.2 hmem
      refine ⟨h.condition rfl (keys_insert rfl h.keys) fun n => ?_, ?_⟩
      · rw [Table.get?_insert]
        split
        · rename_i hn
          subst hn
          rw [slot?_condition_self hnone]
        · rename_i hn
          rw [slot?_condition_of_ne hn, h.slots]
      · rw [Occurrences.ordinal?, names_append_some rfl, if_neg (h.keys ▸ hmem), ← h.keys,
          idxOf?_concat hmem, Table.length_keys]

end Draft

end GatedRules
