import GatedRules.Proofs.GateSlots

/-!
# Series of registrations

A draft is asked to register bindings, conditions and sites, whatever they are, and refuses some of
the bindings. What it holds is only ever added to (`Draft.Keeps`): a slot keeps its name, its
ordinal, its kind and its definitions, and a value slot may get the one of its two definitions that
it lacks (`Draft.keeps_after`). So a binding that is refused once is refused from then on
(`Draft.Keeps.refuses`), and it does not matter which of the two definitions of a name comes first
(`Draft.register_comm`).
-/

namespace GatedRules

/-- What a draft is asked to register. -/
inductive Registration
  /-- A definition of a name, or its default. -/
  | binding (name : String) (definition : Definition) (isDefault : Bool)
  /-- The condition of an include. -/
  | condition (expr : Expr) (origin : String)
  /-- An include whose module is known only when an execution knows its inputs. -/
  | site (site : Site)

namespace Slot

/-- A slot, and what it may be later. -/
structure Becomes (s later : Slot) : Prop where
  /-- The kind stays. -/
  kind : later.kind = s.kind
  /-- The definitions stay. -/
  definition : ∀ isDefault, ∀ d ∈ s.marked? isDefault, d ∈ later.marked? isDefault
  /-- The slot of a condition stays as it is. -/
  gate : s.kind = .gate → later = s

theorem Becomes.refl (s : Slot) : s.Becomes s :=
  ⟨rfl, fun _ _ => id, fun _ => rfl⟩

theorem Becomes.trans {s t u : Slot} (h : s.Becomes t) (h' : t.Becomes u) : s.Becomes u where
  kind := h'.kind.trans h.kind
  definition isDefault d hd := h'.definition isDefault d (h.definition isDefault d hd)
  gate hs := (h'.gate (h.kind.trans hs)).trans (h.gate hs)

end Slot

namespace Draft

/-- Register what is asked for. A binding that is refused leaves the draft as it was. -/
def register (d : Draft) : Registration → Draft
  | .binding name definition isDefault => (d.define name definition isDefault).toOption.getD d
  | .condition expr origin => (d.defineGate expr origin).1
  | .site s => d.addSite s

/-- The draft after a series of registrations. -/
def after (d : Draft) (rs : List Registration) : Draft :=
  rs.foldl register d

/-- A name takes no further definition with this mark: it is that of a condition, or there is such
a definition. -/
def Refuses (d : Draft) (name : String) (isDefault : Bool) : Prop :=
  ∃ slot, d.slots.get? name = some slot ∧
    (slot.kind = .gate ∨ (slot.marked? isDefault).isSome = true)

/-- What a draft holds, a later one holds too. -/
structure Keeps (d later : Draft) : Prop where
  /-- Slots stay, with what they hold. -/
  slot : ∀ n slot, d.slots.get? n = some slot →
    ∃ slot', later.slots.get? n = some slot' ∧ slot.Becomes slot'
  /-- Names keep their ordinals. -/
  ordinal : ∀ n i, d.ordinal? n = some i → later.ordinal? n = some i
  /-- Sites stay in their order. -/
  sites : d.sites <+: later.sites

variable {d d' : Draft} {name : String} {definition : Definition} {isDefault : Bool}

/-! ### Ordinals -/

theorem ordinal?_eq_some_iff {n : String} {i : Nat} :
    d.ordinal? n = some i ↔ d.slots.keys[i]? = some n :=
  idxOf?_eq_some_iff_getElem? d.slots.nodup_keys

/-- The slots stand at their ordinals. -/
theorem getElem?_entries {n : String} {slot : Slot} {i : Nat} :
    d.slots.entries[i]? = some (n, slot) ↔ d.ordinal? n = some i ∧ d.slots.get? n = some slot := by
  rw [ordinal?_eq_some_iff, Table.keys, List.getElem?_map, Option.map_eq_some_iff]
  constructor
  · exact fun h => ⟨⟨_, h, rfl⟩, Table.get?_eq_some_iff.2 (List.mem_of_getElem? h)⟩
  · rintro ⟨⟨⟨_, held⟩, h, rfl⟩, hslot⟩
    have hheld := Table.get?_eq_some_iff.2 (List.mem_of_getElem? h)
    rw [h, Option.some.inj (hheld.symm.trans hslot)]

/-! ### Refusals -/

theorem becomes_of_addTo? {slot slot' : Slot} (h : addTo? definition isDefault slot = some slot') :
    slot.Becomes slot' := by
  obtain ⟨kind, definitions⟩ := slot
  cases kind with
  | gate => cases h
  | value =>
    obtain ⟨added, hadded, rfl⟩ := Option.map_eq_some_iff.1 h
    refine ⟨rfl, fun isDefault' => ?_, fun hkind => nomatch hkind⟩
    cases isDefault <;> cases definitions <;> cases hadded <;> cases isDefault' <;>
      simp [Slot.marked?, Slot.fallback?, Slot.primary?, Definitions.fallback?,
        Definitions.primary?]

theorem register_of_refuses (h : d.Refuses name isDefault) :
    d.register (.binding name definition isDefault) = d := by
  obtain ⟨slot, hslot, hrefused⟩ := h
  rw [register, define_eq_error_iff.2 ⟨slot, hslot, hrefused, rfl⟩]
  rfl

/-! ### What stays -/

theorem Keeps.refl (d : Draft) : d.Keeps d :=
  ⟨fun _ slot h => ⟨slot, h, .refl slot⟩, fun _ _ => id, List.prefix_rfl⟩

theorem Keeps.trans {d' d'' : Draft} (h : d.Keeps d') (h' : d'.Keeps d'') : d.Keeps d'' where
  slot n slot hslot := by
    obtain ⟨slot', hslot', hbecomes⟩ := h.slot n slot hslot
    obtain ⟨slot'', hslot'', hbecomes'⟩ := h'.slot n slot' hslot'
    exact ⟨slot'', hslot'', hbecomes.trans hbecomes'⟩
  ordinal n i hi := h'.ordinal n i (h.ordinal n i hi)
  sites := h.sites.trans h'.sites

/-- A draft keeps what it holds if its slot under one name becomes another one. -/
theorem keeps_insert {slot : Slot} {literals : Table String String}
    (h : ∀ old, d.slots.get? name = some old → old.Becomes slot) :
    d.Keeps { d with slots := d.slots.insert name slot, literals } where
  slot n old hold := by
    rw [Table.get?_insert]
    by_cases hn : n = name
    · exact ⟨slot, if_pos hn, h old (hn ▸ hold)⟩
    · exact ⟨old, (if_neg hn).trans hold, .refl old⟩
  ordinal _ _ hi := rank?_insert hi
  sites := List.prefix_rfl

/-- A registration keeps what a draft holds. -/
theorem keeps_register (d : Draft) (r : Registration) : d.Keeps (d.register r) := by
  cases r with
  | binding name definition isDefault =>
    rw [register]
    cases hdefine : d.define name definition isDefault with
    | error duplicate => exact .refl d
    | ok d' =>
      obtain ⟨slot, hslot, rfl⟩ := of_define hdefine
      refine keeps_insert fun old hold => ?_
      obtain ⟨hnone, -⟩ | ⟨old', hsome, hadd⟩ := hslot
      · cases hnone.symm.trans hold
      · cases hsome.symm.trans hold
        exact becomes_of_addTo? hadd
  | condition expr origin =>
    rw [register]
    cases hname : expr.asName? with
    | some m =>
      rw [defineGate_name hname]
      exact .refl d
    | none =>
      cases hordinal : d.ordinal? expr.text with
      | some i =>
        -- the text may also be the name of a value slot, which stays as well
        rw [defineGate_known hname hordinal]
        exact .refl d
      | none =>
        rw [defineGate_new hname hordinal]
        exact keeps_insert fun old hold =>
          nomatch (ordinal?_eq_none_iff.1 hordinal).symm.trans hold
  | site s => exact ⟨fun _ slot h => ⟨slot, h, .refl slot⟩, fun _ _ => id, List.prefix_append ..⟩

/-- A series of registrations keeps what a draft holds. -/
theorem keeps_after (d : Draft) (rs : List Registration) : d.Keeps (d.after rs) := by
  induction rs generalizing d with
  | nil => exact .refl d
  | cons r rs ih => exact (d.keeps_register r).trans (ih (d.register r))

/-- What is refused once is refused from then on. -/
theorem Keeps.refuses (h : d.Keeps d') (hr : d.Refuses name isDefault) :
    d'.Refuses name isDefault := by
  obtain ⟨slot, hslot, hrefused⟩ := hr
  obtain ⟨slot', hslot', hbecomes⟩ := h.slot name slot hslot
  refine ⟨slot', hslot', hrefused.imp hbecomes.kind.trans fun hsome => ?_⟩
  obtain ⟨definition, hdefinition⟩ := Option.isSome_iff_exists.1 hsome
  exact Option.isSome_iff_exists.2 ⟨definition, hbecomes.definition isDefault _ hdefinition⟩

/-! ### Slots of conditions -/

/-- The slot of a condition holds a condition that it is named by. -/
def GatesHold (d : Draft) : Prop :=
  ∀ n slot, d.slots.get? n = some slot → slot.kind = .gate →
    ∃ expr origin, expr.asName? = none ∧ n = expr.text ∧ slot = gateSlot expr origin

theorem GatesHold.register (h : d.GatesHold) (r : Registration) : (d.register r).GatesHold := by
  cases r with
  | binding name definition isDefault =>
    rw [Draft.register]
    cases hdefine : d.define name definition isDefault with
    | error duplicate => exact h
    | ok d' =>
      obtain ⟨added, hvalue, hslots, -⟩ := slots_define hdefine
      intro n slot hslot hgate
      rw [Except.toOption, Option.getD_some, hslots, Table.get?_insert] at hslot
      split at hslot
      · cases hslot
        rw [hvalue] at hgate
        cases hgate
      · exact h n slot hslot hgate
  | condition expr origin =>
    rw [Draft.register]
    cases hname : expr.asName? with
    | some m => rwa [defineGate_name hname]
    | none =>
      cases hordinal : d.ordinal? expr.text with
      | some i => rwa [defineGate_known hname hordinal]
      | none =>
        rw [defineGate_new hname hordinal]
        intro n slot hslot hgate
        rw [Table.get?_insert] at hslot
        split at hslot
        · rename_i hn
          cases hslot
          exact ⟨expr, origin, hname, hn, rfl⟩
        · exact h n slot hslot hgate
  | site s => exact h

theorem GatesHold.after (h : d.GatesHold) (rs : List Registration) : (d.after rs).GatesHold := by
  induction rs generalizing d with
  | nil => exact h
  | cons r rs ih => exact ih (h.register r)

/-! ### The two definitions of a name -/

/-- A name that takes both a definition and a default is new. -/
theorem get?_eq_none_of_not_refuses (hproper : ¬ d.Refuses name false)
    (hdefault : ¬ d.Refuses name true) : d.slots.get? name = none := by
  cases hslot : d.slots.get? name with
  | none => rfl
  | some slot =>
    obtain ⟨kind, definitions⟩ := slot
    cases definitions with
    | primary p => exact absurd ⟨_, hslot, .inr rfl⟩ hproper
    | fallback f => exact absurd ⟨_, hslot, .inr rfl⟩ hdefault
    | both p f => exact absurd ⟨_, hslot, .inr rfl⟩ hproper

/-- The definition and the default of a new name, in the order of their registration. -/
theorem register_register_new (hnew : d.slots.get? name = none) (isDefault : Bool)
    (definition other : Definition) :
    (d.register (.binding name definition isDefault)).register (.binding name other !isDefault) =
      { d with
        slots := d.slots.insert name
          ⟨.value, if isDefault then .both other definition else .both definition other⟩
        literals :=
          noteLiteral name (if isDefault then other else definition) false d.literals } := by
  have hfirst : d.register (.binding name definition isDefault) =
      { d with
        slots := d.slots.insert name ⟨.value, .single definition isDefault⟩
        literals := noteLiteral name definition isDefault d.literals } := by
    rw [register, define, hnew]
    rfl
  rw [hfirst, register, define]
  dsimp only
  rw [Table.get?_insert_self]
  cases isDefault <;>
    simp [Definitions.single, addTo?, Definitions.add?, Except.toOption, Table.insert_insert,
      noteLiteral]

/-- The definition and the default of a name may be registered in either order. -/
theorem register_comm (d : Draft) (name : String) (definition fallback : Definition) :
    (d.register (.binding name definition false)).register (.binding name fallback true) =
      (d.register (.binding name fallback true)).register (.binding name definition false) := by
  -- a refusal lasts, so what is refused may as well come last
  by_cases hproper : d.Refuses name false
  · rw [register_of_refuses hproper,
      register_of_refuses ((d.keeps_register _).refuses hproper)]
  by_cases hdefault : d.Refuses name true
  · rw [register_of_refuses hdefault,
      register_of_refuses ((d.keeps_register _).refuses hdefault)]
  have hnew := get?_eq_none_of_not_refuses hproper hdefault
  exact (register_register_new hnew false definition fallback).trans
    (register_register_new hnew true fallback definition).symm

end Draft

end GatedRules
