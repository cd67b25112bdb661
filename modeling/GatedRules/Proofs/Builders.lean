import GatedRules.Proofs.Registrations
import GatedRules.Slot.Builder

/-!
# Builders do what drafts do

A walk registers what it finds in a draft, in which a slot has no number of its own and a refused
binding cannot leave a trace. A builder has numbers, an index and steps that change it one by one.
What a builder holds after a series of registrations is what a draft holds after the same series
(`Builder.empty_after`), since each step on `Builder.ofDraft d` answers as the draft `d` does and
leaves behind what the draft becomes (`Builder.perform_define`, `Builder.perform_defineGate`,
`Builder.perform_addSite`). So numbers and index always fit the slots, no position is ever missed,
and a step that fails has changed nothing: `Builder.registrations_keep`.
-/

namespace GatedRules

namespace Builder

variable {b : Builder} {d : Draft} {name : String} {definition : Definition} {isDefault : Bool}

/-! ### Steps -/

section

variable {α β : Type}

@[simp]
theorem perform_pure (a : α) (b : Builder) : perform (pure a) b = (.ok a, b) :=
  rfl

@[simp]
theorem perform_get (b : Builder) : perform get b = (.ok b, b) :=
  rfl

@[simp]
theorem perform_modify (f : Builder → Builder) (b : Builder) :
    perform (modify f) b = (.ok (), f b) :=
  rfl

@[simp]
theorem perform_bind (x : Step α) (f : α → Step β) (b : Builder) :
    perform (x >>= f) b =
      match perform x b with
      | (.ok a, b) => perform (f a) b
      | (.error fault, b) => (.error fault, b) := by
  change (match perform x b with
    | (r, b') => (ExceptT.bindCont f r).run b') = _
  rcases perform x b with ⟨_ | _, _⟩ <;> rfl

end

theorem perform_slotAt {i : Nat} {r : Record} (h : b.slots[i]? = some r) :
    perform (slotAt i) b = (.ok r, b) := by
  simp [slotAt, h]

/-! ### What a draft holds -/

/-- The builder with what a draft holds. -/
def ofDraft (d : Draft) : Builder where
  slots := d.slots.entries.zipIdx.map fun (e, i) => ⟨e.2, e.1, i⟩
  index := ⟨d.slots.keys.zipIdx, by rw [List.zipIdx_map_fst]; exact d.slots.nodup_keys⟩
  sites := d.sites.zipIdx.map fun (s, i) => ⟨s, i⟩
  literals := d.literals

theorem getElem?_slots_ofDraft {i : Nat} {r : Record} : (ofDraft d).slots[i]? = some r ↔
    d.ordinal? r.name = some i ∧ d.slots.get? r.name = some r.toSlot ∧ r.ordinal = i := by
  rw [← and_assoc, ← Draft.getElem?_entries, ofDraft, List.getElem?_map, List.getElem?_zipIdx,
    Option.map_map, Option.map_eq_some_iff]
  constructor
  · rintro ⟨e, he, rfl⟩
    exact ⟨he, Nat.zero_add i⟩
  · rintro ⟨he, rfl⟩
    exact ⟨_, he, by simp⟩

theorem get?_index_ofDraft (d : Draft) (n : String) : (ofDraft d).index.get? n = d.ordinal? n := by
  refine Option.ext fun i => ?_
  rw [Table.get?_eq_some_iff, ofDraft, List.mk_mem_zipIdx_iff_getElem?,
    Draft.ordinal?_eq_some_iff]

theorem length_slots_ofDraft (d : Draft) : (ofDraft d).slots.length = d.slots.size := by
  simp [ofDraft, Table.size]

/-- A name with a slot has an ordinal. -/
theorem exists_ordinal {slot : Slot} (h : d.slots.get? name = some slot) :
    ∃ i, d.ordinal? name = some i := by
  cases hordinal : d.ordinal? name with
  | some i => exact ⟨i, rfl⟩
  | none =>
    rw [Draft.ordinal?_eq_none_iff] at hordinal
    cases hordinal.symm.trans h

/-- A name with an ordinal has a slot. -/
theorem exists_slot {i : Nat} (h : d.ordinal? name = some i) :
    ∃ slot, d.slots.get? name = some slot := by
  cases hslot : d.slots.get? name with
  | some slot => exact ⟨slot, rfl⟩
  | none =>
    rw [← Draft.ordinal?_eq_none_iff] at hslot
    cases hslot.symm.trans h

/-- A slot that is registered comes last. -/
theorem perform_push (h : d.slots.get? name = none) (kind : SlotKind) (definitions : Definitions) :
    perform (push name kind definitions) (ofDraft d) = (.ok d.slots.size,
      ofDraft { d with slots := d.slots.insert name ⟨kind, definitions⟩ }) := by
  have hnew : name ∉ d.slots.keys := Table.get?_eq_none_iff.1 h
  have hunknown : name ∉ (ofDraft d).index.keys := by
    rw [← Table.get?_eq_none_iff, get?_index_ofDraft, Draft.ordinal?_eq_none_iff, h]
  simp only [push, perform_bind, perform_get, perform_modify, perform_pure, length_slots_ofDraft]
  have hslots : (ofDraft d).slots ++ [⟨⟨kind, definitions⟩, name, d.slots.size⟩] =
      (ofDraft { d with slots := d.slots.insert name ⟨kind, definitions⟩ }).slots := by
    simp [ofDraft, Table.entries_insert_of_not_mem _ hnew, List.zipIdx_append, Table.size]
  have hindex : (ofDraft d).index.insert name d.slots.size =
      (ofDraft { d with slots := d.slots.insert name ⟨kind, definitions⟩ }).index := by
    refine Table.ext ?_
    rw [Table.entries_insert_of_not_mem _ hunknown]
    simp [ofDraft, Table.keys_insert_of_not_mem _ hnew, List.zipIdx_append]
  rw [hslots, hindex]
  rfl

/-- A new name has the next ordinal. -/
theorem ordinal?_insert_new (h : d.slots.get? name = none) (slot : Slot)
    (literals : Table String String) :
    Draft.ordinal? { d with slots := d.slots.insert name slot, literals } name =
      some d.slots.size := by
  rw [Draft.ordinal?_eq_some_iff, Table.keys_insert_of_not_mem slot (Table.get?_eq_none_iff.1 h),
    ← Table.length_keys, List.getElem?_concat_length]

theorem keys_insert_known {i : Nat} (hi : d.ordinal? name = some i) (slot : Slot) :
    (d.slots.insert name slot).keys = d.slots.keys :=
  Table.keys_insert_of_mem slot (List.mem_of_getElem? (Draft.ordinal?_eq_some_iff.1 hi))

/-- A known name keeps its ordinal. -/
theorem ordinal?_insert_known {i : Nat} (hi : d.ordinal? name = some i) (slot : Slot)
    (literals : Table String String) (n : String) :
    Draft.ordinal? { d with slots := d.slots.insert name slot, literals } n = d.ordinal? n := by
  rw [Draft.ordinal?, Draft.ordinal?, Table.rank?, Table.rank?, keys_insert_known hi]

/-- Another slot under a known name takes the place of the first one. -/
theorem set_slots_ofDraft {i : Nat} (hi : d.ordinal? name = some i) (slot : Slot) :
    { ofDraft d with slots := (ofDraft d).slots.set i ⟨slot, name, i⟩ } =
      ofDraft { d with slots := d.slots.insert name slot } := by
  have hname : d.slots.keys[i]? = some name := Draft.ordinal?_eq_some_iff.1 hi
  have hlength : i < (ofDraft d).slots.length := by
    rw [length_slots_ofDraft, ← Table.length_keys]
    exact (List.getElem?_eq_some_iff.1 hname).1
  have hslots : (ofDraft d).slots.set i ⟨slot, name, i⟩ =
      (ofDraft { d with slots := d.slots.insert name slot }).slots := by
    refine List.ext_getElem? fun j => Option.ext fun r => ?_
    rw [List.getElem?_set, getElem?_slots_ofDraft, ordinal?_insert_known hi, Table.get?_insert]
    -- Only the record at the position of the name changes, and no other record has this name.
    by_cases hij : i = j
    · subst hij
      rw [if_pos rfl, if_pos hlength, Option.some.injEq]
      constructor
      · rintro rfl
        exact ⟨hi, if_pos rfl, rfl⟩
      · rintro ⟨hr, hslot, hnumber⟩
        obtain ⟨s, n, o⟩ := r
        obtain rfl : name = n :=
          Option.some.inj (hname.symm.trans (Draft.ordinal?_eq_some_iff.1 hr))
        rw [if_pos rfl] at hslot
        cases hslot
        cases hnumber
        rfl
    · rw [if_neg hij, getElem?_slots_ofDraft]
      refine and_congr_right fun hr => ?_
      have hne : r.name ≠ name := by
        intro hsame
        rw [hsame, hi] at hr
        exact hij (Option.some.inj hr)
      rw [if_neg hne]
  -- The index is that of the keys, which are the same.
  have hindex : (ofDraft d).index =
      (ofDraft { d with slots := d.slots.insert name slot }).index := by
    refine Table.ext ?_
    change d.slots.keys.zipIdx = (d.slots.insert name slot).keys.zipIdx
    rw [keys_insert_known hi]
  rw [hslots]
  change Builder.mk _ (ofDraft d).index _ _ = _
  rw [hindex]
  rfl

theorem slotAt_of_ordinal {i : Nat} {slot : Slot} (hi : d.ordinal? name = some i)
    (hslot : d.slots.get? name = some slot) :
    perform (slotAt i) (ofDraft d) = (.ok ⟨slot, name, i⟩, ofDraft d) :=
  perform_slotAt (getElem?_slots_ofDraft.2 ⟨hi, hslot, rfl⟩)

theorem perform_ordinalOf (d : Draft) (n : String) :
    perform (ordinalOf n) (ofDraft d) = (.ok (d.ordinal? n), ofDraft d) := by
  simp only [ordinalOf, perform_bind, perform_get, get?_index_ofDraft]
  cases hi : d.ordinal? n with
  | none => rfl
  | some i =>
    obtain ⟨slot, hslot⟩ := exists_slot hi
    simp only [perform_bind, slotAt_of_ordinal hi hslot, perform_pure]

/-- The text of a definition is noted. -/
theorem perform_note (d : Draft) (name : String) (definition : Definition) (isDefault : Bool) :
    perform (note name (if isDefault then none else definition.literalText?)) (ofDraft d) =
      (.ok (),
        ofDraft { d with literals := Draft.noteLiteral name definition isDefault d.literals }) := by
  unfold Draft.noteLiteral
  cases (if isDefault then none else definition.literalText?) with
  | none => rfl
  | some text => rfl

theorem merge?_eq (definition : Definition) (isDefault : Bool) (slot : Slot) :
    Draft.addTo? definition isDefault slot =
      (merge? definition isDefault slot).map (Slot.mk .value) := by
  obtain ⟨kind, definitions⟩ := slot
  cases kind <;> cases isDefault <;> cases definitions <;> rfl

/-- Only the slots of values take further definitions. -/
theorem kind_of_merge? {slot : Slot} {definitions : Definitions}
    (h : merge? definition isDefault slot = some definitions) : slot.kind = .value := by
  obtain ⟨kind, held⟩ := slot
  cases kind with
  | value => rfl
  | gate => cases held <;> cases isDefault <;> cases h

/-- An accepted definition has an ordinal. -/
theorem ordinal?_of_define {d' : Draft}
    (h : d.define name definition isDefault = .ok d') : ∃ i, d'.ordinal? name = some i := by
  obtain ⟨slot, -, rfl⟩ := Draft.of_define h
  exact exists_ordinal (Table.get?_insert_self d.slots name slot)

/-- A definition is accepted or refused by a builder just as by a draft. -/
theorem perform_define (d : Draft) (name : String) (definition : Definition) (isDefault : Bool) :
    perform (define name definition isDefault) (ofDraft d) =
      match d.define name definition isDefault with
      | .ok d' => (.ok ((d'.ordinal? name).getD 0), ofDraft d')
      | .error duplicate => (.error (.duplicate duplicate), ofDraft d) := by
  unfold define Draft.define
  simp only [perform_bind, perform_get, get?_index_ofDraft]
  cases hslot : d.slots.get? name with
  | none =>
    rw [Draft.ordinal?_eq_none_iff.2 hslot]
    dsimp only
    rw [perform_bind, perform_push hslot]
    dsimp only
    rw [perform_bind, perform_note]
    dsimp only
    rw [perform_pure, ordinal?_insert_new hslot]
    rfl
  | some slot =>
    obtain ⟨i, hi⟩ := exists_ordinal hslot
    simp only [hi, perform_bind, slotAt_of_ordinal hi hslot, merge?_eq]
    cases hmerge : merge? definition isDefault slot with
    -- The step fails before anything is changed.
    | none => rfl
    | some definitions =>
      have hset := set_slots_ofDraft hi ⟨slot.kind, definitions⟩
      rw [kind_of_merge? hmerge] at hset
      simp only [perform_bind, perform_modify, perform_pure, Option.map_some,
        kind_of_merge? hmerge]
      rw [hset, perform_note, ordinal?_insert_known hi, hi]
      rfl

/-- A condition gets the slot from a builder that it gets from a draft. -/
theorem perform_defineGate (d : Draft) (expr : Expr) (origin : String) :
    perform (defineGate expr origin) (ofDraft d) =
      (.ok (d.defineGate expr origin).2, ofDraft (d.defineGate expr origin).1) := by
  unfold defineGate
  cases hname : expr.asName? with
  | some n =>
    rw [Draft.defineGate_name hname]
    simp only [perform_bind, perform_ordinalOf, perform_pure]
  | none =>
    simp only [perform_bind, perform_ordinalOf]
    cases hordinal : d.ordinal? expr.text with
    | some i =>
      rw [Draft.defineGate_known hname hordinal]
      rfl
    | none =>
      rw [Draft.defineGate_new hname hordinal]
      simp only [perform_bind, perform_push (Draft.ordinal?_eq_none_iff.1 hordinal), perform_pure]
      rfl

/-- A condition has the ordinal of its name. -/
theorem condition_ofDraft (d : Draft) (expr : Expr) (origin : String) :
    (d.defineGate expr origin).2.name = expr.asName?.getD expr.text ∧
      (d.defineGate expr origin).2.ordinal =
        (ofDraft (d.defineGate expr origin).1).index.get? (d.defineGate expr origin).2.name := by
  rw [get?_index_ofDraft]
  cases hname : expr.asName? with
  | some n =>
    rw [Draft.defineGate_name hname]
    exact ⟨rfl, rfl⟩
  | none =>
    cases hordinal : d.ordinal? expr.text with
    | some i =>
      rw [Draft.defineGate_known hname hordinal]
      exact ⟨rfl, hordinal.symm⟩
    | none =>
      rw [Draft.defineGate_new hname hordinal]
      have hnew := Draft.ordinal?_eq_none_iff.1 hordinal
      exact ⟨rfl, (ordinal?_insert_new hnew (Draft.gateSlot expr origin) d.literals).symm⟩

/-- A site gets the next position. -/
theorem perform_addSite (d : Draft) (s : Site) :
    perform (addSite s) (ofDraft d) = (.ok d.sites.length, ofDraft (d.addSite s)) := by
  have hlength : (ofDraft d).sites.length = d.sites.length := by
    simp [ofDraft]
  have hsites : (ofDraft d).sites ++ [⟨s, d.sites.length⟩] = (ofDraft (d.addSite s)).sites := by
    simp [ofDraft, Draft.addSite, List.zipIdx_append]
  simp only [addSite, perform_bind, perform_get, perform_modify, perform_pure, hlength, hsites]
  rfl

/-! ### Series of registrations -/

/-- Register what is asked for, and go on with what the step leaves behind, also if it fails. -/
def register (b : Builder) : Registration → Builder
  | .binding name definition isDefault => (perform (define name definition isDefault) b).2
  | .condition expr origin => (perform (defineGate expr origin) b).2
  | .site s => (perform (addSite s) b).2

/-- The builder after a series of registrations. -/
def after (b : Builder) (rs : List Registration) : Builder :=
  rs.foldl register b

theorem register_ofDraft (d : Draft) (r : Registration) :
    (ofDraft d).register r = ofDraft (d.register r) := by
  cases r with
  | binding name definition isDefault =>
    rw [register, perform_define, Draft.register]
    cases d.define name definition isDefault <;> rfl
  | condition expr origin => rw [register, perform_defineGate, Draft.register]
  | site s => rw [register, perform_addSite, Draft.register]

theorem after_ofDraft (d : Draft) (rs : List Registration) :
    (ofDraft d).after rs = ofDraft (d.after rs) := by
  induction rs generalizing d with
  | nil => rfl
  | cons r rs ih =>
    rw [after, List.foldl_cons, register_ofDraft]
    exact ih (d.register r)

/-- Every builder holds what a draft holds after the same registrations. -/
theorem empty_after (rs : List Registration) :
    empty.after rs = ofDraft (Draft.empty.after rs) :=
  after_ofDraft .empty rs

/-- Numbers and index fit the slots and sites, and the slots of conditions hold what they are named
by. -/
structure WellFormed (b : Builder) : Prop where
  /-- The ordinal of a slot is its position. -/
  ordinal : ∀ (i : Nat) (r : Record), b.slots[i]? = some r → r.ordinal = i
  /-- The index leads from the names of the slots to their positions, and from no other name. -/
  index : ∀ name i, b.index.get? name = some i ↔ ∃ r, b.slots[i]? = some r ∧ r.name = name
  /-- The slot of a condition has one definition, which is proper and under no gate. -/
  gate : ∀ r ∈ b.slots, r.kind = .gate → ∃ expr origin, expr.asName? = none ∧
    r.name = expr.text ∧ r.definitions = .primary ⟨expr, .always, origin⟩
  /-- The number of a site is its position. -/
  site : ∀ (i : Nat) (p : Place), b.sites[i]? = some p → p.id = i

/-- What a builder holds, a later one holds too. -/
structure Keeps (b later : Builder) : Prop where
  /-- Slots stay in their places with their names, ordinals, kinds and definitions. -/
  slot : ∀ (i : Nat) (r : Record), b.slots[i]? = some r → ∃ r' : Record,
    later.slots[i]? = some r' ∧ r'.name = r.name ∧ r'.ordinal = r.ordinal ∧
      r.toSlot.Becomes r'.toSlot
  /-- Sites stay in their places. -/
  sites : b.sites <+: later.sites

theorem wellFormed_ofDraft (h : d.GatesHold) : (ofDraft d).WellFormed where
  ordinal i r hr := (getElem?_slots_ofDraft.1 hr).2.2
  index n i := by
    rw [get?_index_ofDraft]
    constructor
    · intro hi
      obtain ⟨slot, hslot⟩ := exists_slot hi
      exact ⟨⟨slot, n, i⟩, getElem?_slots_ofDraft.2 ⟨hi, hslot, rfl⟩, rfl⟩
    · rintro ⟨r, hr, rfl⟩
      exact (getElem?_slots_ofDraft.1 hr).1
  gate r hr hkind := by
    obtain ⟨i, hi⟩ := List.mem_iff_getElem?.1 hr
    obtain ⟨-, hslot, -⟩ := getElem?_slots_ofDraft.1 hi
    obtain ⟨expr, origin, hexpr, hname, hgate⟩ := h r.name r.toSlot hslot hkind
    exact ⟨expr, origin, hexpr, hname, congrArg Slot.definitions hgate⟩
  site i p hp := by
    rw [ofDraft, List.getElem?_map, List.getElem?_zipIdx, Option.map_map,
      Option.map_eq_some_iff] at hp
    obtain ⟨s, -, rfl⟩ := hp
    exact Nat.zero_add i

theorem keeps_ofDraft {later : Draft} (h : d.Keeps later) : (ofDraft d).Keeps (ofDraft later) where
  slot i r hr := by
    obtain ⟨hi, hslot, hordinal⟩ := getElem?_slots_ofDraft.1 hr
    obtain ⟨slot, hlater, hbecomes⟩ := h.slot r.name r.toSlot hslot
    exact ⟨⟨slot, r.name, i⟩, getElem?_slots_ofDraft.2 ⟨h.ordinal r.name i hi, hlater, rfl⟩, rfl,
      hordinal.symm, hbecomes⟩
  sites := by
    obtain ⟨more, hmore⟩ := h.sites
    rw [ofDraft, ofDraft, ← hmore, List.zipIdx_append, List.map_append]
    exact List.prefix_append ..

/-- A refused definition leaves all as it was, and is that of a name with such a definition or of a
condition. -/
theorem define_ofDraft_eq_error_iff {fault : Fault} {b : Builder} :
    perform (define name definition isDefault) (ofDraft d) = (.error fault, b) ↔
      b = ofDraft d ∧ ∃ r ∈ (ofDraft d).slots, r.name = name ∧
        (r.kind = .gate ∨ (r.toSlot.marked? isDefault).isSome = true) ∧
        fault = .duplicate ⟨name, r.active.origin, definition.origin⟩ := by
  rw [perform_define]
  constructor
  · intro h
    cases hdefine : d.define name definition isDefault with
    | ok d' =>
      rw [hdefine] at h
      cases h
    | error duplicate =>
      rw [hdefine] at h
      cases h
      obtain ⟨slot, hslot, hrefused, rfl⟩ := Draft.define_eq_error_iff.1 hdefine
      obtain ⟨i, hi⟩ := exists_ordinal hslot
      have hr : (ofDraft d).slots[i]? = some ⟨slot, name, i⟩ :=
        getElem?_slots_ofDraft.2 ⟨hi, hslot, rfl⟩
      exact ⟨rfl, _, List.mem_of_getElem? hr, rfl, hrefused, rfl⟩
  · rintro ⟨rfl, r, hr, rfl, hrefused, rfl⟩
    obtain ⟨i, hi⟩ := List.mem_iff_getElem?.1 hr
    obtain ⟨-, hslot, -⟩ := getElem?_slots_ofDraft.1 hi
    rw [Draft.define_eq_error_iff.2 ⟨r.toSlot, hslot, hrefused, rfl⟩]

/-- An accepted definition is in the slot of its name, the ordinal of which is the answer. -/
theorem of_define_ofDraft {i : Nat} {b : Builder}
    (h : perform (define name definition isDefault) (ofDraft d) = (.ok i, b)) :
    ∃ r : Record, b.slots[i]? = some r ∧ r.name = name ∧ r.kind = .value ∧
      r.toSlot.marked? isDefault = some definition := by
  rw [perform_define] at h
  cases hdefine : d.define name definition isDefault with
  | error duplicate =>
    rw [hdefine] at h
    cases h
  | ok d' =>
    rw [hdefine] at h
    cases h
    obtain ⟨slot, hkind, hslots, hdefinition, -⟩ := Draft.slots_define hdefine
    obtain ⟨i, hi⟩ := ordinal?_of_define hdefine
    rw [hi]
    refine ⟨⟨slot, name, i⟩, getElem?_slots_ofDraft.2 ⟨hi, ?_, rfl⟩, rfl, hkind, ?_⟩
    · rw [hslots, Table.get?_insert_self]
    · cases isDefault <;> exact hdefinition

/-- **Builders only grow, and refusals change nothing.** In a builder that has been made by any
series of registrations, of which some may have failed: slots have their positions as ordinals, the
index leads from just their names to their positions, and the slot of a condition has one proper
definition, under no gate; whatever else is registered, slots keep their places, names, ordinals,
kinds and definitions, and only a value slot may get the definition that it lacks; a definition is
refused exactly when its name has one with the same mark or is that of a condition, and then
slots, index, sites and texts are what they were; conditions and sites are never refused; and the
definition and the default of a name make the same builder in either order. -/
theorem registrations_keep (rs : List Registration) :
    let b := empty.after rs
    b.WellFormed ∧
    (∀ more, b.Keeps (b.after more)) ∧
    (∀ name definition isDefault,
      (∀ fault b', perform (define name definition isDefault) b = (.error fault, b') ↔
        b' = b ∧ ∃ r ∈ b.slots, r.name = name ∧
          (r.kind = .gate ∨ (r.toSlot.marked? isDefault).isSome = true) ∧
          fault = .duplicate ⟨name, r.active.origin, definition.origin⟩) ∧
      ∀ (i : Nat) (b' : Builder), perform (define name definition isDefault) b = (.ok i, b') →
        ∃ r : Record, b'.slots[i]? = some r ∧ r.name = name ∧ r.kind = .value ∧
          r.toSlot.marked? isDefault = some definition) ∧
    (∀ expr origin, ∃ c b', perform (defineGate expr origin) b = (.ok c, b') ∧
      c.name = expr.asName?.getD expr.text ∧ c.ordinal = b'.index.get? c.name) ∧
    (∀ s, ∃ b', perform (addSite s) b = (.ok b.sites.length, b') ∧
      b'.sites[b.sites.length]? = some ⟨s, b.sites.length⟩) ∧
    ∀ name definition fallback,
      (b.register (.binding name definition false)).register (.binding name fallback true) =
        (b.register (.binding name fallback true)).register (.binding name definition false) := by
  dsimp only
  rw [empty_after]
  have hempty : Draft.empty.GatesHold := fun n slot hslot => nomatch hslot
  refine ⟨wellFormed_ofDraft (hempty.after rs), ?_, ?_, ?_, ?_, ?_⟩
  · intro more
    rw [after_ofDraft]
    exact keeps_ofDraft (Draft.keeps_after _ more)
  · exact fun name definition isDefault =>
      ⟨fun fault b' => define_ofDraft_eq_error_iff, fun i b' => of_define_ofDraft⟩
  · exact fun expr origin =>
      ⟨_, _, perform_defineGate _ expr origin, condition_ofDraft _ expr origin⟩
  · exact fun s => ⟨_, rfl, List.getElem?_concat_length⟩
  · intro name definition fallback
    simp only [register_ofDraft, Draft.register_comm]

/-- A definition of `Env`, a condition, and a default of `Env` from another module. -/
def environment : List Registration :=
  [.binding "Env" ⟨.literal (.string "prod"), .always, "main"⟩ false,
    .condition (.isNull (.name "Env") true) "main",
    .binding "Env" ⟨.literal (.string "dev"), .always, "base"⟩ true]

/-- The default has joined the definition, which keeps ordinal and text; a second definition is
refused and changes nothing. -/
theorem environment_takes_default :
    ((empty.after environment).slots.map fun r => (r.name, r.ordinal, r.definitions)) =
      [("Env", 0, .both ⟨.literal (.string "prod"), .always, "main"⟩
          ⟨.literal (.string "dev"), .always, "base"⟩),
        ("Env IS NOT NULL", 1, .primary ⟨.isNull (.name "Env") true, .always, "main"⟩)] ∧
    (empty.after environment).literals.get? "Env" = some "prod" ∧
    perform (define "Env" ⟨.literal (.string "test"), .always, "late"⟩ false)
        (empty.after environment) =
      (.error (.duplicate ⟨"Env", "main", "late"⟩), empty.after environment) := by
  have hslots : ((empty.after environment).slots.map fun r => (r.name, r.ordinal, r.definitions)) =
      [("Env", 0, .both ⟨.literal (.string "prod"), .always, "main"⟩
          ⟨.literal (.string "dev"), .always, "base"⟩),
        ("Env IS NOT NULL", 1, .primary ⟨.isNull (.name "Env") true, .always, "main"⟩)] := by
    decide +kernel
  refine ⟨hslots, by decide +kernel, ?_⟩
  obtain ⟨r, hr, hheld⟩ := List.exists_of_mem_map (hslots ▸ List.mem_cons_self ..)
  obtain ⟨⟨kind, definitions⟩, name, ordinal⟩ := r
  cases hheld
  exact ((registrations_keep environment).2.2.1 "Env" _ false).1 _ _ |>.2
    ⟨rfl, _, hr, rfl, .inr rfl, rfl⟩

end Builder

end GatedRules
