import GatedRules.Proofs.ReferenceWalk
import GatedRules.Proofs.Spelling
import Mathlib.Logic.Relation

/-!
# Conditions and their slots

A condition that is not a bare name has a slot named by its canonical text. In every draft that
grows out of parsed modules (`Draft.Step`), two such conditions share a slot exactly when they are
the same expression, the slot of a condition holds the condition and nothing else from then on, and
no binding meets the slot of a condition (`Draft.gate_slots_exact`). All of it is one invariant,
`Draft.Separate`: every slot either is a value slot with a name that a module may bind, or holds the
condition that it is named by. The canonical text determines the expression, so the name of a slot
determines what is in it, and the text of a condition is never a name that a module may bind.

Conditions and bindings come from the texts of modules, which may hold any finite numbers. A number
with more digits than a double can hold is read as infinite, and its text is a word.

A walk over includes changes its draft by these steps only, however it ends (`Loader.grows_walk`).
So the slots of a compiled module are as exact (`Loader.gate_slots_of_compile`).
-/

namespace GatedRules

/-! ### What parsed modules consist of -/

/-- The expressions of a statement. -/
def Statement.expressions : Statement → List Expr
  | .binding _ expr _ _ => [expr]
  | .inclusion directive => directive.condition.toList

/-- The name that a statement binds. -/
def Statement.name? : Statement → Option String
  | .binding name .. => some name
  | .inclusion _ => none

/-- The numbers of an expression are finite. -/
def Expr.Finite (e : Expr) : Prop :=
  ∀ x, .literal (.number x) ∈ e.parts → x.isFinite = true

/-- A statement of a parsed module, the numbers of which are finite. -/
structure Statement.Parsed (s : Statement) : Prop where
  /-- The statement is one of a module that has been read. -/
  read : ∃ path source ss, Statement.parse path source = .ok ss ∧ s ∈ ss
  /-- Its numbers are finite. -/
  finite : ∀ e ∈ s.expressions, e.Finite

/-- A parsed expression, the numbers of which are finite. -/
structure Expr.Parsed (e : Expr) : Prop where
  /-- The expression has been read by itself, or it is one of a statement that has been read. -/
  read : (∃ path source, Expr.parse path source = .ok e) ∨
    ∃ path source ss, Statement.parse path source = .ok ss ∧ ∃ s ∈ ss, e ∈ s.expressions
  /-- Its numbers are finite. -/
  finite : e.Finite

theorem Statement.Parsed.expression {s : Statement} (h : s.Parsed) {e : Expr}
    (he : e ∈ s.expressions) : e.Parsed := by
  obtain ⟨path, source, ss, hparse, hs⟩ := h.read
  exact ⟨.inr ⟨path, source, ss, hparse, s, hs, he⟩, h.finite e he⟩

/-- A name that a module may bind: a word that is no keyword. -/
def IsName (n : String) : Prop :=
  Grammar.Name n ∧ Keyword.ofWord? n = none

namespace Grammar

/-- A terminal has been read from a text. -/
def Read (x : Terminal) : Prop :=
  ∃ c cs kind rest, lexeme c cs = .ok (kind, rest) ∧ terminal kind = x

theorem Read.isName {n : String} (h : Read (.plain (.ident n))) : IsName n := by
  obtain ⟨c, cs, kind, rest, hlexeme, hterminal⟩ := h
  obtain ⟨rfl, hkeyword⟩ := terminal_eq_plain.1 hterminal
  exact ⟨⟨c, start_of_lexeme hlexeme⟩, hkeyword⟩

theorem Read.readsBack {x : Float} (h : Read (.plain (.number x))) (hx : x.isFinite = true) :
    Decimal.ReadsBack x := by
  obtain ⟨c, cs, kind, rest, hlexeme, hterminal⟩ := h
  obtain ⟨rfl, -⟩ := terminal_eq_plain.1 hterminal
  exact readsBack_of_lexeme hlexeme hx

variable {q : Terminal → Prop}

/-- The name that a derived statement binds is a terminal of it, and so are the leaves of its
expressions. -/
theorem StatementTree.reads (tree : StatementTree) (line : Nat) (h : ∀ x ∈ tree.terminals, q x) :
    (∀ n ∈ (tree.value line).name?, q (.plain (.ident n))) ∧
      ∀ e ∈ (tree.value line).expressions, Leaves q e.parts := by
  cases tree with
  | binding name _ expr isDefault =>
    refine ⟨fun n hn => ?_, fun e he => ?_⟩
    · obtain rfl : name = n := Option.some.inj hn
      exact h _ (by simp [terminals])
    · obtain rfl : e = expr.value := by simpa [value, Statement.expressions] using he
      exact expr.leaves_value fun x hx => h x (by simp [terminals, hx])
  | inclusion raw target _ condition =>
    refine ⟨fun n hn => ?_, fun e he => ?_⟩
    · cases hn
    obtain ⟨t, rfl, rfl⟩ : ∃ t, condition = some t ∧ t.value = e := by
      simpa [value, Statement.expressions] using he
    exact t.leaves_value fun x hx => h x (by simp [terminals, conditionTerminals, hx])

theorem Derives.reads {trees : List StatementTree} {ts : List Token} {ss : List Statement}
    (hd : Derives trees ts ss) (h : ∀ x ∈ spelled ts, q x) : ∀ s ∈ ss,
    (∀ n ∈ s.name?, q (.plain (.ident n))) ∧ ∀ e ∈ s.expressions, Leaves q e.parts := by
  induction hd with
  | nil =>
    intro s hs
    cases hs
  | @cons tree trees t used rest ss htree _ ih =>
    rw [← List.cons_append, spelled_append] at h
    intro s hs
    rcases List.mem_cons.1 hs with rfl | hs
    · exact tree.reads _ fun x hx => h x (List.mem_append_left _ (htree ▸ hx))
    · exact ih (fun x hx => h x (List.mem_append_right _ hx)) s hs

/-- The names that parsed statements bind have been read, and so have the leaves of their
expressions. -/
theorem reads_of_parse {path source : String} {ss : List Statement}
    (h : Statement.parse path source = .ok ss) : ∀ s ∈ ss,
    (∀ n ∈ s.name?, Read (.plain (.ident n))) ∧ ∀ e ∈ s.expressions, Leaves Read e.parts := by
  unfold Statement.parse Parser.run at h
  obtain ⟨scanned, hscan, h⟩ := bind_eq_ok.1 h
  obtain ⟨read, trees, hok, htrees⟩ | ⟨stuck, herror, -⟩ :=
    Parser.statementsWithin_cases scanned.tokens.length scanned.tokens
  · rw [Parser.statements, hok] at h
    cases h
    refine htrees.reads fun x hx => ?_
    obtain ⟨token, htoken, rfl⟩ := List.mem_map.1 hx
    obtain ⟨c, cs, rest, hlexeme⟩ := lexeme_of_scan hscan token htoken
    exact ⟨c, cs, _, rest, hlexeme, rfl⟩
  · rw [Parser.statements, herror] at h
    cases h

end Grammar

theorem Statement.Parsed.isName {name : String} {expr : Expr} {isDefault : Bool} {line : Nat}
    (h : (Statement.binding name expr isDefault line).Parsed) : IsName name := by
  obtain ⟨path, source, ss, hparse, hs⟩ := h.read
  exact ((Grammar.reads_of_parse hparse _ hs).1 name rfl).isName

/-- A parsed expression consists of what can be read. -/
theorem Expr.Parsed.legible {e : Expr} (h : e.Parsed) : ∀ part ∈ e.parts, Grammar.Legible part := by
  have hleaf : Grammar.Leaves Grammar.Read e.parts := by
    obtain ⟨path, source, hparse⟩ | ⟨path, source, ss, hparse, s, hs, he⟩ := h.read
    · exact leaf_of_parse hparse
    · exact (Grammar.reads_of_parse hparse s hs).2 e he
  refine fun part hpart => ⟨?_, ?_, ?_⟩
  · rintro x rfl
    exact (hleaf _ hpart _ rfl).readsBack (h.finite x hpart)
  · rintro n rfl
    exact (hleaf _ hpart _ rfl).isName
  · rintro f args groups rfl
    exact (hleaf _ hpart _ rfl).isName

/-- Parsed expressions with the same canonical text are the same. -/
theorem Expr.Parsed.text_eq_iff {e e' : Expr} (h : e.Parsed) (h' : e'.Parsed) :
    e.text = e'.text ↔ e = e' :=
  ⟨Grammar.text_injective h.legible h'.legible, congrArg Expr.text⟩

/-- The canonical text of a parsed expression that is not a bare name is no name. -/
theorem Expr.Parsed.text_ne {e : Expr} (h : e.Parsed) (hname : e.asName? = none) {n : String}
    (hn : IsName n) : e.text ≠ n := by
  have hlegible : ∀ part ∈ (Expr.name n).parts, Grammar.Legible part := by
    intro part hpart
    obtain rfl : part = .name n := by simpa [parts] using hpart
    refine ⟨fun x hx => ?_, fun m hm => ?_, fun f args groups hf => ?_⟩
    · cases hx
    · cases hm
      exact hn
    · cases hf
  have htext : (Expr.name n).text = n := by
    rw [text, render, renderChars, id, String.ofList_toList]
  intro heq
  obtain rfl : e = .name n := Grammar.text_injective h.legible hlegible (heq.trans htext.symm)
  cases hname

/-- The default, or the proper definition. -/
def Slot.marked? (s : Slot) (isDefault : Bool) : Option Definition :=
  if isDefault then s.fallback? else s.primary?

namespace Draft

/-! ### How drafts grow -/

/-- One registration with what parsed modules hold. -/
inductive Step : Draft → Draft → Prop
  /-- A binding, which is accepted. -/
  | define {d d' : Draft} {name origin : String} {expr : Expr} {isDefault : Bool} {line : Nat}
    {gate : Gate} : (Statement.binding name expr isDefault line).Parsed →
    d.define name ⟨expr, gate, origin⟩ isDefault = .ok d' → Step d d'
  /-- A condition. -/
  | defineGate {d : Draft} {expr : Expr} {origin : String} : expr.Parsed →
    Step d (d.defineGate expr origin).1
  /-- A site. -/
  | addSite {d : Draft} {site : Site} : Step d (d.addSite site)

/-- A draft grows into another by some registrations. -/
abbrev Grows : Draft → Draft → Prop :=
  Relation.ReflTransGen Step

/-- The slot of a condition. -/
def gateSlot (expr : Expr) (origin : String) : Slot :=
  ⟨.gate, .primary ⟨expr, .always, origin⟩⟩

/-- Every slot is a value slot with a name that a module may bind, or holds the condition that it
is named by. -/
def Separate (d : Draft) : Prop :=
  ∀ n slot, d.slots.get? n = some slot → (slot.kind = .value ∧ IsName n) ∨
    ∃ expr origin, expr.Parsed ∧ expr.asName? = none ∧ n = expr.text ∧ slot = gateSlot expr origin

variable {d d' : Draft}

/-- Registering a binding changes at most the slot of its name, which is a value slot then. -/
theorem slots_define {name : String} {definition : Definition} {isDefault : Bool}
    (h : d.define name definition isDefault = .ok d') :
    ∃ slot, slot.kind = .value ∧ d'.slots = d.slots.insert name slot ∧
      (if isDefault then slot.fallback? else slot.primary?) = some definition ∧
      (if isDefault then slot.primary? else slot.fallback?) =
        (d.slots.get? name).bind fun old => if isDefault then old.primary? else old.fallback? := by
  obtain ⟨slot, ⟨hnone, rfl⟩ | ⟨⟨kind, definitions⟩, hsome, hadd⟩, rfl⟩ := of_define h
  · refine ⟨_, rfl, rfl, ?_, ?_⟩
    · cases isDefault <;> rfl
    · rw [hnone]
      cases isDefault <;> rfl
  · rw [hsome]
    cases kind with
    | gate => cases hadd
    | value =>
      obtain ⟨added, hadded, rfl⟩ := Option.map_eq_some_iff.1 hadd
      refine ⟨_, rfl, rfl, ?_⟩
      cases isDefault <;> cases definitions <;> cases hadded <;> exact ⟨rfl, rfl⟩

theorem addTo?_eq_none_iff {definition : Definition} {isDefault : Bool} {slot : Slot} :
    addTo? definition isDefault slot = none ↔
      slot.kind = .gate ∨ (slot.marked? isDefault).isSome = true := by
  obtain ⟨kind, definitions⟩ := slot
  cases kind with
  | gate => simp [addTo?]
  | value =>
    cases isDefault <;> cases definitions <;>
      simp [addTo?, Definitions.add?, Slot.marked?, Slot.fallback?, Slot.primary?,
        Definitions.fallback?, Definitions.primary?]

/-- A binding is refused exactly when its name takes no further definition with its mark. -/
theorem define_eq_error_iff {name : String} {definition : Definition} {isDefault : Bool}
    {duplicate : Duplicate} :
    d.define name definition isDefault = .error duplicate ↔
      ∃ slot, d.slots.get? name = some slot ∧
        (slot.kind = .gate ∨ (slot.marked? isDefault).isSome = true) ∧
        duplicate = ⟨name, slot.active.origin, definition.origin⟩ := by
  unfold define
  cases hslot : d.slots.get? name with
  | none => simp
  | some slot =>
    dsimp only
    cases hadd : addTo? definition isDefault slot with
    | none =>
      have hrefused := addTo?_eq_none_iff.1 hadd
      refine ⟨fun h => ⟨slot, rfl, hrefused, (Except.error.inj h).symm⟩, ?_⟩
      rintro ⟨_, ⟨⟩, -, rfl⟩
      rfl
    | some added =>
      constructor
      · intro h
        cases h
      · rintro ⟨_, ⟨⟩, hrefused, -⟩
        rw [addTo?_eq_none_iff.2 hrefused] at hadd
        cases hadd

/-- A binding is refused exactly when there is a binding of the name with the same mark, provided
that the name has no condition. -/
theorem define_error_iff {name : String} {definition : Definition} {isDefault : Bool}
    (hvalue : ∀ slot, d.slots.get? name = some slot → slot.kind = .value) :
    (∃ duplicate, d.define name definition isDefault = .error duplicate) ↔
      ∃ slot, d.slots.get? name = some slot ∧
        (if isDefault then slot.fallback? else slot.primary?).isSome = true := by
  constructor
  · rintro ⟨duplicate, h⟩
    obtain ⟨slot, hslot, hgate | hsome, -⟩ := define_eq_error_iff.1 h
    · cases (hvalue slot hslot).symm.trans hgate
    · exact ⟨slot, hslot, hsome⟩
  · rintro ⟨slot, hslot, hsome⟩
    exact ⟨_, define_eq_error_iff.2 ⟨slot, hslot, .inr hsome, rfl⟩⟩

/-- A condition that has a slot leaves the draft as it is. -/
theorem defineGate_known {expr : Expr} {origin : String} {i : Nat} (hname : expr.asName? = none)
    (h : d.ordinal? expr.text = some i) :
    d.defineGate expr origin = (d, ⟨expr.text, some i⟩) := by
  unfold defineGate
  rw [hname]
  dsimp only
  rw [h]

/-- A condition that has no slot gets one. -/
theorem defineGate_new {expr : Expr} {origin : String} (hname : expr.asName? = none)
    (h : d.ordinal? expr.text = none) :
    d.defineGate expr origin =
      ({ d with slots := d.slots.insert expr.text (gateSlot expr origin) },
        ⟨expr.text, some d.slots.size⟩) := by
  unfold defineGate
  rw [hname]
  dsimp only
  rw [h]
  rfl

theorem defineGate_name {expr : Expr} {origin n : String} (hname : expr.asName? = some n) :
    d.defineGate expr origin = (d, ⟨n, d.ordinal? n⟩) := by
  unfold defineGate
  rw [hname]

theorem ordinal?_eq_none_iff {n : String} : d.ordinal? n = none ↔ d.slots.get? n = none := by
  rw [ordinal?, Table.rank?, List.idxOf?_eq_none_iff, Table.get?_eq_none_iff]

/-! ### The invariant -/

/-- A step keeps the slots of names and of conditions apart. -/
theorem Separate.step (h : d.Separate) (hstep : Step d d') : d'.Separate := by
  intro n slot hslot
  cases hstep with
  | define hparsed hdefine =>
    obtain ⟨added, hvalue, hslots, -⟩ := slots_define hdefine
    rw [hslots, Table.get?_insert] at hslot
    split at hslot
    · rename_i hn
      cases hslot
      exact .inl ⟨hvalue, hn ▸ hparsed.isName⟩
    · exact h n slot hslot
  | @defineGate expr origin hparsed =>
    cases hname : expr.asName? with
    | some m =>
      rw [defineGate_name hname] at hslot
      exact h n slot hslot
    | none =>
      cases hordinal : d.ordinal? expr.text with
      | some i =>
        rw [defineGate_known hname hordinal] at hslot
        exact h n slot hslot
      | none =>
        rw [defineGate_new hname hordinal, Table.get?_insert] at hslot
        split at hslot
        · rename_i hn
          cases hslot
          exact .inr ⟨expr, origin, hparsed, hname, hn, rfl⟩
        · exact h n slot hslot
  | addSite => exact h n slot hslot

theorem separate_empty : empty.Separate := by
  intro n slot hslot
  cases hslot

theorem Separate.grows (h : d.Separate) (hgrows : Grows d d') : d'.Separate := by
  induction hgrows with
  | refl => exact h
  | tail _ hstep ih => exact ih.step hstep

/-- The slot of a condition holds the condition. -/
theorem Separate.gate (h : d.Separate) {expr : Expr} (hparsed : expr.Parsed)
    (hname : expr.asName? = none) {slot : Slot} (hslot : d.slots.get? expr.text = some slot) :
    ∃ origin, slot = gateSlot expr origin := by
  obtain ⟨-, hisName⟩ | ⟨expr', origin, hparsed', -, htext, rfl⟩ := h _ _ hslot
  · exact absurd rfl (hparsed.text_ne hname hisName)
  · obtain rfl := (hparsed.text_eq_iff hparsed').1 htext
    exact ⟨origin, rfl⟩

/-- The slot of a name that a module may bind is a value slot. -/
theorem Separate.value (h : d.Separate) {n : String} (hn : IsName n) {slot : Slot}
    (hslot : d.slots.get? n = some slot) : slot.kind = .value := by
  obtain ⟨hvalue, -⟩ | ⟨expr, origin, hparsed, hname, htext, -⟩ := h _ _ hslot
  · exact hvalue
  · exact absurd htext.symm (hparsed.text_ne hname hn)

/-! ### What stays -/

/-- A key keeps its position when something is held for a key. -/
theorem rank?_insert {t : Table String Slot} {n m : String} {slot : Slot} {i : Nat}
    (h : t.rank? n = some i) : (t.insert m slot).rank? n = some i := by
  unfold Table.rank? at h ⊢
  by_cases hm : m ∈ t.keys
  · rwa [Table.keys_insert_of_mem slot hm]
  · obtain ⟨hi, hn, hfirst⟩ := List.idxOf?_eq_some_iff.1 h
    have hlt : i < (t.keys ++ [m]).length := by
      rw [List.length_append]
      omega
    rw [Table.keys_insert_of_not_mem slot hm, List.idxOf?_eq_some_iff]
    refine ⟨hlt, (List.getElem_append_left hi).trans hn, fun j hj => ?_⟩
    rw [List.getElem_append_left (Nat.lt_trans hj hi)]
    exact hfirst j hj

/-- A name keeps its ordinal. -/
theorem Step.ordinal (hstep : Step d d') {n : String} {i : Nat} (h : d.ordinal? n = some i) :
    d'.ordinal? n = some i := by
  cases hstep with
  | define _ hdefine =>
    obtain ⟨slot, -, hslots, -⟩ := slots_define hdefine
    rw [ordinal?, hslots]
    exact rank?_insert h
  | @defineGate expr origin _ =>
    cases hname : expr.asName? with
    | some m => rwa [defineGate_name hname]
    | none =>
      cases hordinal : d.ordinal? expr.text with
      | some j => rwa [defineGate_known hname hordinal]
      | none =>
        rw [defineGate_new hname hordinal]
        exact rank?_insert h
  | addSite => exact h

/-- The slot of a condition stays as it is. -/
theorem Step.gate (hstep : Step d d') {expr : Expr} {origin : String} (hparsed : expr.Parsed)
    (hname : expr.asName? = none) (h : d.slots.get? expr.text = some (gateSlot expr origin)) :
    d'.slots.get? expr.text = some (gateSlot expr origin) := by
  cases hstep with
  | define hbinding hdefine =>
    obtain ⟨slot, -, hslots, -⟩ := slots_define hdefine
    rwa [hslots, Table.get?_insert_of_ne _ _ (hparsed.text_ne hname hbinding.isName)]
  | @defineGate expr' origin' hparsed' =>
    cases hname' : expr'.asName? with
    | some m => rwa [defineGate_name hname']
    | none =>
      cases hordinal : d.ordinal? expr'.text with
      | some j => rwa [defineGate_known hname' hordinal]
      | none =>
        -- The condition is new, so it is not the one that has a slot already.
        have hne : expr.text ≠ expr'.text := by
          intro heq
          rw [ordinal?_eq_none_iff, ← heq, h] at hordinal
          cases hordinal
        rwa [defineGate_new hname' hordinal, Table.get?_insert_of_ne _ _ hne]
  | addSite => exact h

/-- Registering a condition leads to its slot, which has the ordinal that the condition is given. -/
theorem Separate.defineGate (h : d.Separate) {expr : Expr} (origin : String)
    (hparsed : expr.Parsed) (hname : expr.asName? = none) :
    ∃ first i, (d.defineGate expr origin).2 = ⟨expr.text, some i⟩ ∧
      (d.defineGate expr origin).1.slots.get? expr.text = some (gateSlot expr first) ∧
      (d.defineGate expr origin).1.ordinal? expr.text = some i := by
  cases hordinal : d.ordinal? expr.text with
  | some i =>
    rw [defineGate_known hname hordinal]
    cases hslot : d.slots.get? expr.text with
    | none =>
      rw [ordinal?_eq_none_iff.2 hslot] at hordinal
      cases hordinal
    | some slot =>
      obtain ⟨first, rfl⟩ := h.gate hparsed hname hslot
      exact ⟨first, i, rfl, rfl, hordinal⟩
  | none =>
    have hnew : expr.text ∉ d.slots.keys :=
      Table.get?_eq_none_iff.1 (ordinal?_eq_none_iff.1 hordinal)
    rw [defineGate_new hname hordinal]
    refine ⟨origin, d.slots.size, rfl, Table.get?_insert_self _ _ _, ?_⟩
    rw [ordinal?, Table.rank?, Table.keys_insert_of_not_mem _ hnew, Occurrences.idxOf?_concat hnew,
      Table.length_keys]

/-- Two conditions with the same ordinal have the same name. -/
theorem eq_of_ordinal {n m : String} {i : Nat} (hn : d.ordinal? n = some i)
    (hm : d.ordinal? m = some i) : n = m := by
  obtain ⟨_, hn, _⟩ := List.idxOf?_eq_some_iff.1 hn
  obtain ⟨_, hm, _⟩ := List.idxOf?_eq_some_iff.1 hm
  exact hn.symm.trans hm

/-- What has been registered for a condition stays while the draft grows. -/
theorem gate_of_grows {expr : Expr} {first : String} {i : Nat} (hparsed : expr.Parsed)
    (hname : expr.asName? = none) (hslot : d.slots.get? expr.text = some (gateSlot expr first))
    (hordinal : d.ordinal? expr.text = some i) (hgrows : Grows d d') :
    d'.slots.get? expr.text = some (gateSlot expr first) ∧ d'.ordinal? expr.text = some i := by
  induction hgrows with
  | refl => exact ⟨hslot, hordinal⟩
  | tail _ hstep ih => exact ⟨hstep.gate hparsed hname ih.1, hstep.ordinal ih.2⟩

/-- **Gate slots are exact.** In a draft that has grown out of parsed modules: canonical texts are
the same exactly when the expressions are; a condition has a slot of its own, which holds it under
no gate and keeps it while the draft grows, and which it shares with no other condition; and a
binding meets value slots only, so that it is refused exactly when the name has a binding with the
same mark, and otherwise becomes part of a value slot and changes no other. -/
theorem gate_slots_exact {d : Draft} (hd : Grows .empty d) :
    (∀ e e' : Expr, e.Parsed → e'.Parsed → (e.text = e'.text ↔ e = e')) ∧
    (∀ e origin, e.Parsed → e.asName? = none →
      ∃ first i, (d.defineGate e origin).2 = ⟨e.text, some i⟩ ∧
        ∀ later, Grows (d.defineGate e origin).1 later →
          later.slots.get? e.text = some ⟨.gate, .primary ⟨e, .always, first⟩⟩ ∧
          later.ordinal? e.text = some i ∧
          ∀ e' origin', e'.Parsed → e'.asName? = none →
            ((later.defineGate e' origin').2.ordinal = some i ↔ e' = e)) ∧
    ∀ name expr isDefault line gate origin,
      (Statement.binding name expr isDefault line).Parsed →
      (∀ slot, d.slots.get? name = some slot → slot.kind = .value) ∧
      ((∃ duplicate, d.define name ⟨expr, gate, origin⟩ isDefault = .error duplicate) ↔
        ∃ slot, d.slots.get? name = some slot ∧
          (if isDefault then slot.fallback? else slot.primary?).isSome = true) ∧
      ∀ d', d.define name ⟨expr, gate, origin⟩ isDefault = .ok d' →
        ∃ slot, slot.kind = .value ∧ d'.slots = d.slots.insert name slot ∧
          (if isDefault then slot.fallback? else slot.primary?) = some ⟨expr, gate, origin⟩ ∧
          (if isDefault then slot.primary? else slot.fallback?) =
            (d.slots.get? name).bind fun old =>
              if isDefault then old.primary? else old.fallback? := by
  have hsep : d.Separate := separate_empty.grows hd
  refine ⟨fun e e' he he' => he.text_eq_iff he', fun e origin hparsed hname => ?_,
    fun name expr isDefault line gate origin hparsed => ?_⟩
  · obtain ⟨first, i, hcondition, hslot, hordinal⟩ := hsep.defineGate origin hparsed hname
    have hsep' : (d.defineGate e origin).1.Separate := hsep.step (.defineGate hparsed)
    refine ⟨first, i, hcondition, fun later hlater => ?_⟩
    obtain ⟨hslot', hordinal'⟩ := gate_of_grows hparsed hname hslot hordinal hlater
    refine ⟨hslot', hordinal', fun e' origin' hparsed' hname' => ⟨fun hshared => ?_, ?_⟩⟩
    · obtain ⟨-, j, hcondition', -, hj⟩ :=
        (hsep'.grows hlater).defineGate origin' hparsed' hname'
      have hi : (later.defineGate e' origin').1.ordinal? e.text = some i :=
        Step.ordinal (.defineGate hparsed') hordinal'
      obtain rfl : j = i := by
        rw [hcondition'] at hshared
        exact Option.some.inj hshared
      exact (hparsed'.text_eq_iff hparsed).1 (eq_of_ordinal hj hi)
    · rintro rfl
      rw [defineGate_known hname' hordinal']
  · have hvalue : ∀ slot, d.slots.get? name = some slot → slot.kind = .value :=
      fun slot hslot => hsep.value hparsed.isName hslot
    exact ⟨hvalue, define_error_iff hvalue, fun d' hdefine => slots_define hdefine⟩

/-- A condition on an age. -/
def ofAge : Expr :=
  .binary .gt (.name "age") (.literal (.number 17))

/-- A binding and then a condition on it, which have been read from one module. -/
theorem ofAge_slot_exact : ∃ d, Grows .empty d ∧ d.slots.keys = ["age"] ∧
    ∃ first i, (d.defineGate ofAge "main").2 = ⟨"age>17", some i⟩ ∧
      (d.defineGate ofAge "main").1.slots.get? "age>17" =
        some ⟨.gate, .primary ⟨ofAge, .always, first⟩⟩ := by
  have hparse : (Statement.parse "main" "LET age := 1; INCLUDE \"a\" WHERE age > 17;").toOption =
      some [.binding "age" (.literal (.number 1)) false 1,
        .inclusion ⟨.literal "a", some ofAge, 1⟩] := by
    decide +kernel
  have hread := eq_ok_of_toOption hparse
  have hfinite : ∀ y : Float, y.isFinite = true → ∀ x, y = x → x.isFinite = true := by
    rintro y hy _ rfl
    exact hy
  have hbinding : (Statement.binding "age" (.literal (.number 1)) false 1).Parsed := by
    refine ⟨⟨_, _, _, hread, by simp⟩, fun e he x hx => hfinite 1 (by decide +kernel) x ?_⟩
    obtain rfl : e = .literal (.number 1) := by simpa [Statement.expressions] using he
    simpa [Expr.parts, eq_comm] using hx
  have hofAge : ofAge.Parsed := by
    refine ⟨.inr ⟨_, _, _, hread, _, List.mem_cons_of_mem _ (List.mem_cons_self ..), ?_⟩,
      fun x hx => hfinite 17 (by decide +kernel) x ?_⟩
    · simp [Statement.expressions]
    · simpa [ofAge, Expr.parts, eq_comm] using hx
  have htext : ofAge.text = "age>17" := by decide +kernel
  have hdefine : empty.define "age" ⟨.literal (.number 1), .always, "main"⟩ false = .ok
      ⟨.ofList [("age", ⟨.value, .primary ⟨.literal (.number 1), .always, "main"⟩⟩)], [],
        .ofList [("age", "1")]⟩ := by
    rfl
  have hgrows := Relation.ReflTransGen.single (Step.define hbinding hdefine)
  obtain ⟨first, i, hcondition, hstays⟩ := (gate_slots_exact hgrows).2.1 ofAge "main" hofAge rfl
  rw [htext] at hcondition hstays
  exact ⟨_, hgrows, rfl, first, i, hcondition, (hstays _ .refl).1⟩

end Draft

/-! ### Walks -/

/-- The numbers of the modules that a loader gives are finite. -/
def Loader.Finite (loader : Loader) : Prop :=
  ∀ path source ss, loader.fetch path = .ok source → Statement.parse path source = .ok ss →
    ∀ s ∈ ss, ∀ e ∈ s.expressions, e.Finite

namespace Walk

variable {α β : Type} {loader : Loader}

/-- What a walk has found comes out of parsed modules. -/
structure Grown (w : Walk) : Prop where
  /-- The draft has grown by steps. -/
  draft : Draft.Grows .empty w.draft
  /-- The statements have been parsed. -/
  parsed : ∀ path ss, w.modules.get? path = some ss → ∀ s ∈ ss, s.Parsed

/-- However a step of a walk ends, what has been found comes out of parsed modules then; and if it
ends well, its result has a property. -/
def Keeps (q : α → Prop) (x : WalkM α) (w : Walk) : Prop :=
  (ExceptT.run x w).2.Grown ∧ ∀ a, (ExceptT.run x w).1 = .ok a → q a

section

variable {q : α → Prop} {r : β → Prop} {w : Walk}

theorem keeps_pure {a : α} (hw : w.Grown) (ha : q a) : Keeps q (pure a) w :=
  ⟨hw, fun _ hb => Except.ok.inj hb ▸ ha⟩

theorem keeps_throw (hw : w.Grown) (error : CompileError) : Keeps q (throw error) w :=
  ⟨hw, nofun⟩

theorem keeps_bind {x : WalkM α} {f : α → WalkM β} (hx : Keeps q x w)
    (hf : ∀ a w', w'.Grown → q a → Keeps r (f a) w') : Keeps r (x >>= f) w := by
  have hrun := run_bind x f w
  obtain ⟨hgrown, hresult⟩ := hx
  rcases hsplit : ExceptT.run x w with ⟨error | a, w'⟩ <;> rw [hsplit] at hrun hgrown hresult
  · exact ⟨hrun ▸ hgrown, fun b hb => by rw [hrun] at hb; cases hb⟩
  · rw [Keeps, hrun]
    exact hf a w' hgrown (hresult a rfl)

theorem keeps_get {f : Walk → WalkM β} (h : Keeps r (f w) w) : Keeps r (get >>= f) w := by
  rwa [Keeps, run_bind]

theorem keeps_modify {g : Walk → Walk} {f : Unit → WalkM β} (h : Keeps r (f ()) (g w)) :
    Keeps r (modify g >>= f) w := by
  rwa [Keeps, run_bind]

end

section

variable {w : Walk} {origin : String} {gate : Gate}

/-- The statements that are loaded have been parsed. -/
theorem keeps_load (hloader : loader.Finite) (hw : w.Grown) (path : String)
    (includedFrom : Option String) :
    Keeps (fun ss => ∀ s ∈ ss, s.Parsed) (load loader path includedFrom) w := by
  unfold load
  refine keeps_get ?_
  cases hm : w.modules.get? path with
  | some ss => exact keeps_pure hw (hw.parsed path ss hm)
  | none =>
    have hasked : (Walk.mk w.draft w.modules w.fetched (w.asked ++ [path])).Grown :=
      ⟨hw.draft, hw.parsed⟩
    refine keeps_modify ?_
    split
    · exact keeps_throw hasked _
    · exact keeps_throw hasked _
    rename_i source hfetch
    have hfetched : (Walk.mk w.draft w.modules (w.fetched ++ [(path, source)])
        (w.asked ++ [path])).Grown :=
      ⟨hw.draft, hw.parsed⟩
    refine keeps_modify ?_
    cases hparse : Statement.parse path source with
    | error error => exact keeps_throw hfetched _
    | ok ss =>
      have hss : ∀ s ∈ ss, s.Parsed := fun s hs =>
        ⟨⟨path, source, ss, hparse, hs⟩, hloader path source ss hfetch hparse s hs⟩
      refine keeps_modify (keeps_pure ⟨hw.draft, fun path' ss' hss' => ?_⟩ hss)
      dsimp only at hss'
      rw [Table.get?_insert] at hss'
      split at hss'
      · cases hss'
        exact hss
      · exact hw.parsed path' ss' hss'

/-- A binding of a parsed module is a step of the draft. -/
theorem keeps_define (hw : w.Grown) {name : String} {expr : Expr} {isDefault : Bool} {line : Nat}
    (hparsed : (Statement.binding name expr isDefault line).Parsed) :
    Keeps (fun _ => True) (define origin gate name expr isDefault) w := by
  unfold define
  refine keeps_get ?_
  split
  · exact keeps_throw hw _
  · rename_i draft hdefine
    exact ⟨⟨hw.draft.tail (.define hparsed hdefine), hw.parsed⟩, fun _ _ => trivial⟩

/-- A condition of a parsed module is a step of the draft. -/
theorem keeps_conditionGate (hw : w.Grown) {condition : Option Expr}
    (hparsed : ∀ e ∈ condition, e.Parsed) :
    Keeps (fun _ => True) (conditionGate origin condition) w := by
  cases condition with
  | none => exact keeps_pure hw trivial
  | some expr =>
    refine keeps_get (keeps_modify (keeps_pure ⟨?_, hw.parsed⟩ trivial))
    exact hw.draft.tail (.defineGate (hparsed expr rfl))

theorem keeps_take {enter : String → Gate → WalkM Unit} (hw : w.Grown)
    (henter : ∀ path inner w, w.Grown → Keeps (fun _ => True) (enter path inner) w) {s : Statement}
    (hparsed : s.Parsed) : Keeps (fun _ => True) (take origin gate enter s) w := by
  cases s with
  | binding name expr isDefault line => exact keeps_define hw hparsed
  | inclusion directive =>
    refine keeps_get ?_
    split
    · rename_i path _
      have hcondition : ∀ e ∈ directive.condition, e.Parsed := fun e he =>
        hparsed.expression (by simpa [Statement.expressions] using he)
      exact keeps_bind (keeps_conditionGate hw hcondition) fun inner w' hw' _ =>
        henter path _ w' hw'
    · split
      · exact keeps_throw hw _
      · exact ⟨⟨hw.draft.tail .addSite, hw.parsed⟩, fun _ _ => trivial⟩

theorem keeps_forM {enter : String → Gate → WalkM Unit} (hw : w.Grown)
    (henter : ∀ path inner w, w.Grown → Keeps (fun _ => True) (enter path inner) w)
    {ss : List Statement} (hparsed : ∀ s ∈ ss, s.Parsed) :
    Keeps (fun _ => True) (ss.forM (take origin gate enter)) w := by
  induction ss generalizing w with
  | nil => exact keeps_pure hw trivial
  | cons s ss ih =>
    refine keeps_bind (keeps_take hw henter (hparsed s (List.mem_cons_self ..))) ?_
    exact fun _ w' hw' _ => ih hw' fun s hs => hparsed s (List.mem_cons_of_mem _ hs)

end

/-- A walk over the modules of a loader grows its draft by steps only. -/
theorem keeps_resolve (hloader : loader.Finite) {n : Nat} {path : String} {gate : Gate}
    {chain : List String} {includedFrom : Option String} {w : Walk} (hw : w.Grown) :
    Keeps (fun _ => True) (resolve loader n path gate chain includedFrom) w := by
  induction n generalizing path gate chain includedFrom w with
  | zero => exact keeps_throw hw _
  | succ n ih =>
    rw [resolve]
    split
    · exact keeps_throw hw _
    · exact keeps_bind (keeps_load hloader hw path includedFrom) fun ss w' hw' hss =>
        keeps_forM hw' (fun _ _ _ hw => ih hw) hss

end Walk

/-- Whatever a walk from a module finds, and however it ends, its draft has grown by steps. -/
theorem Loader.grows_walk {loader : Loader} (hloader : loader.Finite) (root : String) :
    Draft.Grows .empty (loader.walk root).2.draft := by
  have hstart : Walk.start.Grown := ⟨.refl, fun path ss h => by cases h⟩
  exact (Walk.keeps_resolve hloader hstart).1.draft

/-- **The gate slots of a compiled module are exact.** If the numbers of all modules are finite,
then a value slot has a name that a module may bind, and a gate slot holds one condition and nothing
else: its name is the text of this condition, and of no other expression that can be read. -/
theorem Loader.gate_slots_of_compile {loader : Loader} (hloader : loader.Finite) {path : String}
    {c : Compiled} (h : loader.compile path = .ok c) {name : String} {slot : Slot}
    (hslot : c.graph.slot? name = some slot) :
    (slot.kind = .value → IsName name) ∧
    (slot.kind = .gate → ∃ e origin, slot = Draft.gateSlot e origin ∧ e.Parsed ∧
      e.asName? = none ∧ ∀ e' : Expr, e'.Parsed → (e'.text = name ↔ e' = e)) := by
  obtain ⟨u, w, hwalk, hbuild, -, -⟩ := walk_of_compile h
  have hgrows := Loader.grows_walk hloader (Path.canonical path)
  rw [hwalk] at hgrows
  have hsep : w.draft.Separate := Draft.separate_empty.grows hgrows
  obtain ⟨-, -, hslots, -, -⟩ := Draft.of_build hbuild
  rw [Graph.slot?, hslots] at hslot
  obtain ⟨hvalue, hname⟩ | ⟨e, origin, hparsed, hname, rfl, rfl⟩ := hsep name slot hslot
  · refine ⟨fun _ => hname, fun hgate => ?_⟩
    rw [hvalue] at hgate
    cases hgate
  · refine ⟨fun hvalue => ?_, fun _ => ?_⟩
    · cases hvalue
    · exact ⟨e, origin, rfl, hparsed, hname, fun e' he' => he'.text_eq_iff hparsed⟩

end GatedRules
