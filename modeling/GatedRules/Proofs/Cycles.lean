import GatedRules.Proofs.Acyclic
import GatedRules.Slot.Draft
import Mathlib.Data.List.Chain
import Mathlib.Logic.Relation

/-!
# Cycles of dependencies

A draft has a graph exactly when no slot depends on itself, directly or through others, and
otherwise the answer names a cycle (`Draft.build_decides_cycles`). The relation is spelled out as
`Dependency.Depends`: one slot has a definition, proper or default, whose expression mentions the
other slot or whose gate names it. What makes a list of names a cycle is `Dependency.IsCycle`.

That a search without an error leaves no cycle is a matter of ranks (`exists_rank_of_findCycle`).
That an error names a cycle is a matter of the path: the slots in progress are distinct, and each
depends on the next (`InProgress`). So when the last of them depends on one that is in progress
already, the path from there on is a cycle (`InProgress.isCycle`).
-/

namespace GatedRules

namespace Dependency

variable {slots : Table String Slot}

/-- One slot has a definition, proper or default, whose expression mentions another slot or whose
gate names it. -/
def Depends (slots : Table String Slot) (a b : String) : Prop :=
  ∃ slot definition, slots.get? a = some slot ∧
    (slot.primary? = some definition ∨ slot.fallback? = some definition) ∧
    (b ∈ definition.expr.references ∨ b ∈ definition.gate.names) ∧ b ∈ slots.keys

/-- A cycle of slots that depend on each other, from one of them back to it. -/
structure IsCycle (slots : Table String Slot) (cycle : List String) : Prop where
  /-- There is more than the slot to which the cycle comes back. -/
  two_le : 2 ≤ cycle.length
  /-- The cycle ends where it starts. -/
  closed : cycle.head? = cycle.getLast?
  /-- No other slot comes twice. -/
  nodup : cycle.dropLast.Nodup
  /-- Every slot depends on the next. -/
  chain : cycle.IsChain (Depends slots)

/-! ### The relation and the search -/

theorem mem_toList_iff {definitions : Definitions} {definition : Definition} :
    definition ∈ definitions.toList ↔
      definitions.primary? = some definition ∨ definitions.fallback? = some definition := by
  cases definitions <;>
    simp [Definitions.toList, Definitions.primary?, Definitions.fallback?, eq_comm]

/-- A slot has a definition, proper or default, whose expression mentions a name or whose gate names
it. The name may be that of a slot or that of an input. -/
def Refers (slots : Table String Slot) (a b : String) : Prop :=
  ∃ slot definition, slots.get? a = some slot ∧
    (slot.primary? = some definition ∨ slot.fallback? = some definition) ∧
    (b ∈ definition.expr.references ∨ b ∈ definition.gate.names)

/-- What a name depends on is what its definitions refer to. -/
theorem refers_iff {a b : String} : Refers slots a b ↔ b ∈ successors slots a := by
  have hmentions (d : Definition) :
      b ∈ d.allDependencies ↔ b ∈ d.expr.references ∨ b ∈ d.gate.names := by
    rw [Definition.allDependencies, List.mem_append, Gate.mem_dependencies, Gate.names,
      List.mem_map]
    exact Iff.rfl
  rw [Refers, successors]
  cases hslot : slots.get? a with
  | none => simp
  | some slot =>
    simp only [Option.some.injEq, Option.map_some, Option.getD_some, Slot.dependencies,
      List.mem_flatMap, mem_toList_iff, hmentions]
    constructor
    · rintro ⟨_, d, rfl, hd, hb⟩
      exact ⟨d, hd, hb⟩
    · rintro ⟨d, hd, hb⟩
      exact ⟨slot, d, rfl, hd, hb⟩

/-- The search follows the relation: it goes from a slot to the slots on which it depends. -/
theorem depends_iff {a b : String} :
    Depends slots a b ↔ b ∈ successors slots a ∧ b ∈ slots.keys := by
  rw [← refers_iff]
  constructor
  · rintro ⟨slot, d, hslot, hd, hb, hkey⟩
    exact ⟨⟨slot, d, hslot, hd, hb⟩, hkey⟩
  · rintro ⟨⟨slot, d, hslot, hd, hb⟩, hkey⟩
    exact ⟨slot, d, hslot, hd, hb, hkey⟩

/-! ### The path of the search -/

/-- What a search has in progress: distinct slots, each of which depends on the next. -/
structure InProgress (slots : Table String Slot) (path : List String) : Prop where
  /-- They are slots. -/
  known : path ⊆ slots.keys
  /-- They are distinct. -/
  nodup : path.Nodup
  /-- Every slot depends on the next. -/
  chain : path.IsChain (Depends slots)

theorem InProgress.single {name : String} (hname : name ∈ slots.keys) :
    InProgress slots [name] :=
  ⟨by simpa using hname, by simp, List.isChain_singleton name⟩

/-- The path may go on to a slot on which its last slot depends, if that is not in progress. -/
theorem InProgress.snoc {path : List String} {name next : String}
    (h : InProgress slots (path ++ [name])) (hdep : Depends slots name next)
    (hnew : next ∉ path ++ [name]) : InProgress slots (path ++ [name] ++ [next]) := by
  have hkey : next ∈ slots.keys := (depends_iff.1 hdep).2
  refine ⟨List.append_subset.2 ⟨h.known, by simpa using hkey⟩, ?_, ?_⟩
  · exact ((List.perm_append_singleton next _).nodup_iff).2 (List.nodup_cons.2 ⟨hnew, h.nodup⟩)
  · exact h.chain.append (List.isChain_singleton next) (by simpa using hdep)

/-- A path along a relation that comes back to one of its elements closes a cycle there. -/
theorem closes_of_idxOf? {r : String → String → Prop} {path : List String} {name next : String}
    {i : Nat} (hnodup : (path ++ [name]).Nodup) (hchain : (path ++ [name]).IsChain r)
    (hnext : r name next) (hi : (path ++ [name]).idxOf? next = some i) :
    2 ≤ ((path ++ [name]).drop i ++ [next]).length ∧
      ((path ++ [name]).drop i ++ [next]).head? = ((path ++ [name]).drop i ++ [next]).getLast? ∧
      ((path ++ [name]).drop i ++ [next]).dropLast.Nodup ∧
      ((path ++ [name]).drop i ++ [next]).IsChain r := by
  obtain ⟨hlt, hat, -⟩ := List.idxOf?_eq_some_iff.1 hi
  have hdrop : (path ++ [name]).drop i = next :: (path ++ [name]).drop (i + 1) := by
    rw [List.drop_eq_getElem_cons hlt, hat]
  have hlast : ((path ++ [name]).drop i).getLast? = some name := by
    rw [List.getLast?_drop, if_neg (Nat.not_le.2 hlt), List.getLast?_concat]
  refine ⟨?_, ?_, ?_, ?_⟩
  · rw [hdrop, List.length_append, List.length_cons, List.length_singleton]
    omega
  · rw [List.getLast?_concat, hdrop, List.cons_append, List.head?_cons]
  · rw [List.dropLast_concat]
    exact hnodup.sublist (List.drop_sublist i _)
  · refine (hchain.drop i).append (List.isChain_singleton next) fun x hx y hy => ?_
    obtain rfl : name = x := Option.some.inj (hlast.symm.trans hx)
    obtain rfl : next = y := by simpa using hy
    exact hnext

/-- If the last slot in progress depends on one that is in progress, then the path from that one on
is a cycle. -/
theorem InProgress.isCycle {path : List String} {name next : String} {i : Nat}
    (h : InProgress slots (path ++ [name])) (hdep : Depends slots name next)
    (hi : (path ++ [name]).idxOf? next = some i) :
    IsCycle slots ((path ++ [name]).drop i ++ [next]) := by
  obtain ⟨htwo, hclosed, hnodup, hchain⟩ := closes_of_idxOf? h.nodup h.chain hdep hi
  exact ⟨htwo, hclosed, hnodup, hchain⟩

/-- A search that goes through several names fails at one of them. -/
theorem exists_error_of_foldlM {α β ε : Type} {f : β → α → Except ε β} {l : List α} {b : β} {e : ε}
    (h : l.foldlM f b = .error e) : ∃ c, ∃ a ∈ l, f c a = .error e := by
  induction l generalizing b with
  | nil => cases h
  | cons a l ih =>
    rw [List.foldlM_cons] at h
    cases ha : f b a with
    | error e' =>
      rw [ha] at h
      obtain rfl : e' = e := Except.error.inj h
      exact ⟨b, a, List.mem_cons_self, ha⟩
    | ok c =>
      rw [ha] at h
      obtain ⟨c', a', hmem, ha'⟩ := ih h
      exact ⟨c', a', List.mem_cons_of_mem a hmem, ha'⟩

/-- Taking a name on which the last slot in progress depends fails with a cycle, if the search below
slots does. -/
theorem isCycle_of_advance {path done cycle : List String} {name next : String}
    {below : List String → String → Except (List String) (List String)}
    (hbelow : ∀ done', InProgress slots (path ++ [name] ++ [next]) →
      below done' next = .error cycle → IsCycle slots cycle)
    (hpath : InProgress slots (path ++ [name])) (hnext : next ∈ successors slots name)
    (h : advance slots (path ++ [name]) below done next = .error cycle) :
    IsCycle slots cycle := by
  unfold advance at h
  split at h
  · cases h
  rename_i hslot
  have hkey : next ∈ slots.keys := Table.contains_iff_mem_keys.1 (by simpa using hslot)
  have hdep : Depends slots name next := depends_iff.2 ⟨hnext, hkey⟩
  split at h
  · rename_i i hi
    cases h
    exact hpath.isCycle hdep hi
  · rename_i hidx
    split at h
    · cases h
    · exact hbelow done (hpath.snoc hdep (List.idxOf?_eq_none_iff.1 hidx)) h

/-- A search below a slot fails with a cycle. -/
theorem isCycle_of_visit {bound : Nat} {path done cycle : List String} {name : String}
    (hpath : InProgress slots (path ++ [name]))
    (h : visit slots bound path done name = .error cycle) : IsCycle slots cycle := by
  induction bound generalizing path done name with
  | zero => cases h
  | succ bound ih =>
    rw [visit] at h
    split at h
    · rename_i cycle' hfold
      cases h
      obtain ⟨done', next, hnext, hadvance⟩ := exists_error_of_foldlM hfold
      exact isCycle_of_advance (fun _ => ih) hpath hnext hadvance
    · cases h

/-- What the search for a cycle finds is one. -/
theorem isCycle_of_findCycle {cycle : List String} (h : findCycle slots = some cycle) :
    IsCycle slots cycle := by
  unfold findCycle at h
  dsimp only at h
  split at h
  · cases h
  · rename_i cycle' hfold
    cases h
    obtain ⟨done, name, hname, hvisit⟩ := exists_error_of_foldlM hfold
    split at hvisit
    · cases hvisit
    · have hpath : InProgress slots ([] ++ [name]) := InProgress.single hname
      exact isCycle_of_visit hpath hvisit

/-- A cycle leads from each of its ends to the other. -/
theorem IsCycle.transGen {cycle : List String} (h : IsCycle slots cycle) :
    ∃ n, Relation.TransGen (Depends slots) n n := by
  obtain ⟨hlen, hclosed, -, hchain⟩ := h
  match cycle, hlen with
  | a :: b :: rest, _ =>
    have hab : Depends slots a b := (List.isChain_cons_cons.1 hchain).1
    have hrest : (b :: rest).IsChain (Depends slots) := (List.isChain_cons_cons.1 hchain).2
    have hend : (b :: rest).getLast (List.cons_ne_nil b rest) = a := by
      rw [List.head?_cons, List.getLast?_eq_some_getLast (List.cons_ne_nil _ _),
        Option.some.injEq] at hclosed
      exact hclosed.symm
    exact ⟨a, Relation.TransGen.head' hab
      (List.relationReflTransGen_of_exists_isChain_cons rest hrest hend)⟩

/-- If the search for a cycle meets none, no slot depends on itself, directly or through others. -/
theorem not_transGen_of_findCycle (h : findCycle slots = none) (n : String) :
    ¬ Relation.TransGen (Depends slots) n n := by
  obtain ⟨rank, -, hrank⟩ := exists_rank_of_findCycle h
  have hlt {a b : String} (hab : Relation.TransGen (Depends slots) a b) : rank b < rank a := by
    induction hab with
    | single hstep => exact hrank _ _ (depends_iff.1 hstep).1
    | tail _ hstep ih => exact Nat.lt_trans (hrank _ _ (depends_iff.1 hstep).1) ih
  exact fun hn => Nat.lt_irrefl _ (hlt hn)

end Dependency

namespace Draft

open Dependency

/-- **Building decides cycles.** A draft has no graph exactly when some slot depends on itself,
directly or through others. The answer then is a cycle, and otherwise it is a graph without one,
which has the slots, their ordinals and the sites of the draft. -/
theorem build_decides_cycles (d : Draft) (root : String) (fingerprint : Fingerprint) :
    ((∃ cycle, d.build root fingerprint = .error cycle) ↔
      ∃ n, Relation.TransGen (Depends d.slots) n n) ∧
    (∀ cycle, d.build root fingerprint = .error cycle → IsCycle d.slots cycle) ∧
    ∀ g, d.build root fingerprint = .ok g →
      (∀ n, ¬ Relation.TransGen (Depends g.slots) n n) ∧
      g.slots = d.slots ∧ g.sites = d.sites ∧ g.root = root ∧ g.fingerprint = fingerprint ∧
      ∀ n, g.slot? n = d.slots.get? n ∧ g.ordinal? n = d.ordinal? n := by
  have herror : ∀ cycle, d.build root fingerprint = .error cycle → IsCycle d.slots cycle := by
    intro cycle h
    unfold build at h
    split at h
    · rename_i cycle' hfind
      cases h
      exact isCycle_of_findCycle hfind
    · cases h
  refine ⟨⟨fun ⟨cycle, h⟩ => (herror cycle h).transGen, fun ⟨n, hn⟩ => ?_⟩, herror, fun g h => ?_⟩
  · cases hbuild : d.build root fingerprint with
    | error cycle => exact ⟨cycle, rfl⟩
    | ok g => exact absurd hn (not_transGen_of_findCycle (of_build hbuild).1 n)
  · obtain ⟨hfind, hroot, hslots, hsites, hfingerprint⟩ := of_build h
    refine ⟨fun n => ?_, hslots, hsites, hroot, hfingerprint, fun n => ⟨?_, ?_⟩⟩
    · rw [hslots]
      exact not_transGen_of_findCycle hfind n
    · rw [Graph.slot?, hslots]
    · rw [Graph.ordinal?, ordinal?, hslots]

/-- The default of one name and the gate of another may close a cycle. -/
example :
    (Draft.mk (.ofList [
        ("A", ⟨.value, .fallback ⟨.name "B", .always, "m"⟩⟩),
        ("B", ⟨.value, .primary ⟨.literal .null, .ofCondition ⟨"A", some 0⟩, "m"⟩⟩)])
      [] .empty).build "m" (.tag 0) = .error ["A", "B", "A"] := by
  rfl

end Draft

end GatedRules
