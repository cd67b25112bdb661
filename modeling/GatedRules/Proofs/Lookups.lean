import GatedRules.Proofs.Ingredients
import GatedRules.Proofs.Marks

/-!
# The names that a graph looks up

A definition looks up the names that its expression mentions and those of its gate, a site the names
of its template and those of its gate. In a compiled graph all of them are words or canonical texts
of conditions (`isSlotName_of_mem_lookups`), so their frames are not those of definitions
(`sheltered_of_mem_lookups`).
-/

namespace GatedRules

open Occurrences Text

namespace Graph

/-- The names that definitions and sites look up. -/
def lookups (g : Graph) : List String :=
  g.slots.values.flatMap Slot.dependencies ++ g.sites.flatMap Site.dependencies

theorem mem_lookups_of_slot {g : Graph} {n m : String} {slot : Slot} (h : g.slot? n = some slot)
    (hm : m ∈ slot.dependencies) : m ∈ g.lookups := by
  have hv : slot ∈ g.slots.values := List.mem_map.2 ⟨_, Table.get?_eq_some_iff.1 h, rfl⟩
  exact List.mem_append_left _ (List.mem_flatMap.2 ⟨slot, hv, hm⟩)

theorem mem_lookups_of_site {g : Graph} {m : String} {site : Site} (h : site ∈ g.sites)
    (hm : m ∈ site.dependencies) : m ∈ g.lookups :=
  List.mem_append_right _ (List.mem_flatMap.2 ⟨site, h, hm⟩)

/-- A graph looks up what it does without its sites. -/
theorem mem_lookups_of_withoutSites {g : Graph} {n : String} (h : n ∈ g.withoutSites.lookups) :
    n ∈ g.lookups :=
  List.mem_append_left _ (by simpa [lookups, withoutSites] using h)

end Graph

/-! ### Names of statements -/

theorem Text.sheltered_of_isWord {n : String} (h : IsWord n) : Sheltered n.toList :=
  sheltered_of_not_mem (mark_not_mem_of_isWord h)

/-- Statements that lead to certain names only being looked up: those that expressions mention,
those of conditions, and those in templates. -/
def Ingredients.lookups (p : String → Prop) : Ingredients where
  binding _ e := ∀ n ∈ e.mentions, p n
  condition e := p (e.asName?.getD e.text) ∧ ∀ n ∈ e.mentions, p n
  target t := ∀ n ∈ t.inputs, p n
  gate g := ∀ n ∈ g.names, p n
  always := nofun
  and hg hg' n hn := by
    rw [Gate.names_and, List.mem_append] at hn
    exact hn.elim (hg n) (hg' n)
  gateOf he os n hn := by
    obtain rfl := List.mem_singleton.1 hn
    exact he.1

/-- Parsed statements lead to words and canonical texts of conditions only. -/
theorem Statement.Spelled.lookups {s : Statement} (h : s.Spelled IsWord) :
    s.IsMadeOf (.lookups IsSlotName) := by
  cases s with
  | binding name expr isDefault line => exact fun n hn => .inl (h.2.mentions n hn)
  | inclusion directive =>
    obtain ⟨hcondition, hinputs⟩ := h
    refine ⟨fun n hn => .inl (List.all_eq_true.1 (hinputs n hn)), fun e he => ⟨?_, fun n hn => ?_⟩⟩
    · have hexpr := hcondition e he
      cases e with
      | name m => exact .inl hexpr
      | _ => exact .inr ⟨_, hexpr, rfl⟩
    · exact .inl ((hcondition e he).mentions n hn)

/-! ### Names of graphs -/

/-- A graph looks up only what its statements lead to. -/
theorem Graph.IsMadeOf.lookups {g : Graph} {p : String → Prop} (h : g.IsMadeOf (.lookups p)) :
    ∀ n ∈ g.lookups, p n := by
  intro n hn
  rcases List.mem_append.1 hn with hn | hn
  · obtain ⟨slot, hv, hn⟩ := List.mem_flatMap.1 hn
    obtain ⟨⟨m, slot⟩, he, rfl⟩ := List.mem_map.1 hv
    obtain ⟨d, hd, hn⟩ := List.mem_flatMap.1 hn
    have hmade := h.definition (Table.get?_eq_some_iff.2 he) hd
    rcases List.mem_append.1 hn with hn | hn
    · exact hmade.elim (fun hb => hb.1 n (List.mem_eraseDups.1 hn))
        fun hc => hc.1.2 n (List.mem_eraseDups.1 hn)
    · refine hmade.elim (fun hb => hb.2 n (List.mem_eraseDups.1 hn)) fun hc => ?_
      rw [hc.2] at hn
      cases hn
  · obtain ⟨site, hs, hn⟩ := List.mem_flatMap.1 hn
    rcases List.mem_append.1 hn with hn | hn
    · exact (h.site hs).1 n hn
    · exact (h.site hs).2 n (List.mem_eraseDups.1 hn)

/-- A compiled graph looks up nothing but words and canonical texts of conditions. -/
theorem isSlotName_of_mem_lookups {loader : Loader} {path : String} {c : Compiled}
    (h : loader.compile path = .ok c) : ∀ n ∈ c.graph.lookups, IsSlotName n := by
  have hloader : loader.IsMadeOf (.lookups IsSlotName) :=
    fun _ _ _ _ hp s hs => (Statement.spelled_of_parse hp s hs).lookups
  exact (isMadeOf_of_compile h hloader).lookups

/-- A compiled graph looks up nothing but sheltered names. -/
theorem sheltered_of_mem_lookups {loader : Loader} {path : String} {c : Compiled}
    (h : loader.compile path = .ok c) : ∀ n ∈ c.graph.lookups, Sheltered n.toList :=
  fun n hn => (isSlotName_of_mem_lookups h n hn).balanced.sheltered

/-- A compiled graph has no cycle. -/
theorem findCycle_of_compile {loader : Loader} {path : String} {c : Compiled}
    (h : loader.compile path = .ok c) : Dependency.findCycle c.graph.slots = none := by
  obtain ⟨-, w, -, -, hbuild, -, -⟩ := finds_of_compile h
  obtain ⟨hcycle, -, hslots, -, -⟩ := Draft.of_build hbuild
  rw [hslots, hcycle]

end GatedRules
