import GatedRules.Proofs.Budgets
import GatedRules.Source.Bundle

/-!
# Executions forget

Cells, notes of module paths and failed evaluations are all that a session leaves behind in its
execution. For a regular program they make no difference: every name is answered as in an execution
that has just begun, be it with a value or with an error (`fetch_forgets`).

Both answers are that of a tracked evaluation (`EvalM.tracked_of_request`), which knows the stack
but has no cells; it is from a tracked evaluation that an error takes the chain of frames that it
names.
-/

namespace GatedRules

open EvalM

/-- **Executions forget.** Let a module compile to a graph, and let the program be regular that a
loader and inputs make of it. With enough budget, a name without `#` is then answered in the same
way after any session of requests for such names as in a fresh execution, with the same value or the
same error. -/
theorem fetch_forgets {source loader : Loader} {path : String} {c : Compiled}
    (h : source.compile path = .ok c) {d e : Engine} (hd : d.Numbered) (he : e.Numbered)
    (inputs : Table String Value)
    (hregular : ((Execution.start d c.graph inputs).1.setting loader).Regular c.graph) :
    let used := Execution.start d c.graph inputs
    let fresh := Execution.start e c.graph inputs
    ∃ enough, ∀ requests : List Request,
      (∀ r ∈ requests, r.loader = loader ∧ '#' ∉ r.name.toList) →
      ∀ name : String, '#' ∉ name.toList → ∀ budget budget', enough ≤ budget → enough ≤ budget' →
        let after := used.1.serve used.2 requests
        let answer := (after.2.1.fetchWithin budget after.2.2 loader name).1
        answer ≠ .error .exhausted ∧
          answer = (fresh.1.fetchWithin budget' fresh.2 loader name).1 := by
  intro used fresh
  have hregular' : (fresh.1.setting loader).Regular c.graph := hregular.renumber fresh.1.id
  have hclosed := hregular.closed h
  have hclosed' := hregular'.closed h
  obtain ⟨k, hk⟩ := hregular.exists_enough h
  obtain ⟨k', hk'⟩ := hregular'.exists_enough h
  refine ⟨max k k', fun requests hrequests name hname budget budget' hb hb' => ?_⟩
  intro after answer
  have hname' : Text.Sheltered name.toList := Text.sheltered_of_not_mem hname
  have hgoal := fun σ : Setting => σ.queries_of_not_mem c.graph hname
  -- The world after the session is sound, and so is the one in which the fresh execution starts.
  have hsound := hregular.sound_after h hd hrequests
  have hsound' := Execution.sound_start he c.graph inputs loader
    ((fresh.1.setting loader).Queries c.graph)
  have hfinished := hk budget (le_of_max_le_left hb) name hname' _ hsound
  have hfinished' :=
    hk' budget' (le_of_max_le_right hb') name hname' _ hsound'
  -- So both answers are those of tracked evaluations.
  obtain ⟨i, hi⟩ := tracked_of_request hclosed (hgoal _) hsound hfinished
  obtain ⟨j, hj⟩ := tracked_of_request hclosed' (hgoal _) hsound' hfinished'
  have hafter : answer = (used.1.step handler (used.1.worldAfter used.2 requests)
      ⟨loader, budget, name⟩).1 := used.1.fetchWithin_after used.2 requests ⟨loader, budget, name⟩
  rw [hafter]
  refine ⟨hfinished, ?_⟩
  exact hi.symm.trans ((Setting.tracked_unique (hi ▸ hfinished) (hj ▸ hfinished')).trans hj)

/-- Letters that address their readers as the module for the kind of the reader has it. -/
def letters : Loader :=
  (Bundle.ofList [
    ("main", "LET Kind := input(); INCLUDE \"${Kind}\"; LET Title := concat(\"dear \", Name);"),
    ("guest", "LET Name := \"guest\";")]).loader

/-- The reader is a guest. -/
def toGuest : Setting :=
  ⟨letters, 0, Table.ofList [("Kind", .string "guest")]⟩

/-- If all sites of the entry module lead to one module, which has no sites, nothing else is
reached. -/
theorem Setting.reached_of_leaf {σ : Setting} {entry leaf : Graph} (hleaf : leaf.sites = [])
    (hsites : ∀ site ∈ entry.sites, ∀ g, σ.LeadsTo (.entry entry) site g → g = leaf) {s : Scope}
    (hs : σ.Reached entry s) : s = .entry entry ∨ s = (Scope.entry entry).child leaf := by
  induction hs with
  | entry => exact .inl rfl
  | child _ hsite hl ih =>
    rcases ih with rfl | rfl
    · rw [hsites _ hsite _ hl]
      exact .inr rfl
    · rw [Scope.child, hleaf] at hsite
      cases hsite

/-- For a guest, nothing is reached but the entry module and the module for guests. -/
theorem letters_regular : ∃ c, letters.compile "main" = .ok c ∧ toGuest.Regular c.graph := by
  have heval : ((letters.compile "main").toOption.bind fun c =>
      (Engine.outcome letters "guest").toOption.bind fun
        | .absent _ => none
        | .resolved g =>
          (toGuest.plain.answer 5 (.frame (.name (.entry c.graph) "Kind"))).toOption.map fun v =>
            ((c.graph.root, decide c.graph.Stateless),
              (g.root, decide g.Stateless, g.sites.isEmpty),
              c.graph.sites.map fun site => (site.template.inputs,
                (Engine.render site (Table.ofList (["Kind"].zip [v])).get?).toOption))) =
      some (("main", true), ("guest", true, true), [(["Kind"], some "guest")]) := by
    decide +kernel
  obtain ⟨c, hc, heval⟩ := Option.bind_eq_some_iff.1 heval
  obtain ⟨outcome, hg, heval⟩ := Option.bind_eq_some_iff.1 heval
  cases outcome with
  | absent path => cases heval
  | resolved g =>
    obtain ⟨v, hv, heval⟩ := Option.map_eq_some_iff.1 heval
    simp only [Prod.mk.injEq, decide_eq_true_eq, List.isEmpty_iff] at heval
    obtain ⟨⟨hroot, hstateless⟩, ⟨hroot', hstateless', hleaf⟩, hsites⟩ := heval
    have hlead : ∀ site ∈ c.graph.sites, ∀ g',
        toGuest.LeadsTo (.entry c.graph) site g' → g' = g := by
      intro site hsite g' hl
      have hrender := List.mem_map_of_mem (f := fun site : Site => (site.template.inputs,
        (Engine.render site (Table.ofList (["Kind"].zip [v])).get?).toOption)) hsite
      rw [hsites, List.mem_singleton, Prod.mk.injEq] at hrender
      obtain ⟨hinputs, hpath⟩ := hrender
      have hkind : toGuest.HasValue (.entry c.graph) "Kind" v := ⟨5, eq_ok_of_toOption hv⟩
      have hcanonical : Path.canonical "guest" = "guest" := by decide
      have ho : Engine.outcome letters (Path.canonical "guest") = .ok (.resolved g') :=
        hl.outcome hinputs hkind (eq_ok_of_toOption hpath)
      rw [hcanonical, eq_ok_of_toOption hg] at ho
      cases ho
      rfl
    refine ⟨c, eq_ok_of_toOption hc, ?_, ?_, ?_⟩
    all_goals intro s hs
    all_goals rcases Setting.reached_of_leaf hleaf hlead hs with rfl | rfl
    · simp [Scope.paths, Scope.entry, hroot]
    · simp [Scope.paths, Scope.entry, Scope.child, hroot, hroot']
    · exact hstateless
    · exact hstateless'
    · simp [Scope.paths, Scope.entry]
    · simp only [Scope.paths, Scope.entry, Scope.child, List.map_cons, List.map_nil, hroot, hroot']
      decide

theorem letters_forget :
    ∃ c, letters.compile "main" = .ok c ∧
      let x := (Execution.start .start c.graph toGuest.inputs).1
      let e := (Execution.start .start c.graph toGuest.inputs).2
      ∃ enough, ∀ budget, enough ≤ budget →
        let after := x.serve e [⟨letters, 3, "Title"⟩, ⟨letters, budget, "Name"⟩]
        (after.2.1.fetchWithin budget after.2.2 letters "Title").1 =
          (x.fetchWithin budget e letters "Title").1 := by
  obtain ⟨c, hc, hregular⟩ := letters_regular
  obtain ⟨enough, hforget⟩ := fetch_forgets hc Engine.numbered_start Engine.numbered_start
    toGuest.inputs hregular
  refine ⟨c, hc, enough, fun budget hb => ?_⟩
  have hname : '#' ∉ "Name".toList := by decide
  have htitle : '#' ∉ "Title".toList := by decide
  have hrequests : ∀ r ∈ ([⟨letters, 3, "Title"⟩, ⟨letters, budget, "Name"⟩] : List Request),
      r.loader = letters ∧ '#' ∉ r.name.toList :=
    List.forall_mem_cons.2 ⟨⟨rfl, htitle⟩, List.forall_mem_singleton.2 ⟨rfl, hname⟩⟩
  exact (hforget _ hrequests "Title" htitle budget budget hb hb).2

end GatedRules
