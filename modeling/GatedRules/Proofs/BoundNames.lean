import GatedRules.Proofs.Descent
import GatedRules.Proofs.Numbers
import GatedRules.Proofs.Settled
import GatedRules.Proofs.Words
import GatedRules.Source.Bundle

/-!
# Names on which sites depend

Sites are not asked about the names on which any of them depends, and such names depend on nothing
else but each other. So a graph settles them as it does without its sites: the plans for them mirror
those in the scope of the graph without sites, and module paths are never resolved
(`Likeness.closed_bound`). Answers are then the same from every loader, whatever has been computed
before and also where state is kept; nothing of the engine changes but its store and the count of
closed gates; and as a compiled graph has no cycle, no evaluation comes back to itself
(`bound_names_ignore_sites`).
-/

namespace GatedRules

/-! ### Names that are looked up -/

namespace Dependency

/-- Closing adds nothing but names that are pending or on which others depend. -/
theorem mem_of_mem_close {slots : Table String Slot} {pending seen : List String} {n : String}
    (h : n ∈ close slots pending seen) : n ∈ seen ∨ n ∈ pending ∨ ∃ m, n ∈ successors slots m := by
  induction pending, seen using close.induct slots with
  | case1 seen =>
    rw [close] at h
    exact .inl h
  | case2 name pending seen hseen ih =>
    rw [close, if_pos hseen] at h
    rcases ih h with hn | hn | hn
    · exact .inl hn
    · exact .inr (.inl (List.mem_cons_of_mem _ hn))
    · exact .inr (.inr hn)
  | case3 name pending seen hseen hslot ih =>
    have hnone : successors slots name = [] := by rw [successors, hslot]; rfl
    rw [close_of_not_seen hseen, hnone, List.nil_append] at h
    grind
  | case4 name pending seen hseen slot hslot ih =>
    have hsome : successors slots name = slot.dependencies := by rw [successors, hslot]; rfl
    rw [close_of_not_seen hseen, hsome] at h
    grind

end Dependency

namespace Graph

variable {g : Graph} {n : String}

/-- Bound names are looked up. -/
theorem mem_lookups_of_bindsSites (h : g.bindsSites n = true) : n ∈ g.lookups := by
  rw [bindsSites, g.bound_eq, List.contains_iff_mem] at h
  rcases Dependency.mem_of_mem_close h with hn | hn | ⟨m, hn⟩
  · cases hn
  · exact List.mem_append_right _ hn
  · exact mem_lookups_of_successor hn

end Graph

/-! ### The likeness without sites -/

/-- The likeness of a graph with and without its sites, where bound names are asked for and no
module path is resolved. -/
def Likeness.bound (g : Graph) : Likeness where
  scopes s s' := s = .entry g ∧ s' = .entry g.withoutSites
  mayAsk := Setting.AtEntry g fun n => g.bindsSites n = true
  mayAct action := ∀ path, action ≠ .resolve path

namespace Scope

open Plan

variable {g : Graph} {n : String}

theorem fromRank_mirrors_bound (hn : g.bindsSites n = true) (rank : Rank) :
    ((entry g).fromRank n rank).Mirrors (.bound g) ((entry g.withoutSites).fromRank n rank) := by
  have hscopes : (Likeness.bound g).scopes (entry g) (entry g.withoutSites) := ⟨rfl, rfl⟩
  refine fromRank_mirrors hscopes rfl (fun d hd c hc => ?_) (fun d hd => ⟨rfl, hn, hd⟩) nofun
  have hm : c.name ∈ Dependency.successors g.slots n :=
    (defines_of_definition? hd).mem_successors (Definition.mem_dependencies_of_gate hc)
  exact ⟨rfl, Graph.bindsSites_of_successor hn hm⟩

/-- Sites are not asked about bound names, whether or not there are any. -/
theorem fromPrimary_mirrors_bound (hn : g.bindsSites n = true) :
    ((entry g).fromPrimary n).Mirrors (.bound g) ((entry g.withoutSites).fromPrimary n) := by
  have hasks : ¬ (entry g).asksSites n = true := fun ha => not_bindsSites_of_asksSites ha hn
  have hsites : ((entry g.withoutSites).fromSites n (entry g.withoutSites).graph.sites) =
    pure none := rfl
  refine (fromRank_mirrors_bound hn .primary).bind fun v? => ?_
  cases v? with
  | some v => exact mirrors_pure _
  | none =>
    dsimp only
    rw [if_neg hasks, hsites, ite_self]
    exact mirrors_pure none

theorem settle_mirrors_bound (hn : g.bindsSites n = true) :
    ((entry g).settle n).Mirrors (.bound g) ((entry g.withoutSites).settle n) := by
  have hscopes : (Likeness.bound g).scopes (entry g) (entry g.withoutSites) := ⟨rfl, rfl⟩
  refine .primary hscopes ⟨rfl, hn⟩ fun v? => ?_
  cases v? with
  | some v => exact mirrors_pure v
  | none =>
    refine (fromRank_mirrors_bound hn .fallback).bind fun v? => ?_
    cases v? with
    | some v => exact mirrors_pure v
    | none => exact .perform nofun .done

end Scope

/-- Bound names are settled as they are without sites. -/
theorem Likeness.closed_bound (g : Graph) : (Likeness.bound g).Closed where
  text hs := by
    obtain ⟨rfl, rfl⟩ := hs
    rfl
  name hs hask := by
    obtain ⟨rfl, rfl⟩ := hs
    exact Scope.settle_mirrors_bound hask.2
  definition {s s' n rank d} hs hask := by
    have hscopes := hs
    obtain ⟨rfl, rfl⟩ := hs
    obtain ⟨-, hn, hd⟩ := hask
    refine Expr.eval_mirrors hscopes nofun (fun _ => nofun) d.expr fun m hm => ?_
    have hsucc : m ∈ Dependency.successors g.slots n :=
      (Scope.defines_of_definition? hd).mem_successors (Definition.mem_dependencies_of_mentions hm)
    exact ⟨rfl, Graph.bindsSites_of_successor hn hsucc⟩
  primary hs hask := by
    obtain ⟨rfl, rfl⟩ := hs
    exact Scope.fromPrimary_mirrors_bound hask.2

/-! ### Evaluations that resolve no module path -/

/-- One engine has come from another without anything being asked of what resolves module paths:
nothing has changed but the store and the count of closed gates. -/
def Engine.Unasked (e e' : Engine) : Prop :=
  e' = { e with
    store := e'.store
    metrics := { e.metrics with gatedSkips := e'.metrics.gatedSkips } }

namespace EvalM

variable {σ σ' : Setting}

/-- Where no module path is resolved, evaluations under the same inputs are the same. -/
theorem related_eq (h : σ'.inputs = σ.inputs) : (handler σ).Related (fun _ => Eq)
    (fun action => ∀ path, action ≠ .resolve path) (handler σ') where
  pure _ := rfl
  bind hx hf := by
    rw [hx]
    exact bind_congr hf
  fail _ := rfl
  exhaust := rfl
  perform {action} ha := by
    cases action with
    | input name =>
      have hinput : σ'.input name = σ.input name := by rw [Setting.input, Setting.input, h]
      exact congrArg pure hinput.symm
    | call slot c => rfl
    | skip => rfl
    | resolve path => exact absurd rfl (ha path)
  visit {f} {f'} {x} {x'} hf hx := by rw [visit_congr hf σ σ', hx]

theorem unasked_act {e : Engine} {action : Action} (ha : ∀ path, action ≠ .resolve path) :
    (act σ action).Preserves fun w => e.Unasked w.engine := by
  refine preserves_act (fun w store hw => ?_) (fun stack w hw => ?_)
    (fun path h => absurd h (ha path))
  · rw [Engine.Unasked, hw]
  · rw [exec_count, Engine.Unasked, hw]
    rfl

end EvalM

namespace Execution

variable {x : Execution} {n : String}

/-- A bound name is evaluated as it is without sites, whatever the loader. -/
theorem evaluation_withoutSites (h : x.graph.bindsSites n = true) (budget : Nat)
    (loader loader' : Loader) :
    x.evaluation (EvalM.handler (x.setting loader)) budget n =
      { x with graph := x.graph.withoutSites }.evaluation
        (EvalM.handler (x.setting loader')) budget n := by
  have hrelated : (EvalM.handler (x.setting loader)).Related (fun _ => Eq)
      (Likeness.bound x.graph).mayAct (EvalM.handler (x.setting loader')) := EvalM.related_eq rfl
  exact ((Likeness.closed_bound x.graph).answer hrelated budget).name ⟨rfl, rfl⟩ ⟨rfl, h⟩

/-- An execution that is asked for a bound name resolves no module path. -/
theorem unasked_fetchWithin (h : x.graph.bindsSites n = true) (budget : Nat) (e : Engine)
    (loader : Loader) : e.Unasked (x.fetchWithin budget e loader n).2.2 := by
  have hrelated : (EvalM.handler (x.setting loader)).Related
      (fun _ y _ => y.Preserves fun w => e.Unasked w.engine) (Likeness.bound x.graph).mayAct
      (EvalM.handler (x.setting loader)) :=
    EvalM.related_preserves (fun _ ha => EvalM.unasked_act ha) fun _ _ _ hw => hw
  have hpreserves : (x.evaluation (EvalM.handler (x.setting loader)) budget n).Preserves
      fun w => e.Unasked w.engine :=
    ((Likeness.closed_bound x.graph).answer hrelated budget).name ⟨rfl, rfl⟩ ⟨rfl, h⟩
  exact hpreserves [] (x.world e) rfl

end Execution

/-- **Names on which sites depend are settled without the sites.** Let an execution of a compiled
graph be asked for a name on which a site depends, whatever it has computed and whatever the engine
has come to. No module path is resolved or compiled: nothing of the engine changes but its store and
the count of closed gates. The answer is no recursion, and with enough budget the evaluation
finishes. Without any site, and from any other loader, the name is answered in the same way, with
the same calls to the store, and the same cells are filled. -/
theorem bound_names_ignore_sites {source : Loader} {path : String} {c : Compiled}
    (h : source.compile path = .ok c) {x : Execution} (hx : x.graph = c.graph) {n : String}
    (hn : x.graph.bindsSites n = true) (budget : Nat) (e : Engine) (loader : Loader) :
    let bare := { x with graph := x.graph.withoutSites }
    let out := x.fetchWithin budget e loader n
    e.Unasked out.2.2 ∧
      (∀ chain, out.1 ≠ .error (.failed (.recursion chain))) ∧
      (3 * x.graph.size + 3 ≤ budget → out.1 ≠ .error .exhausted) ∧
      ∀ other,
        bare.fetchWithin budget e other n =
          (out.1, { out.2.1 with graph := bare.graph }, out.2.2) ∧
        x.fetchWithin budget e other n = out := by
  intro bare out
  have heval : ∀ loader other, x.evaluation (EvalM.handler (x.setting loader)) budget n =
      bare.evaluation (EvalM.handler (bare.setting other)) budget n :=
    Execution.evaluation_withoutSites hn budget
  have hlookups := sheltered_of_mem_lookups h
  have hcycle := findCycle_of_compile h
  rw [← hx] at hlookups hcycle
  -- Without sites and cycles, evaluations descend.
  have hends : Ends (3 * bare.graph.size + 3 ≤ budget) out.1 := by
    have hname := hlookups n (Graph.mem_lookups_of_bindsSites hn)
    have hlookups' : ∀ m ∈ bare.graph.lookups, Text.Sheltered m.toList := fun m hm =>
      hlookups m (Graph.mem_lookups_of_withoutSites hm)
    have hout : out.1 = ((bare.evaluation (EvalM.handler (bare.setting loader)) budget n).exec []
        (x.world e)).1 := by
      rw [← heval loader loader]
      rfl
    rw [hout]
    exact EvalM.ends_name rfl hlookups' hcycle budget hname (x.world e)
  refine ⟨Execution.unasked_fetchWithin hn budget e loader, hends.descends, hends.finished,
    fun other => ⟨?_, ?_⟩⟩
  · rw [Execution.fetchWithin_eq, ← heval loader other]
    rfl
  · rw [Execution.fetchWithin_eq, heval other loader, ← heval loader loader]
    rfl

/-- A module that is chosen by a default has a definition for the name of which it is chosen. -/
def chooser : Loader :=
  (Bundle.ofList [
    ("main", "LET Action := Thing; LET Thing := \"d\" DEFAULT; INCLUDE \"features/${Action}\";"),
    ("features/d", "LET Thing := \"from d\"; LET Extra := 1;")]).loader

/-- Also after the module has been entered the name has its default, from every loader. -/
theorem chooser_keeps_default : ∃ c, chooser.compile "main" = .ok c ∧
    let start := Execution.start .start c.graph .empty
    let extra := start.1.fetchWithin 20 start.2 chooser "Extra"
    let thing := extra.2.1.fetchWithin 20 extra.2.2 chooser "Thing"
    extra.1.toOption = some (.int 1) ∧ thing.1.toOption = some (.string "d") ∧
      extra.2.2.Unasked thing.2.2 ∧
      ∀ other, extra.2.1.fetchWithin 20 extra.2.2 other "Thing" = thing := by
  have heval : (chooser.compile "main").toOption.map (fun c =>
      let start := Execution.start .start c.graph .empty
      let extra := start.1.fetchWithin 20 start.2 chooser "Extra"
      let thing := extra.2.1.fetchWithin 20 extra.2.2 chooser "Thing"
      (c.graph.bindsSites "Thing", extra.1.toOption, thing.1.toOption)) =
        some (true, some (.int 1), some (.string "d")) := by
    decide +kernel
  obtain ⟨c, hc, heval⟩ := exists_ok_of_map heval
  simp only [Prod.mk.injEq] at heval
  obtain ⟨hn, hextra, hthing⟩ := heval
  let start := Execution.start .start c.graph .empty
  let extra := start.1.fetchWithin 20 start.2 chooser "Extra"
  have hgraph : extra.2.1.graph = c.graph := rfl
  obtain ⟨hunasked, -, -, hother⟩ := bound_names_ignore_sites hc hgraph (hgraph ▸ hn) 20 extra.2.2
    chooser
  exact ⟨c, hc, hextra, hthing, hunasked, fun other => (hother other).2⟩

end GatedRules
