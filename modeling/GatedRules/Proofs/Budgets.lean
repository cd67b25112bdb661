import GatedRules.Proofs.Cells
import GatedRules.Proofs.Nesting
import Mathlib.Data.List.ProdSigma

/-!
# Budgets that are enough

An evaluation of a regular program enters only finitely many frames, and none while it is inside of
it. Between two frames it only goes inwards, from a scope to that of a module at a site, and modules
nest no deeper than there are modules. A budget with room for all of this is enough
(`finished_answer`), and one budget is enough for all names (`Regular.exists_enough`).
-/

namespace GatedRules

/-- How often an evaluation can go on before it enters another frame, where scopes nest no deeper
than `depth`. -/
def Goal.room (depth : Nat) : Goal → Nat
  | .frame _ => 0
  | .primary scope _ => depth + 1 - scope.around.length

/-- A bound on how deeply goals below a goal depend on each other, where `frames` frames are yet to
be entered. -/
def Goal.patience (frames depth : Nat) (goal : Goal) : Nat :=
  frames * (depth + 2) + goal.room depth

theorem Goal.room_le (depth : Nat) (goal : Goal) : goal.room depth ≤ depth + 1 := by
  cases goal with
  | frame f => exact Nat.zero_le _
  | primary scope name => exact Nat.sub_le _ _

/-- Entering a frame takes more than any way inwards. -/
theorem Goal.patience_lt {frames frames' : Nat} (h : frames' < frames) (depth : Nat)
    (goal goal' : Goal) : goal'.patience frames' depth < goal.patience frames depth := by
  have hroom := goal'.room_le depth
  have hframes : (frames' + 1) * (depth + 2) ≤ frames * (depth + 2) := Nat.mul_le_mul_right _ h
  rw [Nat.add_mul, Nat.one_mul] at hframes
  unfold patience
  omega

/-- The texts of the frames for a name in a scope: that of the name, and those of its definitions.
-/
def Scope.frameText (s : Scope) (name : String) : Option Rank → String
  | none => s.frame name
  | some rank => s.definitionFrame name rank

/-- The texts of the frames for some names in some scopes. -/
def Scope.frameTexts (scopes : List Scope) (names : List String) : List String :=
  (scopes ×ˢ names ×ˢ [none, some .primary, some .fallback]).map fun (s, n, rank) =>
    s.frameText n rank

theorem Scope.mem_frameTexts {scopes : List Scope} {names : List String} {s : Scope} {n : String}
    (hs : s ∈ scopes) (hn : n ∈ names) (rank : Option Rank) :
    s.frameText n rank ∈ frameTexts scopes names := by
  have hrank : rank ∈ [none, some Rank.primary, some .fallback] := by
    rcases rank with _ | _ | _ <;> simp
  have hmem := List.pair_mem_product.2 ⟨hs, List.pair_mem_product.2 ⟨hn, hrank⟩⟩
  exact List.mem_map.2 ⟨(s, n, rank), hmem, rfl⟩

theorem Scope.length_frameTexts (scopes : List Scope) (names : List String) :
    (frameTexts scopes names).length = scopes.length * (names.length * 3) := by
  rw [frameTexts, List.length_map, List.length_product, List.length_product]
  rfl

namespace EvalM

variable {σ : Setting} {may may' : Goal → Prop} {entry : Graph} {p : String → Prop} {α : Type}
  {w : World} {stack : List String} {k : Nat}

/-- A run from a sound world finishes if all answers do that are asked for. -/
theorem finished_run (hc : σ.Closed may) (hmay : ∀ goal, may' goal → may goal)
    {Q : Unit → α → Prop} {x : Plan α} (hx : x.Follows (σ.protocol may') Q ())
    (hanswer : ∀ goal w, may' goal → w.Sound σ may →
      Finished (((handler σ).answer k goal).exec stack w).1)
    (hw : w.Sound σ may) :
    Finished ((x.run (handler σ) ((handler σ).answer k)).exec stack w).1 := by
  induction x generalizing w with
  | done a => exact finished_ok a
  | fail error => exact finished_failed error
  | perform action next ih =>
    have hresult := exec_act hw hx.1 stack
    have hact : Finished ((act σ action).exec stack w).1 := by
      rw [hresult]
      exact Setting.finished_result hx.1
    refine finished_bind (x := act σ action) hact fun r w' hr => ?_
    have hsound := sound_act hw hx.1 stack
    rw [hr] at hresult hsound
    exact ih r (hx.2 () r trivial hresult.symm) hsound
  | ask goal next ih =>
    refine finished_bind (hanswer goal w hx.1 hw) fun r w' hr => ?_
    have hfinds := finds_answer hc k (hmay goal hx.1) hw stack
    rw [hr] at hfinds
    -- The answer is one that a plain evaluation finds, so the plan still keeps to the protocol.
    exact ih r (hx.2 () r trivial (hfinds.value rfl)) hfinds.sound

theorem finished_visit {f : Frame} {x : EvalM Value}
    (hx : ¬ stack.contains f.text = true → w.cells.get? f.text = none →
      Finished (x.exec (stack ++ [f.text]) w).1) :
    Finished (((handler σ).visit f x).exec stack w).1 := by
  rw [exec_visit]
  split
  · exact finished_failed _
  rename_i hs
  split
  · exact finished_ok _
  · have hfinished := hx hs ‹_›
    rcases hr : x.exec (stack ++ [f.text]) w with ⟨halt | v, w'⟩
    · rw [hr] at hfinished
      exact hfinished
    · exact finished_ok v

/-- A budget is enough that has room for all frames and for the ways inwards between them. -/
theorem finished_answer {scopes : List Scope} {names : List String} {depth : Nat}
    (hc : σ.Closed may) (hmay : ∀ goal, σ.Asks entry (· ∈ names) goal → may goal)
    (hscopes : ∀ s, σ.Reached entry s → s ∈ scopes)
    (hnames : ∀ s, σ.Reached entry s → ∀ n ∈ s.graph.lookups, n ∈ names)
    (hdepth : ∀ s, σ.Reached entry s → s.around.length ≤ depth)
    (hstateless : ∀ s, σ.Reached entry s → s.graph.Stateless) {goal : Goal}
    (hgoal : σ.Asks entry (· ∈ names) goal) (hw : w.Sound σ may) (hnodup : stack.Nodup)
    (hstack : stack ⊆ Scope.frameTexts scopes names)
    (hk : goal.patience ((Scope.frameTexts scopes names).length - stack.length) depth < k) :
    Finished (((handler σ).answer k goal).exec stack w).1 := by
  induction k generalizing goal stack w with
  | zero => exact absurd hk (Nat.not_lt_zero _)
  | succ k ih =>
    have hnext := Setting.plan_follows_next hnames hstateless hgoal
    have hmay' : ∀ goal', σ.Next entry (· ∈ names) goal goal' → may goal' :=
      fun goal' hg => hmay goal' hg.asks
    cases goal with
    | primary scope name =>
      refine finished_run hc hmay' hnext (fun goal' w hg hw => ?_) hw
      refine ih hg.asks hw hnodup hstack (Nat.lt_of_lt_of_le ?_ (Nat.le_of_lt_succ hk))
      -- The stack is the same, but there is less room left.
      have hroom : goal'.room depth < (Goal.primary scope name).room depth := by
        have hle := hdepth scope hgoal.1
        cases goal' with
        | frame f => exact Nat.sub_pos_of_lt (Nat.lt_succ_of_le hle)
        | primary child name' =>
          have hinwards : child.around.length = scope.around.length + 1 := hg.2
          simp only [Goal.room]
          omega
      exact Nat.add_lt_add_left hroom _
    | frame f =>
      refine finished_visit fun hs _ => finished_run hc hmay' hnext (fun goal' w hg hw => ?_) hw
      -- The frame was not on the stack, so there is one frame less that is yet to be entered.
      have hmem : f.text ∈ Scope.frameTexts scopes names := by
        cases f with
        | name s n => exact Scope.mem_frameTexts (hscopes s hgoal.1) hgoal.2 none
        | definition s n rank d =>
          exact Scope.mem_frameTexts (hscopes s hgoal.1) hgoal.2.1 (some rank)
      have hnodup' : (stack ++ [f.text]).Nodup := by
        rw [List.nodup_append_comm, List.singleton_append, List.nodup_cons]
        exact ⟨fun hm => hs (List.contains_iff_mem.2 hm), hnodup⟩
      have hstack' : stack ++ [f.text] ⊆ Scope.frameTexts scopes names :=
        List.append_subset.2 ⟨hstack, by simpa using hmem⟩
      have hlen := (List.subperm_of_subset hnodup' hstack').length_le
      rw [List.length_append, List.length_singleton] at hlen
      refine ih hg.asks hw hnodup' hstack' (Nat.lt_of_lt_of_le ?_ (Nat.le_of_lt_succ hk))
      refine Goal.patience_lt ?_ depth _ _
      rw [List.length_append, List.length_singleton]
      omega

end EvalM

namespace Setting

variable {σ : Setting} {c : Compiled}

/-- For a regular program there is a budget that is enough for every name. -/
theorem Regular.exists_enough {source : Loader} {path : String} (h : source.compile path = .ok c)
    (hr : σ.Regular c.graph) :
    ∃ enough, ∀ k, enough ≤ k → ∀ n : String, Text.Sheltered n.toList → ∀ w : World,
      w.Sound σ (σ.Queries c.graph) →
      Finished (((EvalM.handler σ).answer k (.frame (.name (.entry c.graph) n))).exec [] w).1 := by
  let scopes := hr.finite_reached.toFinset.toList
  have hscopes : ∀ s, s ∈ scopes ↔ σ.Reached c.graph s := by simp [scopes]
  let lookups := scopes.flatMap fun s => s.graph.lookups
  let depth := σ.loader.paths.length
  -- There are as many frames for one name as for any other.
  let frames := scopes.length * ((lookups.length + 1) * 3)
  refine ⟨frames * (depth + 2) + 1, fun k hk n hn w hw => ?_⟩
  have hlookups : ∀ s, σ.Reached c.graph s → ∀ m ∈ s.graph.lookups, m ∈ n :: lookups :=
    fun s hs m hm => List.mem_cons_of_mem _ (List.mem_flatMap.2 ⟨s, (hscopes s).2 hs, hm⟩)
  have hmay : ∀ goal, σ.Asks c.graph (· ∈ n :: lookups) goal → σ.Queries c.graph goal := by
    refine fun goal => Asks.imp fun m hm => ?_
    rcases List.mem_cons.1 hm with rfl | hm
    · exact hn
    · obtain ⟨s, hs, hm⟩ := List.mem_flatMap.1 hm
      exact ((hscopes s).1 hs).sheltered h hm
  have hpatience : (Goal.frame (.name (.entry c.graph) n)).patience
      ((Scope.frameTexts scopes (n :: lookups)).length - 0) depth < k := by
    rw [Scope.length_frameTexts, List.length_cons]
    exact hk
  exact EvalM.finished_answer (hr.closed h) hmay (fun s => (hscopes s).2) hlookups
    (fun s hs => hr.around_le hs) (fun s hs => hr.stateless hs) ⟨.entry, by simp⟩ hw
    List.nodup_nil (List.nil_subset _) hpatience

/-- The world is sound after a session of requests in a regular program. -/
theorem Regular.sound_after {source loader : Loader} {path : String}
    (h : source.compile path = .ok c) {e : Engine} (he : e.Numbered) {inputs : Table String Value}
    (hr : ((Execution.start e c.graph inputs).1.setting loader).Regular c.graph)
    {requests : List Request}
    (hrequests : ∀ r ∈ requests, r.loader = loader ∧ '#' ∉ r.name.toList) :
    let x := Execution.start e c.graph inputs
    (x.1.worldAfter x.2 requests).Sound (x.1.setting loader)
      ((x.1.setting loader).Queries c.graph) :=
  Execution.sound_worldAfter (hr.closed h) (Execution.sound_start he c.graph inputs loader _)
    fun r hmem => ⟨(hrequests r hmem).1, queries_of_not_mem _ _ (hrequests r hmem).2⟩

end Setting

end GatedRules
