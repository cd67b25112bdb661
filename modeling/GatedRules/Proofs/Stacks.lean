import GatedRules.Proofs.Descent
import GatedRules.Proofs.Frames
import GatedRules.Proofs.RawInputs
import GatedRules.Source.Bundle
import Mathlib.Data.Set.Card

/-!
# The frames on the stack

A frame is entered only if it is not on the stack, and only what is entered is put there. So at
every moment inside an evaluation, and as long as a plan is run there, the frames on the stack are
pairwise distinct. Each of them belongs to a scope that has been reached, and is about a name that
was asked for or that the module of such a scope looks up (`World.Concerns`). These frames are at
least as many as those on the stack, so they bound how deeply evaluations can be nested.

The only error that tells of the stack is a recursion. It arises at a moment inside the evaluation
whose goal is a frame on the stack (`EvalM.recursion_arises`), and neither a plan nor an action
fails with it. `frames_on_stack_distinct` has this together: in the chain that a fetch returns only
the last frame occurs a second time, and it does so exactly once.

What is said of worlds is said of those in which an evaluation really comes to a moment, from
whatever cells, notes and store it starts. Frames are compared by their texts, as the stack does.
-/

namespace GatedRules

open EvalM Relation World

/-! ### What is left of a plan -/

/-- The frame that is entered to answer a goal. -/
def Goal.frames : Goal → List Frame
  | frame f => [f]
  | primary _ _ => []

/-- A plan that is run in a world comes to what is left of it, in the world that answers and actions
have left behind. -/
inductive Plan.Leaves (σ : Setting) (k : Nat) (stack : List String) {α : Type} :
    Plan α → World → Plan α → World → Prop
  /-- Nothing has been done yet. -/
  | whole {x : Plan α} {w : World} : Leaves σ k stack x w x w
  /-- A goal has been answered. -/
  | answered {goal : Goal} {next : goal.Answer → Plan α} {r : goal.Answer} {rest : Plan α}
    {w w' w'' : World} :
    ((handler σ).answer k goal).exec stack w = (.ok r, w') →
    Leaves σ k stack (next r) w' rest w'' → Leaves σ k stack (.ask goal next) w rest w''
  /-- An action has been done. -/
  | acted {action : Action} {next : action.Result → Plan α} {r : action.Result} {rest : Plan α}
    {w w' w'' : World} :
    (act σ action).exec stack w = (.ok r, w') →
    Leaves σ k stack (next r) w' rest w'' → Leaves σ k stack (.perform action next) w rest w''

namespace Moment

/-- The stack with which the plan of the goal is run. -/
def handed (m : Moment) : List String :=
  m.stack ++ m.goal.frames.map Frame.text

/-- To answer the goal, what is left of its plan is run in a world. A frame is entered for that
which is not on the stack and whose cell is empty. -/
structure Runs (σ : Setting) (m : Moment) (rest : Plan m.goal.Answer) (w : World) : Prop where
  /-- The frame is not on the stack. -/
  fresh : ∀ f ∈ m.goal.frames, f.text ∉ m.stack
  /-- The cell of the frame is empty. -/
  empty : ∀ f ∈ m.goal.frames, m.world.cells.get? f.text = none
  /-- The budget is not exhausted, and this is left of the plan. -/
  leaves : ∃ k, m.budget = k + 1 ∧ m.goal.plan.Leaves σ k m.handed m.world rest w

/-- An evaluation that starts at a moment comes to another one through frames that it has entered,
the outermost first. -/
inductive Inside (σ : Setting) (start : Moment) : List Frame → Moment → Prop
  /-- No frame has been entered yet. -/
  | start : Inside σ start [] start
  /-- The answer at a moment asks for another goal. -/
  | next {frames : List Frame} {m m' : Moment} : Inside σ start frames m → m.Next σ m' →
    Inside σ start (frames ++ m.goal.frames) m'

end Moment

variable {σ : Setting} {k : Nat} {stack : List String} {w w' : World} {goal : Goal} {α : Type}

/-- Where a plan asks for a goal, this is what is left of it. -/
theorem Plan.Asks.leaves {x : Plan α} (h : x.Asks σ k stack w goal w') :
    ∃ next, x.Leaves σ k stack w (.ask goal next) w' := by
  induction h with
  | here => exact ⟨_, .whole⟩
  | answered ha _ ih =>
    obtain ⟨next, hleaves⟩ := ih
    exact ⟨next, .answered ha hleaves⟩
  | acted ha _ ih =>
    obtain ⟨next, hleaves⟩ := ih
    exact ⟨next, .acted ha hleaves⟩

/-- The next moment is where the plan that is run asks for its goal, with the stack that the plan
has. -/
theorem Moment.Next.runs {m m' : Moment} (h : m.Next σ m') :
    m'.stack = m.handed ∧ ∃ next, m.Runs σ (.ask m'.goal next) m'.world := by
  cases h with
  | @primary k s n stack w w' goal ha =>
    obtain ⟨next, hleaves⟩ := ha.leaves
    have hhanded : Moment.handed ⟨k + 1, .primary s n, stack, w⟩ = stack := List.append_nil stack
    refine ⟨hhanded.symm, next, nofun, nofun, k, rfl, ?_⟩
    rw [hhanded]
    exact hleaves
  | @frame k f stack w w' goal hs hc ha =>
    obtain ⟨next, hleaves⟩ := ha.leaves
    have hfresh : f.text ∉ stack := fun hm => hs (List.contains_iff_mem.2 hm)
    exact ⟨rfl, next, List.forall_mem_singleton.2 hfresh, List.forall_mem_singleton.2 hc, k, rfl,
      hleaves⟩

/-! ### Stacks of frames -/

namespace World

variable {id : ExecutionId} {entry : Graph} {asked : String}

/-- A stack consists of pairwise distinct frames of the scopes that have been reached, so it is no
longer than there are such frames. -/
structure Stacks (id : ExecutionId) (entry : Graph) (asked : String) (w : World)
    (stack : List String) : Prop where
  /-- The frames are pairwise distinct. -/
  distinct : stack.Nodup
  /-- They are frames of the scopes that have been reached. -/
  reached : ∀ t ∈ stack, t ∈ w.frameTexts id entry asked
  /-- There are at least as many such frames. -/
  length_le : (stack.length : ℕ∞) ≤ (w.frameTexts id entry asked).encard

/-- Distinct texts of frames are not more than there are such frames. -/
theorem stacks_of_frames {stack : List String} (hnodup : stack.Nodup)
    (hframes : ∀ t ∈ stack, t ∈ w.frameTexts id entry asked) : w.Stacks id entry asked stack := by
  refine ⟨hnodup, hframes, ?_⟩
  have hsubset : (stack.toFinset : Set String) ⊆ w.frameTexts id entry asked := fun t ht =>
    hframes t (List.mem_toFinset.1 ht)
  calc (stack.length : ℕ∞) = stack.toFinset.card := by rw [List.toFinset_card_of_nodup hnodup]
    _ = (stack.toFinset : Set String).encard := (Set.encard_coe_eq_coe_finsetCard _).symm
    _ ≤ (w.frameTexts id entry asked).encard := Set.encard_le_encard hsubset

end World

/-- What is left of a plan keeps to what the plan keeps to, in a world to which only something was
added. -/
theorem Plan.Leaves.follows {entry : Graph} {asked : String} {x rest : Plan α}
    {Q : World → α → Prop} (h : x.Leaves σ k stack w rest w')
    (hx : x.Follows (concerning σ.id entry asked) Q w) :
    Extends σ.id w w' ∧ rest.Follows (concerning σ.id entry asked) Q w' := by
  induction h with
  | whole => exact ⟨.refl _, hx⟩
  | @answered goal _ r _ w w' _ ha _ ih =>
    have hgrows := grows_answer (σ := σ) k goal stack w
    rw [ha] at hgrows
    have hanswered : (gating σ.id entry).answered w' goal r := answered_of_answer ha
    have hrest := ih (hx.2 w' r hgrows.toExtends hanswered)
    exact ⟨hgrows.toExtends.trans hrest.1, hrest.2⟩
  | @acted action _ r _ w w' _ ha _ ih =>
    have hgrows := grows_act (σ := σ) action stack w
    rw [ha] at hgrows
    have hacted : (gating σ.id entry).acted w' action r := acted_of_act ha
    have hrest := ih (hx.2 w' r hgrows.toExtends hacted)
    exact ⟨hgrows.toExtends.trans hrest.1, hrest.2⟩

/-! ### Moments inside an evaluation -/

namespace Moment

variable {entry : Graph} {asked : String} {frames : List Frame} {m m' start : Moment}

/-- At a moment, the stack holds the frames that have been entered. They are pairwise distinct, and
they and the goal are about names that are looked up, in scopes that have been reached. -/
structure Stands (σ : Setting) (entry : Graph) (asked : String) (frames : List Frame)
    (m : Moment) : Prop where
  /-- The stack holds the frames. -/
  stack : m.stack = frames.map Frame.text
  /-- They are pairwise distinct. -/
  distinct : m.stack.Nodup
  /-- They are about names that are looked up. -/
  frames : ∀ f ∈ frames, m.world.Concerns σ.id entry asked (.frame f)
  /-- So is the goal. -/
  goal : m.world.Concerns σ.id entry asked m.goal

theorem Stands.stacks (h : m.Stands σ entry asked frames) :
    m.world.Stacks σ.id entry asked m.stack := by
  refine stacks_of_frames h.distinct fun t ht => ?_
  rw [h.stack] at ht
  obtain ⟨f, hf, rfl⟩ := List.mem_map.1 ht
  exact ⟨f, h.frames f hf, rfl⟩

/-- A frame that is not on the stack is entered, so the frames stay pairwise distinct. -/
theorem Stands.distinct_handed (h : m.Stands σ entry asked frames)
    (hfresh : ∀ f ∈ m.goal.frames, f.text ∉ m.stack) : m.handed.Nodup := by
  unfold handed
  cases hgoal : m.goal with
  | primary scope name => simpa [Goal.frames] using h.distinct
  | frame f =>
    rw [hgoal] at hfresh
    have hf : f.text ∉ m.stack := hfresh f (List.mem_singleton.2 rfl)
    exact List.nodup_append_comm.1 (List.nodup_cons.2 ⟨hf, h.distinct⟩)

/-- The frame that is entered is about the name of the goal. -/
theorem Stands.frames_handed (h : m.Stands σ entry asked frames) :
    ∀ f ∈ frames ++ m.goal.frames, m.world.Concerns σ.id entry asked (.frame f) := by
  refine List.forall_mem_append.2 ⟨h.frames, fun f hf => ?_⟩
  have hgoal := h.goal
  revert hf hgoal
  cases m.goal with
  | primary scope name => exact nofun
  | frame g =>
    intro hf hgoal
    obtain rfl := List.mem_singleton.1 hf
    exact hgoal

/-- The frames on the stack with which the plan of the goal is run. -/
theorem Stands.stacks_handed (h : m.Stands σ entry asked frames)
    (hfresh : ∀ f ∈ m.goal.frames, f.text ∉ m.stack) :
    m.handed = (frames ++ m.goal.frames).map Frame.text ∧
      m.world.Stacks σ.id entry asked m.handed := by
  have hhanded : m.handed = (frames ++ m.goal.frames).map Frame.text := by
    rw [handed, h.stack, List.map_append]
  refine ⟨hhanded, stacks_of_frames (h.distinct_handed hfresh) fun t ht => ?_⟩
  rw [hhanded] at ht
  obtain ⟨f, hf, rfl⟩ := List.mem_map.1 ht
  exact ⟨f, h.frames_handed f hf, rfl⟩

/-- The answer at a moment asks for a name that is looked up, so the next moment is like this one
with the frame of the goal on the stack. -/
theorem Stands.next (h : m.Stands σ entry asked frames) (hnext : m.Next σ m') :
    m'.Stands σ entry asked (frames ++ m.goal.frames) := by
  obtain ⟨hstack, next, hruns⟩ := hnext.runs
  obtain ⟨k, -, hleaves⟩ := hruns.leaves
  obtain ⟨hextends, hask⟩ := hleaves.follows (plan_follows_concerning h.goal)
  obtain ⟨hhanded, hdistinct, -⟩ := h.stacks_handed hruns.fresh
  exact ⟨hstack.trans hhanded, hstack ▸ hdistinct,
    fun f hf => (h.frames_handed f hf).mono hextends, hask.1⟩

theorem Inside.stands (hstart : start.Stands σ entry asked []) (h : Inside σ start frames m) :
    m.Stands σ entry asked frames := by
  induction h with
  | start => exact hstart
  | next _ hnext ih => exact ih.next hnext

theorem Inside.arises (h : Inside σ start frames m) : ReflTransGen (Next σ) start m := by
  induction h with
  | start => exact .refl
  | next _ hnext ih => exact ih.tail hnext

end Moment

/-! ### Recursions -/

namespace EvalM

variable {entry : Graph} {asked : String} {chain : List String}

/-- A plan that ends in a recursion has asked for a goal whose answer ends in it. -/
theorem asks_of_recursion {Q : World → α → Prop} {x : Plan α}
    (hx : x.Follows (concerning σ.id entry asked) Q w)
    (h : ((x.run (handler σ) ((handler σ).answer k)).exec stack w).1 =
      .error (.failed (.recursion chain))) :
    ∃ goal w', x.Asks σ k stack w goal w' ∧
      (((handler σ).answer k goal).exec stack w').1 = .error (.failed (.recursion chain)) := by
  induction x generalizing w with
  | done a => cases h
  | fail error =>
    cases h
    cases hx
  | perform action next ih =>
    have hact : (handler σ).perform action = act σ action := rfl
    rw [Plan.run, exec_bind, hact] at h
    have hends : Ends True ((act σ action).exec stack w).1 := ends_act action w
    have hgrows := grows_act (σ := σ) action stack w
    rcases hr : (act σ action).exec stack w with ⟨halt | r, w'⟩
    · rw [hr] at h hends
      cases h
      exact absurd rfl (hends.descends chain)
    · rw [hr] at h hgrows
      have hacted : (gating σ.id entry).acted w' action r := acted_of_act hr
      obtain ⟨goal, w'', hasks, hgoal⟩ := ih r (hx.2 w' r hgrows.toExtends hacted) h
      exact ⟨goal, w'', .acted hr hasks, hgoal⟩
  | ask goal next ih =>
    rw [Plan.run, exec_bind] at h
    have hgrows := grows_answer (σ := σ) k goal stack w
    rcases hr : ((handler σ).answer k goal).exec stack w with ⟨halt | r, w'⟩
    · rw [hr] at h
      cases h
      exact ⟨goal, w, .here, congrArg Prod.fst hr⟩
    · rw [hr] at h hgrows
      have hanswered : (gating σ.id entry).answered w' goal r := answered_of_answer hr
      obtain ⟨goal', w'', hasks, hgoal⟩ := ih r (hx.2 w' r hgrows.toExtends hanswered) h
      exact ⟨goal', w'', .answered hr hasks, hgoal⟩

/-- A recursion arises at a moment inside the evaluation whose goal is a frame on the stack. -/
theorem recursion_arises {start : Moment} (hstart : start.Stands σ entry asked [])
    {frames : List Frame} (hin : Moment.Inside σ start frames ⟨k, goal, stack, w⟩)
    (h : (((handler σ).answer k goal).exec stack w).1 = .error (.failed (.recursion chain))) :
    ∃ frames m f, Moment.Inside σ start frames m ∧ m.goal = .frame f ∧ f.text ∈ m.stack ∧
      chain = m.stack ++ [f.text] := by
  induction k generalizing goal stack w frames with
  | zero => cases h
  | succ k ih =>
    have hplan := plan_follows_concerning (hin.stands hstart).goal
    cases goal with
    | primary scope name =>
      have h : (((scope.fromPrimary name).run (handler σ) ((handler σ).answer k)).exec stack w).1 =
        .error (.failed (.recursion chain)) := h
      obtain ⟨goal', w', hasks, hgoal⟩ := asks_of_recursion hplan h
      exact ih (hin.next (.primary hasks)) hgoal
    | frame f =>
      have h : (((handler σ).visit f (f.plan.run (handler σ) ((handler σ).answer k))).exec
        stack w).1 = .error (.failed (.recursion chain)) := h
      rw [exec_visit] at h
      by_cases hs : stack.contains f.text = true
      · rw [if_pos hs] at h
        cases h
        exact ⟨frames, _, f, hin, rfl, List.contains_iff_mem.1 hs, rfl⟩
      rw [if_neg hs] at h
      cases hc : w.cells.get? f.text with
      | some v =>
        rw [hc] at h
        cases h
      | none =>
        rw [hc] at h
        have hinside : ((f.plan.run (handler σ) ((handler σ).answer k)).exec
            (stack ++ [f.text]) w).1 = .error (.failed (.recursion chain)) := by
          rcases hr : (f.plan.run (handler σ) ((handler σ).answer k)).exec
            (stack ++ [f.text]) w with ⟨halt | v, w'⟩
          · rw [hr] at h
            exact h
          · rw [hr] at h
            cases h
        obtain ⟨goal', w', hasks, hgoal⟩ := asks_of_recursion hplan hinside
        exact ih (hin.next (.frame hs hc hasks)) hgoal

end EvalM

/-! ### Executions -/

/-- A fetch starts with an empty stack. -/
theorem Execution.stands_moment (x : Execution) (e : Engine) (loader : Loader) (budget : Nat)
    (name : String) :
    (x.moment e budget name).Stands (x.setting loader) x.graph name [] :=
  ⟨rfl, List.nodup_nil, nofun, .entry, .inl rfl, trivial⟩

/-- **The frames on a stack are pairwise distinct.** To whatever moment a fetch comes, from whatever
cells and engine, the stack there holds the frames that were entered on the way, the outermost
first. They are pairwise distinct frames of the scopes that have been reached, and at most as many
as there are. So are those with which the plan of the goal is run, up to its end: for a name that is
its proper definition with its gate, the sites with theirs and their templates, and its default; for
a definition its expression. There are finitely many such frames where the modules compile.

So in the chain of a recursion that a fetch returns, the frames before the last one are pairwise
distinct, and the last one is exactly one of them. -/
theorem frames_on_stack_distinct (x : Execution) (e : Engine) (loader : Loader) (budget : Nat)
    (name : String) :
    (∀ frames m, Moment.Inside (x.setting loader) (x.moment e budget name) frames m →
      m.stack = frames.map Frame.text ∧ m.world.Stacks x.id x.graph name m.stack ∧
        ∀ rest w, m.Runs (x.setting loader) rest w →
          m.handed = (frames ++ m.goal.frames).map Frame.text ∧
            m.world.Stacks x.id x.graph name m.handed) ∧
    (∀ path c, loader.compile path = .ok c → c.graph = x.graph → e.Consistent loader x.id →
      ∀ frames m, Moment.Inside (x.setting loader) (x.moment e budget name) frames m →
        (m.world.frameTexts x.id x.graph name).Finite) ∧
    ∀ chain, (x.fetchWithin budget e loader name).1 = .error (.failed (.recursion chain)) →
      ∃ entered last, chain = entered ++ [last] ∧ entered.Nodup ∧ entered.count last = 1 ∧
        ∃ frames m f, Moment.Inside (x.setting loader) (x.moment e budget name) frames m ∧
          m.goal = .frame f ∧ entered = frames.map Frame.text ∧ last = f.text := by
  have hstart := x.stands_moment e loader budget name
  refine ⟨fun frames m hin => ?_, fun path c hc hgraph he frames m hin => ?_,
    fun chain hchain => ?_⟩
  · have hm := hin.stands hstart
    exact ⟨hm.stack, hm.stacks, fun rest w hruns => hm.stacks_handed hruns.fresh⟩
  · have hvalid : (x.moment e budget name).Valid (x.setting loader) := ⟨trivial, he⟩
    have hm := (hvalid.arises hin.arises).consistent
    -- All graphs come from the compiler, so their sites take names.
    refine finite_frameTexts ?_ name
    rintro g (rfl | ⟨p, hp⟩)
    · exact hgraph ▸ takesNames_of_compile hc
    · obtain ⟨c', hc', rfl⟩ := Engine.compile_of_outcome (hm p _ hp)
      exact takesNames_of_compile hc'
  · obtain ⟨frames, m, f, hin, hgoal, hmem, rfl⟩ :=
      EvalM.recursion_arises hstart Moment.Inside.start hchain
    have hm := hin.stands hstart
    exact ⟨m.stack, f.text, rfl, hm.distinct, List.count_eq_one_of_mem hm.distinct hmem, frames, m,
      f, hin, hgoal, hm.stack, rfl⟩

/-- A default that takes a name from a module, which takes it from the default in turn. -/
def mirrored : Bundle :=
  .ofList [
    ("main", "INCLUDE \"features/${Action}\"; LET Thing := Other DEFAULT;"),
    ("features/login", "LET Other := Thing;")]

/-- The frames that are entered on the way. -/
def mirroredFrames : List String :=
  ["main::Thing", "main::Thing#default", "main::Other", "main|features/login::Other#primary",
    "main|features/login::Thing"]

/-- A fetch of the default comes back to it through the module, and to no other frame. -/
theorem mirrored_comes_back : ∃ c, mirrored.loader.compile "main" = .ok c ∧
    let x := Execution.start .start c.graph (.ofList [("Action", .string "login")])
    (x.1.fetchWithin 20 x.2 mirrored.loader "Thing").1 =
        .error (.failed (.recursion (mirroredFrames ++ ["main::Thing"]))) ∧
      mirroredFrames.count "main::Thing" = 1 ∧
      ∃ frames m f,
        Moment.Inside (x.1.setting mirrored.loader) (x.1.moment x.2 20 "Thing") frames m ∧
          m.goal = .frame f ∧ mirroredFrames = frames.map Frame.text ∧ "main::Thing" = f.text := by
  have heval : (mirrored.loader.compile "main").toOption.map (fun c =>
      let x := Execution.start .start c.graph (.ofList [("Action", .string "login")])
      recursionChain? (x.1.fetchWithin 20 x.2 mirrored.loader "Thing").1) =
        some (some (mirroredFrames ++ ["main::Thing"])) := by
    decide +kernel
  obtain ⟨c, hc, hchain⟩ := Option.map_eq_some_iff.1 heval
  refine ⟨c, eq_ok_of_toOption hc, ?_⟩
  unfold recursionChain? at hchain
  dsimp only at hchain
  split at hchain
  · rename_i hanswer
    obtain rfl := Option.some.inj hchain
    obtain ⟨-, -, hrecursion⟩ := frames_on_stack_distinct _ _ mirrored.loader 20 "Thing"
    obtain ⟨entered, last, hlast, -, hcount, hat⟩ := hrecursion _ hanswer
    obtain ⟨rfl, hsame⟩ := List.append_inj' hlast rfl
    obtain rfl := List.singleton_inj.1 hsame
    exact ⟨hanswer, hcount, hat⟩
  · cases hchain

end GatedRules
