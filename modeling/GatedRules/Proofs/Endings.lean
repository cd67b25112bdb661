import GatedRules.Proofs.Budgets
import GatedRules.Proofs.Descent
import GatedRules.Proofs.Hosts
import GatedRules.Source.Bundle

/-!
# Requests end

If modules can be ranked so that ranks fall from every module that an execution comes to, to those
at its sites, then every request ends, with a value or an error (`fetch_ends`). Neither the depth of
scopes nor the size of what is left to evaluate decreases on the way: names are looked up in the
scope around, and from there in modules at sites again. Nor are there only finitely many scopes to
come to, since a module is found under any spelling of its path.

What does decrease is this. At every moment there is one chain of scopes, from the entry module to
the scope at hand, and no frame is entered while it is on the stack. So whoever leaves a module and
comes to another one in its place has entered a frame of a scope further out in between. The frames
that are yet to be entered in the scopes of the chain are therefore counted with weights that fall
inwards (`Scope.reserve`): one frame of a scope outweighs all that can happen in the scopes inside
of it. This bounds how deeply goals depend on each other by a number that only takes how many names
there are to look up, and the rank of the entry module.

Stateful calls do not matter, nor does what other executions do meanwhile.
-/

namespace GatedRules

open EvalM Relation

/-! ### Names that are looked up -/

/-- The names that a statement leads to being looked up. -/
def Statement.lookups : Statement → List String
  | binding _ expr _ _ => expr.mentions
  | inclusion directive => directive.target.inputs ++
    directive.condition.toList.flatMap fun e => e.asName?.getD e.text :: e.mentions

/-- The names that modules of a loader look up, under whatever path they are compiled. -/
def Loader.lookups (loader : Loader) : List String :=
  loader.statements.flatMap Statement.lookups

theorem Loader.isMadeOf_lookups (loader : Loader) :
    loader.IsMadeOf (.lookups (· ∈ loader.lookups)) := by
  refine Loader.isMadeOf_of_statements fun s hs => ?_
  have hmem : ∀ n ∈ s.lookups, n ∈ loader.lookups :=
    fun n hn => List.mem_flatMap.2 ⟨s, hs, hn⟩
  cases s with
  | binding name expr isDefault line => exact hmem
  | inclusion directive =>
    have hcondition : ∀ e ∈ directive.condition, ∀ n ∈ e.asName?.getD e.text :: e.mentions,
        n ∈ loader.lookups := fun e he n hn =>
      hmem n (List.mem_append_right _ (List.mem_flatMap.2 ⟨e, Option.mem_toList.2 he, hn⟩))
    exact ⟨fun n hn => hmem n (List.mem_append_left _ hn), fun e he =>
      List.forall_mem_cons.1 (hcondition e he)⟩

theorem lookups_subset_of_outcome {loader : Loader} {path : String} {g : Graph}
    (h : Engine.outcome loader path = .ok (.resolved g)) : g.lookups ⊆ loader.lookups := by
  obtain ⟨c, hc, rfl⟩ := Engine.compile_of_outcome h
  exact (isMadeOf_of_compile hc loader.isMadeOf_lookups).lookups

/-! ### Frames that are yet to be entered -/

namespace Scope

/-- The texts of the frames of a scope, for some names, that are not on the stack. -/
def yet (names stack : List String) (s : Scope) : Finset String :=
  (frameTexts [s] names).toFinset \ stack.toFinset

variable {names stack : List String} {text : String} {s : Scope} {depth : Nat}

theorem card_yet_le (names stack : List String) (s : Scope) :
    (s.yet names stack).card ≤ names.length * 3 := by
  refine (Finset.card_le_card Finset.sdiff_subset).trans ?_
  refine (List.toFinset_card_le _).trans ?_
  rw [length_frameTexts, List.length_singleton, Nat.one_mul]

theorem yet_append (names stack : List String) (text : String) (s : Scope) :
    s.yet names (stack ++ [text]) = (s.yet names stack).erase text := by
  ext t
  simp only [yet, Finset.mem_sdiff, Finset.mem_erase, List.mem_toFinset, List.mem_append,
    List.mem_singleton]
  tauto

/-- What one frame further out outweighs: more than all frames of a scope, taken twice. -/
def base (names : List String) : Nat :=
  2 * (names.length * 3) + 2

theorem base_pow_pos (names : List String) (k : Nat) : 0 < base names ^ k :=
  Nat.pow_pos (Nat.succ_pos _)

/-- The frames that are yet to be entered in a chain of scopes, each taken twice, with weights that
fall inwards. -/
def reserve (names stack : List String) (depth : Nat) : List Graph → Nat
  | [] => 0
  | g :: gs =>
    2 * (Scope.yet names stack ⟨g, gs⟩).card * base names ^ (depth - gs.length) +
      reserve names stack depth gs

/-- The more there is on the stack, the less is to be entered. -/
theorem reserve_append_le (names stack : List String) (text : String) (depth : Nat)
    (gs : List Graph) :
    reserve names (stack ++ [text]) depth gs ≤ reserve names stack depth gs := by
  induction gs with
  | nil => exact Nat.le_refl _
  | cons g gs ih =>
    have hcard : (Scope.yet names (stack ++ [text]) ⟨g, gs⟩).card ≤
        (Scope.yet names stack ⟨g, gs⟩).card := by
      rw [yet_append]
      exact Finset.card_le_card (Finset.erase_subset _ _)
    exact Nat.add_le_add (Nat.mul_le_mul_right _ (Nat.mul_le_mul_left 2 hcard)) ih

/-- Entering a frame takes two units of its scope. -/
theorem reserve_enter {g : Graph} {gs : List Graph}
    (htext : text ∈ frameTexts [⟨g, gs⟩] names) (hs : text ∉ stack) :
    reserve names (stack ++ [text]) depth (g :: gs) + 2 * base names ^ (depth - gs.length) ≤
      reserve names stack depth (g :: gs) := by
  have hmem : text ∈ Scope.yet names stack ⟨g, gs⟩ := by
    rw [yet, Finset.mem_sdiff, List.mem_toFinset, List.mem_toFinset]
    exact ⟨htext, hs⟩
  have hcard : (Scope.yet names (stack ++ [text]) ⟨g, gs⟩).card + 1 =
      (Scope.yet names stack ⟨g, gs⟩).card := by
    rw [yet_append]
    exact Finset.card_erase_add_one hmem
  have hrest := reserve_append_le names stack text depth gs
  rw [reserve, reserve, ← hcard, Nat.mul_add, Nat.add_mul]
  omega

/-- All that can happen in a scope, and once more a unit for it, is less than one unit of the scope
around. -/
theorem reserve_child_lt {s : Scope} {g : Graph} (hdepth : (s.child g).around.length ≤ depth) :
    reserve names stack depth (g :: s.graph :: s.around) +
        base names ^ (depth - (s.child g).around.length) <
      reserve names stack depth (s.graph :: s.around) +
        base names ^ (depth - s.around.length) := by
  have hlength : (s.child g).around.length = s.around.length + 1 := rfl
  have hexponent : depth - s.around.length = depth - (s.child g).around.length + 1 := by omega
  have hcard := card_yet_le names stack (s.child g)
  have hunits : (2 * (yet names stack (s.child g)).card + 1) *
        base names ^ (depth - (s.child g).around.length) <
      base names * base names ^ (depth - (s.child g).around.length) := by
    refine Nat.mul_lt_mul_of_pos_right ?_ (base_pow_pos names _)
    unfold base
    omega
  rw [Nat.add_mul, Nat.one_mul] at hunits
  rw [hexponent, Nat.pow_succ']
  change 2 * (yet names stack (s.child g)).card *
    base names ^ (depth - (s.child g).around.length) + _ + _ < _
  omega

end Scope

namespace Goal

variable {names stack : List String} {depth : Nat} {goal goal' : Goal}

/-- How deeply goals below a goal can depend on each other. -/
def reserve (names stack : List String) (depth : Nat) (goal : Goal) : Nat :=
  Scope.reserve names stack depth (goal.scope.graph :: goal.scope.around) +
    match goal with
    | frame _ => 0
    | primary s _ => Scope.base names ^ (depth - s.around.length)

/-- The units of its scope that are at the disposal of a goal: a frame that is entered sets two of
them free. -/
def units : Goal → Nat
  | frame _ => 2
  | primary _ _ => 1

/-- A goal takes less than what is at the disposal of one that leads to it. -/
theorem Leads.reserve_lt {loader : Loader} (h : goal.Leads loader goal')
    (hdepth : goal'.scope.around.length ≤ depth) :
    goal'.reserve names stack depth <
      Scope.reserve names stack depth (goal.scope.graph :: goal.scope.around) +
        goal.units * Scope.base names ^ (depth - goal.scope.around.length) := by
  have hunit : Scope.base names ^ (depth - goal.scope.around.length) ≤
      goal.units * Scope.base names ^ (depth - goal.scope.around.length) := by
    refine Nat.le_mul_of_pos_left _ ?_
    cases goal <;> exact Nat.succ_pos _
  have hpos := Scope.base_pow_pos names (depth - goal.scope.around.length)
  have hsame : Scope.reserve names stack depth (goal.scope.graph :: goal.scope.around) <
      Scope.reserve names stack depth (goal.scope.graph :: goal.scope.around) +
        goal.units * Scope.base names ^ (depth - goal.scope.around.length) :=
    Nat.lt_add_of_pos_right (Nat.lt_of_lt_of_le hpos hunit)
  cases h with
  | lookup => exact hsame
  | definition => exact hsame
  | @primary s n =>
    -- Of two units that a frame sets free, the value from a module takes one.
    refine Nat.add_lt_add_left ?_ _
    change Scope.base names ^ (depth - s.around.length) <
      2 * Scope.base names ^ (depth - s.around.length)
    exact (Nat.lt_mul_iff_one_lt_left hpos).2 Nat.one_lt_two
  | around => exact Nat.lt_of_le_of_lt (Nat.le_add_left _ _) hsame
  | child => exact Nat.lt_of_lt_of_le (Scope.reserve_child_lt hdepth) (Nat.add_le_add_left hunit _)

end Goal

/-! ### Evaluations that finish -/

namespace EvalM

variable {σ : Setting} {k : Nat} {stack : List String} {w : World} {α : Type}

/-- A plan finishes if the answers to all goals do for which it asks. -/
theorem finished_run_of_asks {x : Plan α} (h : ∀ goal w', x.Asks σ k stack w goal w' →
      Finished (((handler σ).answer k goal).exec stack w').1) :
    Finished ((x.run (handler σ) ((handler σ).answer k)).exec stack w).1 := by
  induction x generalizing w with
  | done a => exact finished_ok a
  | fail error => exact finished_failed error
  | perform action next ih =>
    have hact : Ends True ((act σ action).exec stack w).1 := ends_act action w
    exact finished_bind (hact.finished trivial) fun r w' hr =>
      ih r fun goal w'' ha => h goal w'' (.acted hr ha)
  | ask goal next ih =>
    exact finished_bind (h goal w .here) fun r w' hr =>
      ih r fun goal' w'' ha => h goal' w'' (.answered hr ha)

end EvalM

/-- The text of a frame is one of those for its name in its scope. -/
theorem Frame.text_mem {f : Frame} {names : List String} (h : (Goal.frame f).name ∈ names) :
    f.text ∈ Scope.frameTexts [f.scope] names := by
  cases f with
  | name s n => exact Scope.mem_frameTexts (List.mem_singleton_self s) h none
  | definition s n rank d => exact Scope.mem_frameTexts (List.mem_singleton_self s) h (some rank)

/-- **A moment finishes** if there is more budget than goals below its goal can depend on each
other, where certain names are asked for and scopes have a certain depth. -/
theorem Moment.finished {σ : Setting} {names : List String} {depth : Nat} {m : Moment}
    (hm : m.Valid σ)
    (hreach : ∀ m', ReflTransGen (Next σ) m m' →
      m'.goal.name ∈ names ∧ m'.goal.scope.around.length ≤ depth)
    (hbudget : m.goal.reserve names m.stack depth < m.budget) : Finished (m.exec σ).1 := by
  obtain ⟨k, goal, stack, w⟩ := m
  induction k generalizing goal stack w with
  | zero => exact absurd hbudget (Nat.not_lt_zero _)
  | succ k ih =>
    have hnext : ∀ {goal' stack' w'},
        Next σ ⟨k + 1, goal, stack, w⟩ ⟨k, goal', stack', w'⟩ →
        Scope.reserve names stack' depth (goal.scope.graph :: goal.scope.around) +
          goal.units * Scope.base names ^ (depth - goal.scope.around.length) ≤
            goal.reserve names stack depth →
        Finished (((handler σ).answer k goal').exec stack' w').1 := by
      intro goal' stack' w' hnext hunits
      have hlt : goal'.reserve names stack' depth < _ :=
        (hnext.leads hm).1.reserve_lt (hreach _ (.single hnext)).2
      exact ih goal' stack' w' (hnext.leads hm).2 (fun m' hm' => hreach m' (.head hnext hm'))
        (Nat.lt_of_lt_of_le (Nat.lt_of_lt_of_le hlt hunits) (Nat.le_of_lt_succ hbudget))
    cases goal with
    | primary s n =>
      refine finished_run_of_asks fun goal' w' ha => hnext (.primary ha) ?_
      rw [Goal.units, Nat.one_mul]
      exact Nat.le_refl _
    | frame f =>
      refine finished_visit fun hs hc => finished_run_of_asks fun goal' w' ha =>
        hnext (.frame hs hc ha) ?_
      have htext := Frame.text_mem (hreach _ .refl).1
      exact Scope.reserve_enter htext fun hmem => hs (List.contains_iff_mem.2 hmem)

/-! ### Ranked modules -/

namespace Scope.Nested

variable {r : Graph → Graph → Prop} {entry : Graph} {s : Scope}

/-- Modules of falling ranks nest no deeper than the rank of the entry module. -/
theorem around_le {rank : String → Nat} (h : s.Nested r entry)
    (hr : ∀ p g, r p g → rank g.root < rank p.root) :
    rank s.graph.root + s.around.length ≤ rank entry.root := by
  induction h with
  | entry => exact Nat.le_refl _
  | @child s g _ hrel ih =>
    have hlt := hr s.graph g hrel
    change rank g.root + (s.around.length + 1) ≤ rank entry.root
    omega

theorem lookups {names : List String} (h : s.Nested r entry)
    (hr : ∀ p g, r p g → g.lookups ⊆ names) : s.graph.lookups ⊆ entry.lookups ++ names := by
  cases h with
  | entry => exact List.subset_append_left _ _
  | child _ hrel => exact List.Subset.trans (hr _ _ hrel) (List.subset_append_right _ _)

theorem graph (h : s.Nested r entry) : ReflTransGen r entry s.graph := by
  induction h with
  | entry => exact .refl
  | child _ hrel ih => exact ih.tail hrel

end Scope.Nested

theorem Loader.MayInclude.lookups {loader : Loader} {p g : Graph} (h : loader.MayInclude p g) :
    g.lookups ⊆ loader.lookups := by
  obtain ⟨_, -, _, _, -, ho⟩ := h
  exact lookups_subset_of_outcome ho

/-- If ranks fall from every module that can be included to those that it can include, then they do
where executions come to. -/
theorem Loader.Visits.rank_lt {loader : Loader} {graph : Graph} {inputs : Table String Value}
    {rank : String → Nat}
    (hrank : ∀ p g, ReflTransGen loader.MayInclude graph p → loader.MayInclude p g →
      rank g.root < rank p.root) {g p : Graph} {gs : List Graph}
    (hv : loader.Visits graph inputs ⟨g, p :: gs⟩) : rank g.root < rank p.root := by
  cases hv.nested with
  | child h hinclude => exact hrank _ _ h.graph hinclude

/-- Executions ask for a name that is asked for from outside, or that a module looks up. -/
theorem Execution.Arises.name_mem {loader : Loader} {x : Execution} {e : Engine} {budget : Nat}
    {name : String} {m : Moment} (hx : x.Arises loader e)
    (hm : ReflTransGen (Moment.Next (x.setting loader)) (x.moment e budget name) m) :
    m.goal.name ∈ name :: (x.graph.lookups ++ loader.lookups) := by
  induction hm with
  | refl => exact List.mem_cons_self
  | @tail m' m'' hm' hnext ih =>
    have hleads := (hnext.leads ((hx.valid budget name).arises hm')).1
    have hnested := (hx.visits hm').nested
    generalize m''.goal = goal' at hleads
    generalize m'.goal = goal at hleads hnested ih
    cases hleads with
    | lookup hn =>
      exact List.mem_cons_of_mem _ (hnested.lookups (fun _ _ => Loader.MayInclude.lookups) hn)
    | _ => exact ih

/-- **Every request ends** if modules can be ranked so that ranks fall from every module that
executions come to, to those at its sites. There is a budget that is enough for all names in all
executions of a graph against inputs, whatever has been served before, and a larger one makes no
difference. -/
theorem fetch_ends {loader : Loader} {graph : Graph} {inputs : Table String Value}
    {rank : String → Nat}
    (hrank : ∀ g p gs, loader.Visits graph inputs ⟨g, p :: gs⟩ → rank g.root < rank p.root) :
    ∃ enough, ∀ x e, Execution.Arises loader x e → x.graph = graph → x.inputs = inputs →
      ∀ name budget, enough ≤ budget →
        Finished (x.fetchWithin budget e loader name).1 ∧
          x.fetchWithin budget e loader name = x.fetchWithin enough e loader name := by
  let frames := ((graph.lookups ++ loader.lookups).length + 1) * 3
  let depth := rank graph.root
  refine ⟨2 * frames * (2 * frames + 2) ^ depth + 1, ?_⟩
  rintro x e hx rfl rfl name budget hbudget
  have hfinished : ∀ {k}, 2 * frames * (2 * frames + 2) ^ depth < k →
      Finished (x.fetchWithin k e loader name).1 := by
    intro k hk
    let names := name :: (x.graph.lookups ++ loader.lookups)
    have hreach : ∀ m, ReflTransGen (Moment.Next (x.setting loader)) (x.moment e k name) m →
        m.goal.name ∈ names ∧ m.goal.scope.around.length ≤ depth := by
      refine fun m hm => ⟨hx.name_mem hm, ?_⟩
      have hnested : m.goal.scope.Nested (fun p g => rank g.root < rank p.root) x.graph :=
        hx.nested (fun g p gs hvisits _ => hrank g p gs hvisits) hm
      exact (Nat.le_add_left _ _).trans (hnested.around_le fun _ _ h => h)
    have hroom : (x.moment e k name).goal.reserve names [] depth ≤
        2 * frames * (2 * frames + 2) ^ depth :=
      Nat.mul_le_mul_right _ (Nat.mul_le_mul_left 2 (Scope.card_yet_le names [] _))
    exact Moment.finished (hx.valid k name) hreach (Nat.lt_of_le_of_lt hroom hk)
  refine ⟨hfinished hbudget, ?_⟩
  have hsame := repeats_answer hbudget (.frame (.name (.entry x.graph) name)) [] (x.world e)
    (hfinished (Nat.lt_succ_self _))
  exact congrArg (fun out => (out.1, x.resume out.2, out.2.engine)) hsame

/-- Statements without includes. -/
def Ingredients.leaf : Ingredients where
  binding _ _ := True
  condition _ := True
  target _ := False
  gate _ := True
  always := trivial
  and _ _ := trivial
  gateOf _ _ := trivial

/-- Where no module has an include, none can be included by another one. -/
theorem Loader.MayInclude.not_of_leaf {loader : Loader}
    (h : Statement.includes loader.statements = []) {path : String} {p g : Graph}
    (hp : Engine.outcome loader path = .ok (.resolved p)) : ¬ loader.MayInclude p g := by
  have hleaf : loader.IsMadeOf .leaf := by
    refine Loader.isMadeOf_of_statements fun s hs => ?_
    have hnone := List.filterMap_eq_nil_iff.1 h s hs
    cases s with
    | binding => trivial
    | inclusion => cases hnone
  obtain ⟨c, hc, rfl⟩ := Engine.compile_of_outcome hp
  rintro ⟨site, hsite, -⟩
  exact ((isMadeOf_of_compile hc hleaf).site hsite).1

/-- A letter that addresses its reader as the module for the kind of the reader has it. -/
def letter : Loader :=
  (Bundle.ofList [
    ("main", "LET Kind := input(); INCLUDE \"${Kind}\"; LET Title := concat(\"dear \", Name);")]).loader

/-- The modules for kinds of readers. -/
def readers : Loader :=
  (Bundle.ofList [
    ("guest", "LET Name := \"guest\";"),
    ("host", "LET Name := concat(\"host of \", Place);")]).loader

theorem readers_end : ∃ c, letter.compile "main" = .ok c ∧ ∀ inputs : Table String Value,
    let x := (Execution.start .start c.graph inputs).1
    let e := (Execution.start .start c.graph inputs).2
    ∃ enough, ∀ budget, enough ≤ budget →
      Finished (x.fetchWithin budget e readers "Title").1 := by
  have hroot : (letter.compile "main").toOption.map (fun c => c.graph.root) = some "main" := by
    decide +kernel
  have hleaf : Statement.includes readers.statements = [] := by decide +kernel
  have hpaths : "main" ∉ readers.paths := by decide +kernel
  obtain ⟨c, hc, hroot⟩ := Option.map_eq_some_iff.1 hroot
  -- The letter ranks above all modules for kinds, none of which includes another one.
  let rank (path : String) : Nat := if Path.canonical path = "main" then 1 else 0
  have hzero : ∀ {p g}, readers.MayInclude p g → rank g.root = 0 := by
    rintro p g ⟨_, -, _, _, -, ho⟩
    obtain ⟨c', hc', rfl⟩ := Engine.compile_of_outcome ho
    have hmem := (root_of_compile hc').2
    refine if_neg fun heq => hpaths ?_
    rw [heq] at hmem
    exact hmem
  have hrank : ∀ p g, ReflTransGen readers.MayInclude c.graph p → readers.MayInclude p g →
      rank g.root < rank p.root := by
    intro p g hp hg
    rw [hzero hg]
    cases hp with
    | refl =>
      rw [hroot]
      decide
    | tail _ hp =>
      obtain ⟨_, -, _, _, -, ho⟩ := hp
      exact absurd hg (Loader.MayInclude.not_of_leaf hleaf ho)
  refine ⟨c, eq_ok_of_toOption hc, fun inputs => ?_⟩
  have hvisits : ∀ g p gs, readers.Visits c.graph inputs ⟨g, p :: gs⟩ →
      rank g.root < rank p.root :=
    fun _ _ _ hv => Loader.Visits.rank_lt hrank hv
  obtain ⟨enough, hends⟩ := fetch_ends hvisits
  exact ⟨enough, fun budget hbudget =>
    (hends _ _ (Execution.arises_start Engine.numbered_start readers c.graph inputs) rfl rfl
      "Title" budget hbudget).1⟩

end GatedRules
