import GatedRules.Proofs.Budgets
import GatedRules.Proofs.Meaning

/-!
# Entry modules that settle names themselves

A site takes its target and its gate from names, and these names are bound: the sites of the graph
are not asked about them, nor about anything on which they depend (`Graph.bindsSites_of_dependency`,
`Graph.bindsSites_of_successor`). So the question where a site leads is settled without asking any
site, although sites are asked about all other names.

More generally, an entry module settles certain names (`Setting.Settles`) if these depend on each
other only, and never in a cycle, and if those about which sites are asked are above all that the
sites depend on, while no site leads anywhere. An evaluation of such a name stays in the entry
module, and asks for lower goals only. So it finishes within a budget above its height, and never
comes back to a frame that it has entered (`Settles.ends_plain`, `Settles.serve`).
-/

namespace GatedRules

/-! ### Names that sites depend on -/

namespace Dependency

variable {slots : Table String Slot}

/-- A name that was not seen yet is seen from then on, and what it depends on is pending. -/
theorem close_of_not_seen {name : String} {pending seen : List String}
    (h : ¬ seen.contains name = true) : close slots (name :: pending) seen =
      close slots (successors slots name ++ pending) (name :: seen) := by
  rw [close, if_neg h]
  cases hslot : slots.get? name with
  | none => simp [successors, hslot]
  | some slot => simp [successors, hslot]

/-- If all on which names seen depend is seen or pending, closing makes a set of names that depend
on each other only, and that holds the names seen and those pending. -/
theorem close_spec {pending seen : List String}
    (h : ∀ n ∈ seen, ∀ m ∈ successors slots n, m ∈ seen ∨ m ∈ pending) :
    (∀ n, n ∈ seen ∨ n ∈ pending → n ∈ close slots pending seen) ∧
      ∀ n ∈ close slots pending seen, ∀ m ∈ successors slots n,
        m ∈ close slots pending seen := by
  induction pending, seen using close.induct slots with
  | case1 seen =>
    rw [close]
    exact ⟨fun n hn => by simpa using hn, fun n hn m hm => by simpa using h n hn m hm⟩
  | case2 name pending seen hseen ih =>
    have hname : name ∈ seen := List.contains_iff_mem.1 hseen
    rw [close, if_pos hseen]
    obtain ⟨hall, hclosed⟩ := ih fun n hn m hm => by grind
    exact ⟨fun n hn => hall n (by grind), hclosed⟩
  | case3 name pending seen hseen hslot ih =>
    have hnone : successors slots name = [] := by rw [successors, hslot]; rfl
    rw [close_of_not_seen hseen, hnone, List.nil_append]
    obtain ⟨hall, hclosed⟩ := ih fun n hn m hm => by grind
    exact ⟨fun n hn => hall n (by grind), hclosed⟩
  | case4 name pending seen hseen slot hslot ih =>
    have hsome : successors slots name = slot.dependencies := by rw [successors, hslot]; rfl
    rw [close_of_not_seen hseen, hsome]
    obtain ⟨hall, hclosed⟩ := ih fun n hn m hm => by grind
    exact ⟨fun n hn => hall n (by grind), hclosed⟩

end Dependency

namespace Graph

variable {g : Graph} {n m : String}

/-- The names of templates and gates of sites are bound. -/
theorem bindsSites_of_dependency {site : Site} (hs : site ∈ g.sites) (hn : n ∈ site.dependencies) :
    g.bindsSites n = true := by
  have hpending : n ∈ g.sites.flatMap Site.dependencies := List.mem_flatMap.2 ⟨site, hs, hn⟩
  rw [bindsSites, g.bound_eq, List.contains_iff_mem]
  exact (Dependency.close_spec (by simp)).1 n (.inr hpending)

/-- What a bound name depends on is bound. -/
theorem bindsSites_of_successor (hn : g.bindsSites n = true)
    (hm : m ∈ Dependency.successors g.slots n) : g.bindsSites m = true := by
  rw [bindsSites, g.bound_eq, List.contains_iff_mem] at hn ⊢
  exact (Dependency.close_spec (by simp)).2 n hn m hm

end Graph

/-- Sites are not asked about bound names. -/
theorem Scope.not_bindsSites_of_asksSites {s : Scope} {n : String} (h : s.asksSites n = true) :
    ¬ s.graph.bindsSites n = true := by
  rw [asksSites, Bool.and_eq_true] at h
  simpa using h.2

/-- What a name depends on is looked up. -/
theorem Graph.mem_lookups_of_successor {g : Graph} {n m : String}
    (hm : m ∈ Dependency.successors g.slots n) : m ∈ g.lookups := by
  rw [Dependency.successors] at hm
  cases hslot : g.slots.get? n with
  | none =>
    rw [hslot] at hm
    cases hm
  | some slot =>
    rw [hslot] at hm
    exact mem_lookups_of_slot hslot hm

/-! ### Goals of the entry module -/

namespace Setting

variable {σ : Setting} {g : Graph} {p q : String → Prop} {rank : String → Nat}

/-- The goals about certain names, and about their definitions, in the scope of an entry module. -/
def AtEntry (g : Graph) (p : String → Prop) : Goal → Prop
  | .frame f => f.Within (.entry g) p
  | .primary scope n => scope = .entry g ∧ p n

/-- The goals of the entry module below a height. -/
def Lower (g : Graph) (p : String → Prop) (rank : String → Nat) (height : Nat) (goal : Goal) :
    Prop :=
  AtEntry g p goal ∧ goal.height rank < height

/-- The graph of an entry module settles certain names without any other module: they rank above
all that they need, and if sites are asked about them, no site leads anywhere. -/
structure Settles (σ : Setting) (g : Graph) (p : String → Prop) (rank : String → Nat) : Prop where
  /-- No definition is stateful. -/
  stateless : g.Stateless
  /-- Names rank above those on which they depend. -/
  descends : ∀ {n}, p n → ∀ m ∈ Dependency.successors g.slots n, p m ∧ rank m < rank n
  /-- Names about which sites are asked rank above those on which the sites depend. -/
  asks : ∀ {n}, p n → (Scope.entry g).asksSites n = true →
    ∀ site ∈ g.sites, ∀ m ∈ site.dependencies, p m ∧ rank m < rank n
  /-- Sites that are asked lead nowhere. -/
  strays : ∀ {n}, p n → (Scope.entry g).asksSites n = true →
    ∀ site ∈ g.sites, ∀ graph, ¬ σ.LeadsTo (.entry g) site graph

/-- What a name needs is lower. -/
theorem Settles.serves (h : σ.Settles g p rank) {name : String} {height : Nat} (hn : p name)
    (hh : 3 * rank name < height) :
    (σ.protocol (Lower g p rank height)).Serves (.entry g) name () where
  condition {_ d} hd c hc := by
    have hdefines : g.Defines name d := Scope.defines_of_definition? hd
    have hm := hdefines.mem_successors (Definition.mem_dependencies_of_gate hc)
    obtain ⟨hp, hlt⟩ := h.descends hn c.name hm
    refine ⟨⟨rfl, hp⟩, ?_⟩
    rw [Goal.height]
    omega
  definition hd _ _ := ⟨⟨rfl, hn, hd⟩, hh⟩
  site ha site hs m hm := by
    obtain ⟨hp, hlt⟩ := h.asks hn ha site hs m hm
    refine ⟨⟨rfl, hp⟩, ?_⟩
    rw [Goal.height]
    omega
  child ha site hs _ _ _ hl := absurd (leadsTo_of_protocol hl) (h.strays hn ha site hs _)
  resolve _ := nofun
  skip := nofun

/-- A goal of the entry module asks for lower ones only. -/
theorem Settles.plan_follows (h : σ.Settles g p rank) {goal : Goal} (hgoal : AtEntry g p goal) :
    goal.plan.Follows (σ.protocol (Lower g p rank (goal.height rank))) (fun _ _ => True) () := by
  cases goal with
  | primary scope name =>
    obtain ⟨rfl, hn⟩ := hgoal
    exact Scope.fromPrimary_follows (h.serves hn (Nat.lt_succ_self _))
  | frame f =>
    cases f with
    | name scope n =>
      obtain ⟨rfl, hn⟩ := hgoal
      have hlt : 3 * rank n < (Goal.frame (.name (.entry g) n)).height rank :=
        Nat.lt_add_of_pos_right (by decide)
      exact Scope.settle_follows (h.serves hn hlt) ⟨⟨rfl, hn⟩, Nat.lt_succ_self _⟩ nofun nofun
    | definition scope n r d =>
      obtain ⟨rfl, hn, hd⟩ := hgoal
      have hdefines : g.Defines n d := Scope.defines_of_definition? hd
      refine Expr.eval_follows d.expr ⟨fun m hm => ?_, nofun, fun hst => ?_⟩
      · have hm := hdefines.mem_successors (Definition.mem_dependencies_of_mentions hm)
        obtain ⟨hp, hlt⟩ := h.descends hn m hm
        refine ⟨⟨rfl, hp⟩, ?_⟩
        simp only [Goal.height]
        omega
      · rw [h.stateless.of_defines hdefines] at hst
        cases hst

/-- Goals of the entry module ask for no others, and frames are known by their texts. -/
theorem Settles.closed (h : σ.Settles g p rank) (hp : ∀ n, p n → Text.Sheltered n.toList) :
    σ.Closed (AtEntry g p) where
  follows hgoal := follows_permit (fun _ => And.left) (h.plan_follows hgoal)
  injective := Frame.Within.injective hp

/-! ### Evaluations -/

theorem ends_result {enough : Prop} {action : Action} (h : ∀ slot c, action ≠ .call slot c) :
    Ends enough (σ.result action) := by
  cases action with
  | input name => exact ends_ok _
  | call slot c => exact absurd rfl (h slot c)
  | skip => exact ends_ok _
  | resolve path =>
    change Ends enough ((Engine.outcome σ.loader (Path.canonical path)).mapError Halt.failed)
    unfold Engine.outcome
    split
    · exact ends_ok _
    · split
      · exact ends_ok _
      · exact ends_failed rfl

/-- A plain run ends with no recursion if all answers do that are asked for. -/
theorem ends_run_plain {α : Type} {enough : Prop} {may : Goal → Prop} {Q : Unit → α → Prop}
    {x : Plan α} {k : Nat} (hx : x.Follows (σ.protocol may) Q ())
    (hanswer : ∀ goal, may goal → Ends enough (σ.plain.answer k goal)) :
    Ends enough (x.run σ.plain (σ.plain.answer k)) := by
  induction x with
  | done a => exact ends_ok a
  | fail error => exact ends_failed hx
  | perform action next ih =>
    rw [run_plain_perform]
    have hresult : Ends enough (σ.result action) := ends_result hx.1
    cases hr : σ.result action with
    | error halt => exact (hr ▸ hresult).error
    | ok r => exact ih r (hx.2 () r trivial hr)
  | ask goal next ih =>
    rw [run_plain_ask]
    have hresult := hanswer goal hx.1
    cases hr : σ.plain.answer k goal with
    | error halt => exact (hr ▸ hresult).error
    | ok r => exact ih r (hx.2 () r trivial ⟨k, hr⟩)

/-- A plain evaluation of a goal of the entry module ends with no recursion, and a budget above the
height of the goal is enough. -/
theorem Settles.ends_plain (h : σ.Settles g p rank) (k : Nat) {goal : Goal}
    (hgoal : AtEntry g p goal) : Ends (goal.height rank < k) (σ.plain.answer k goal) := by
  induction k generalizing goal with
  | zero => exact ⟨nofun, fun hk => absurd hk (Nat.not_lt_zero _)⟩
  | succ k ih =>
    rw [plain_succ]
    refine ends_run_plain (h.plan_follows hgoal) fun goal' hgoal' => ?_
    have hlt := hgoal'.2
    exact (ih hgoal'.1).imp fun hk => by omega

/-- With a budget above its height, a goal of the entry module is answered as its plan says. -/
theorem Settles.plain_eq_run (h : σ.Settles g p rank) {k : Nat} {goal : Goal}
    (hgoal : AtEntry g p goal) (hk : goal.height rank < k) :
    σ.plain.answer k goal = goal.plan.run σ.plain (σ.plain.answer k) := by
  have hfinished := (h.ends_plain k hgoal).finished hk
  rw [← plain_succ, plain_mono (Nat.le_succ k) goal hfinished]

/-- In a sound world, an evaluation of a goal of the entry module finishes within a budget above the
height of the goal. -/
theorem Settles.finished_answer (h : σ.Settles g p rank)
    (hp : ∀ n, p n → Text.Sheltered n.toList) {k : Nat} {goal : Goal} (hgoal : AtEntry g p goal)
    (hk : goal.height rank < k) {w : World} (hw : w.Sound σ (AtEntry g p)) (stack : List String) :
    Finished (((EvalM.handler σ).answer k goal).exec stack w).1 := by
  induction k generalizing goal stack w with
  | zero => exact absurd hk (Nat.not_lt_zero _)
  | succ k ih =>
    have hrun : ∀ stack, Finished
        ((goal.plan.run (EvalM.handler σ) ((EvalM.handler σ).answer k)).exec stack w).1 := by
      intro stack
      refine EvalM.finished_run (h.closed hp) (fun _ => And.left) (h.plan_follows hgoal)
        (fun goal' w hgoal' hw => ?_) hw
      have hlt := hgoal'.2
      exact ih hgoal'.1 (by omega) hw stack
    cases goal with
    | primary scope name => exact hrun stack
    | frame f => exact EvalM.finished_visit fun _ _ => hrun _

end Setting

/-- With enough budget, a session answers as plain evaluations do, if its requests are for names
that the entry module settles. -/
theorem Execution.serve_settled {x : Execution} {e : Engine} {loader : Loader} {p : String → Prop}
    {rank : String → Nat} (h : (x.setting loader).Settles x.graph p rank)
    (hp : ∀ n, p n → Text.Sheltered n.toList)
    (hw : (x.world e).Sound (x.setting loader) (Setting.AtEntry x.graph p)) {k : Nat}
    {requests : List Request} (hr : ∀ r ∈ requests,
      r.loader = loader ∧ p r.name ∧ 3 * rank r.name + 2 < min k r.budget) :
    (x.serve e requests).1 = requests.map fun r =>
      (x.setting loader).plain.answer k (.frame (.name (.entry x.graph) r.name)) := by
  refine Execution.serve_plain_of_sound (h.closed hp) hw (fun r hmem => ?_)
    (fun r hmem w hw => ?_) fun r hmem => ?_
  · obtain ⟨hloader, hn, -⟩ := hr r hmem
    exact ⟨hloader, rfl, hn⟩
  · obtain ⟨rfl, hn, hbudget⟩ := hr r hmem
    have hgoal : Setting.AtEntry x.graph p (.frame (.name (.entry x.graph) r.name)) := ⟨rfl, hn⟩
    exact h.finished_answer hp hgoal (lt_min_iff.1 hbudget).2 hw []
  · obtain ⟨-, hn, hbudget⟩ := hr r hmem
    have hgoal : Setting.AtEntry x.graph p (.frame (.name (.entry x.graph) r.name)) := ⟨rfl, hn⟩
    exact (h.ends_plain k hgoal).finished (lt_min_iff.1 hbudget).1

/-- With enough budget, a name that the entry module settles is answered at once as plain
evaluations do. -/
theorem Execution.fetch_settled {x : Execution} {e : Engine} {loader : Loader} {p : String → Prop}
    {rank : String → Nat} (h : (x.setting loader).Settles x.graph p rank)
    (hp : ∀ n, p n → Text.Sheltered n.toList)
    (hw : (x.world e).Sound (x.setting loader) (Setting.AtEntry x.graph p)) {n : String}
    (hn : p n) {k budget : Nat} (hk : 3 * rank n + 2 < min k budget) :
    (x.fetchWithin budget e loader n).1 =
      (x.setting loader).plain.answer k (.frame (.name (.entry x.graph) n)) := by
  have hrequest : ∀ r ∈ [(⟨loader, budget, n⟩ : Request)],
      r.loader = loader ∧ p r.name ∧ 3 * rank r.name + 2 < min k r.budget :=
    List.forall_mem_singleton.2 ⟨rfl, hn, hk⟩
  exact List.singleton_inj.1 (serve_settled h hp hw hrequest)

end GatedRules
