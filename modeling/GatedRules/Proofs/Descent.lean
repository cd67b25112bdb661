import GatedRules.Proofs.Acyclic
import GatedRules.Proofs.Cells
import GatedRules.Proofs.Reached

/-!
# Evaluations without dynamic includes

In a graph without sites and without cycles, every goal asks only for lower ones: a name for its
definitions, and a definition for names of lower rank (`plan_descends`). So no evaluation ever comes
back to a frame that it has entered, also where stateful calls are made, and the height of a goal
bounds the budget that is needed (`ends_answer`, `finished_plain`).
-/

namespace GatedRules

/-- A protocol that restricts what is asked for and done, and knows nothing of answers. -/
def Protocol.only (mayAsk : Goal → Prop) (mayAct : Action → Prop) : Protocol Unit where
  later _ _ := True
  mayAsk _ := mayAsk
  mayAct _ := mayAct
  answered _ _ _ := True
  acted _ _ _ := True
  refl _ := trivial
  trans _ _ := trivial
  mayAsk_mono _ h := h
  mayAct_mono _ h := h
  answered_mono _ h := h
  acted_mono _ h := h

/-- How high a goal is, given ranks of names. -/
def Goal.height (rank : String → Nat) : Goal → Nat
  | .frame (.name _ n) => 3 * rank n + 2
  | .primary _ n => 3 * rank n + 1
  | .frame (.definition _ n _ _) => 3 * rank n

/-- Every name ranks above those on which it depends. -/
def Graph.Ranked (g : Graph) (rank : String → Nat) : Prop :=
  ∀ n, ∀ m ∈ Dependency.successors g.slots n, rank m < rank n

theorem Graph.Defines.mem_successors {g : Graph} {n m : String} {d : Definition}
    (h : g.Defines n d) (hm : m ∈ d.allDependencies) : m ∈ Dependency.successors g.slots n := by
  obtain ⟨slot, hs, hd⟩ := h
  have hslot : g.slots.get? n = some slot := hs
  rw [Dependency.successors, hslot]
  exact List.mem_flatMap.2 ⟨d, hd, hm⟩

namespace Setting

variable {σ : Setting} {entry : Graph} {p : String → Prop} {rank : String → Nat}
  {mayAct : Action → Prop}

/-! ### Lower goals -/

/-- The goals below a height. -/
def Below (σ : Setting) (entry : Graph) (p : String → Prop) (rank : String → Nat) (height : Nat)
    (goal : Goal) : Prop :=
  σ.Asks entry p goal ∧ goal.height rank < height

/-- A name asks for conditions and definitions below it. -/
theorem serves_below (hsites : entry.sites = []) (hp : ∀ n ∈ entry.lookups, p n)
    (hrank : entry.Ranked rank) (hact : ∀ action, (∀ slot c, action ≠ .call slot c) → mayAct action)
    {name : String} {height : Nat} (hn : p name) (hh : 3 * rank name < height) :
    (Protocol.only (σ.Below entry p rank height) mayAct).Serves (.entry entry) name () where
  condition {_ d} hd c hc := by
    have hdefines : entry.Defines name d := Scope.defines_of_definition? hd
    have hm := Definition.mem_dependencies_of_gate hc
    have hlt := hrank name c.name (hdefines.mem_successors hm)
    refine ⟨⟨.entry, hp _ (hdefines.lookups hm)⟩, ?_⟩
    rw [Goal.height]
    omega
  definition hd _ _ := ⟨⟨.entry, hn, hd⟩, hh⟩
  site _ site hs := by
    have hs : site ∈ entry.sites := hs
    rw [hsites] at hs
    cases hs
  child _ site hs := by
    have hs : site ∈ entry.sites := hs
    rw [hsites] at hs
    cases hs
  resolve _ := hact _ nofun
  skip := hact _ nofun

/-- In a graph without sites and cycles, a goal asks for lower ones only, and it makes stateful
calls only if definitions do. -/
theorem plan_descends (hsites : entry.sites = []) (hp : ∀ n ∈ entry.lookups, p n)
    (hrank : entry.Ranked rank) (hact : ∀ action, (∀ slot c, action ≠ .call slot c) → mayAct action)
    (hcall : ∀ name d, entry.Defines name d → d.expr.isStateful = true →
      ∀ slot c, mayAct (.call slot c)) {goal : Goal} (h : σ.Asks entry p goal) :
    goal.plan.Follows (.only (σ.Below entry p rank (goal.height rank)) mayAct)
      (fun _ _ => True) () := by
  cases goal with
  | primary scope name =>
    obtain ⟨hreached, hn⟩ := h
    obtain rfl := reached_of_no_sites hsites hreached
    exact Scope.fromPrimary_follows (serves_below hsites hp hrank hact hn (Nat.lt_succ_self _))
  | frame f =>
    cases f with
    | name scope n =>
      obtain ⟨hreached, hn⟩ := h
      obtain rfl := reached_of_no_sites hsites hreached
      have hlt : 3 * rank n < (Goal.frame (.name (.entry entry) n)).height rank :=
        Nat.lt_add_of_pos_right (by decide)
      exact Scope.settle_follows (serves_below hsites hp hrank hact hn hlt)
        ⟨⟨hreached, hn⟩, Nat.lt_succ_self _⟩ nofun (hact _ nofun)
    | definition scope n r d =>
      obtain ⟨hreached, hn, hd⟩ := h
      obtain rfl := reached_of_no_sites hsites hreached
      have hdefines : entry.Defines n d := Scope.defines_of_definition? hd
      refine Expr.eval_follows d.expr ⟨fun m hm => ?_, hact _ nofun,
        fun hst c => hcall n d hdefines hst n c⟩
      have hm := Definition.mem_dependencies_of_mentions hm
      have hlt := hrank n m (hdefines.mem_successors hm)
      refine ⟨⟨hreached, hp m (hdefines.lookups hm)⟩, ?_⟩
      simp only [Goal.height]
      omega

/-! ### Plain evaluations -/

/-- A run without stateful calls finishes if all answers do that are asked for. -/
theorem finished_run_plain {α : Type} {may : Goal → Prop} {Q : Unit → α → Prop} {x : Plan α}
    (hx : x.Follows (.only may fun action => ∀ slot c, action ≠ .call slot c) Q ())
    {answer : (goal : Goal) → Except Halt goal.Answer}
    (hanswer : ∀ goal, may goal → Finished (answer goal)) : Finished (x.run σ.plain answer) := by
  induction x with
  | done a => exact finished_ok a
  | fail error => exact finished_failed error
  | perform action next ih =>
    exact (finished_result hx.1).bind fun r => ih r (hx.2 () r trivial trivial)
  | ask goal next ih => exact (hanswer goal hx.1).bind fun r => ih r (hx.2 () r trivial trivial)

/-- A plain evaluation finishes within a budget above the height of its goal. -/
theorem finished_plain (hsites : entry.sites = []) (hp : ∀ n ∈ entry.lookups, p n)
    (hrank : entry.Ranked rank) (hstateless : entry.Stateless) {k : Nat} {goal : Goal}
    (h : σ.Asks entry p goal) (hk : goal.height rank < k) : Finished (σ.plain.answer k goal) := by
  induction k generalizing goal with
  | zero => exact absurd hk (Nat.not_lt_zero _)
  | succ k ih =>
    have hcall : ∀ name d, entry.Defines name d → d.expr.isStateful = true →
        ∀ slot c, ∀ slot' c', Action.call slot c ≠ .call slot' c' := by
      intro name d hd hst
      rw [hstateless.of_defines hd] at hst
      cases hst
    have hplan := plan_descends hsites hp hrank (fun _ ha => ha) hcall h
    rw [plain_succ]
    exact finished_run_plain hplan fun goal' hgoal' =>
      ih hgoal'.1 (Nat.lt_of_lt_of_le hgoal'.2 (Nat.le_of_lt_succ hk))

end Setting

/-! ### Executions -/

/-- What an evaluation ends with is no recursion, and with enough budget it has finished. -/
structure Ends {α : Type} (enough : Prop) (r : Except Halt α) : Prop where
  /-- The evaluation has not come back to a frame that it has entered. -/
  descends : ∀ chain, r ≠ .error (.failed (.recursion chain))
  /-- With enough budget it has finished. -/
  finished : enough → Finished r

section

variable {α β : Type} {enough enough' : Prop}

theorem ends_ok (a : α) : Ends enough (.ok a) :=
  ⟨nofun, fun _ => finished_ok a⟩

theorem ends_failed {error : EvalError} (h : error.isRecursion = false) :
    Ends enough (.error (.failed error) : Except Halt α) := by
  refine ⟨fun chain hr => ?_, fun _ => finished_failed error⟩
  cases hr
  cases h

theorem Ends.imp {r : Except Halt α} (h : Ends enough r) (himp : enough' → enough) :
    Ends enough' r :=
  ⟨h.descends, fun he => h.finished (himp he)⟩

/-- A halt is what it is, whatever was to be computed. -/
theorem Ends.error {halt : Halt} (h : Ends enough (.error halt : Except Halt α)) :
    Ends enough (.error halt : Except Halt β) := by
  refine ⟨fun chain hr => ?_, fun he hr => ?_⟩
  · cases hr
    exact h.descends chain rfl
  · cases hr
    exact h.finished he rfl

end

namespace EvalM

variable {σ : Setting} {α β : Type} {enough : Prop} {k : Nat} {stack : List String}

theorem ends_bind {x : EvalM α} {f : α → EvalM β} {w : World} (hx : Ends enough (x.exec stack w).1)
    (hf : ∀ a w, Ends enough ((f a).exec stack w).1) : Ends enough ((x >>= f).exec stack w).1 := by
  rw [exec_bind]
  rcases hr : x.exec stack w with ⟨halt | a, w'⟩
  · rw [hr] at hx
    exact hx.error
  · exact hf a w'

theorem ends_withStore (f : Store → Except StoreFault α × Store) (w : World) :
    Ends enough ((withStore f).exec stack w).1 := by
  rw [exec_withStore]
  rcases f w.engine.store with ⟨fault | a, store⟩
  · exact ends_failed rfl
  · exact ends_ok a

theorem ends_act (action : Action) (w : World) : Ends enough ((act σ action).exec stack w).1 := by
  cases action with
  | input name => exact ends_ok _
  | skip => exact ends_ok _
  | call slot c =>
    cases c with
    | count groups => exact ends_bind (ends_withStore _ w) fun _ _ => ends_ok _
    | countUnique value groups => exact ends_bind (ends_withStore _ w) fun _ => ends_withStore _
    | takeQuota quota groups => exact ends_bind (ends_withStore _ w) fun _ _ => ends_ok _
  | resolve path =>
    change Ends enough ((resolve σ path).exec stack w).1
    rw [exec_resolve, Engine.resolvePath_fst]
    split
    · exact ends_ok _
    · unfold Engine.outcome
      split
      · exact ends_ok _
      · split
        · exact ends_ok _
        · exact ends_failed rfl

/-- A run ends with no recursion if all answers do that are asked for. -/
theorem ends_run {may : Goal → Prop} {mayAct : Action → Prop} {Q : Unit → α → Prop} {x : Plan α}
    (hx : x.Follows (.only may mayAct) Q ())
    (hanswer : ∀ goal w, may goal → Ends enough (((handler σ).answer k goal).exec stack w).1)
    (w : World) : Ends enough ((x.run (handler σ) ((handler σ).answer k)).exec stack w).1 := by
  induction x generalizing w with
  | done a => exact ends_ok a
  | fail error => exact ends_failed hx
  | perform action next ih =>
    exact ends_bind (ends_act action w) fun r => ih r (hx.2 () r trivial trivial)
  | ask goal next ih =>
    exact ends_bind (hanswer goal w hx.1) fun r => ih r (hx.2 () r trivial trivial)

theorem ends_visit {f : Frame} {x : EvalM Value} {w : World} (hs : ¬ stack.contains f.text = true)
    (hx : Ends enough (x.exec (stack ++ [f.text]) w).1) :
    Ends enough (((handler σ).visit f x).exec stack w).1 := by
  rw [exec_visit, if_neg hs]
  split
  · exact ends_ok _
  · rcases hr : x.exec (stack ++ [f.text]) w with ⟨halt | v, w'⟩
    · rw [hr] at hx
      exact hx
    · exact ends_ok v

variable {entry : Graph} {p : String → Prop} {rank : String → Nat}

/-- An execution of a graph without sites and cycles never comes back to a frame that it has
entered, and a budget above the height of the goal is enough. -/
theorem ends_answer (hsites : entry.sites = []) (hp : ∀ n ∈ entry.lookups, p n)
    (hsheltered : ∀ n, p n → Text.Sheltered n.toList) (hrank : entry.Ranked rank) (k : Nat)
    {goal : Goal} (h : σ.Asks entry p goal) {frames : List Frame}
    (hframes : ∀ f ∈ frames,
      σ.Asks entry p (.frame f) ∧ goal.height rank < (Goal.frame f).height rank) (w : World) :
    Ends (goal.height rank < k) (((handler σ).answer k goal).exec (frames.map Frame.text) w).1 := by
  induction k generalizing goal frames w with
  | zero => exact ⟨nofun, fun hk => absurd hk (Nat.not_lt_zero _)⟩
  | succ k ih =>
    have hplan : goal.plan.Follows
        (.only (σ.Below entry p rank (goal.height rank)) fun _ => True) (fun _ _ => True) () :=
      Setting.plan_descends hsites hp hrank (fun _ _ => trivial) (fun _ _ _ _ _ _ => trivial) h
    -- The plan asks for lower goals only, so the frames on the stack stay above what is asked for.
    have hrun : ∀ (frames : List Frame), (∀ f ∈ frames,
        σ.Asks entry p (.frame f) ∧ goal.height rank ≤ (Goal.frame f).height rank) →
        Ends (goal.height rank < k + 1) ((goal.plan.run (handler σ)
          ((handler σ).answer k)).exec (frames.map Frame.text) w).1 := by
      intro frames hframes
      refine ends_run hplan (fun goal' w hgoal' => ?_) w
      have hbelow : ∀ f ∈ frames,
          σ.Asks entry p (.frame f) ∧ goal'.height rank < (Goal.frame f).height rank := fun f hf =>
        ⟨(hframes f hf).1, Nat.lt_of_lt_of_le hgoal'.2 (hframes f hf).2⟩
      have hend := ih hgoal'.1 hbelow w
      exact hend.imp fun hk => Nat.lt_of_lt_of_le hgoal'.2 (Nat.le_of_lt_succ hk)
    cases goal with
    | primary scope name => exact hrun frames fun f hf =>
      ⟨(hframes f hf).1, Nat.le_of_lt (hframes f hf).2⟩
    | frame f =>
      have hs : ¬ (frames.map Frame.text).contains f.text = true := by
        intro hm
        obtain ⟨g, hg, htext⟩ := List.mem_map.1 (List.contains_iff_mem.1 hm)
        obtain rfl := Setting.injective_asks (Setting.told_of_no_sites hsites) hsheltered
          (hframes g hg).1 h htext
        exact Nat.lt_irrefl _ (hframes g hg).2
      refine ends_visit hs ?_
      have hend := hrun (frames ++ [f]) (List.forall_mem_append.2
        ⟨fun g hg => ⟨(hframes g hg).1, Nat.le_of_lt (hframes g hg).2⟩,
          List.forall_mem_singleton.2 ⟨h, Nat.le_refl _⟩⟩)
      rw [List.map_append] at hend
      exact hend

/-- A name of a graph without sites and cycles is answered with no recursion, and with enough budget
its evaluation finishes. -/
theorem ends_name (hsites : entry.sites = [])
    (hlookups : ∀ n ∈ entry.lookups, Text.Sheltered n.toList)
    (hcycle : Dependency.findCycle entry.slots = none) (k : Nat) {n : String}
    (hn : Text.Sheltered n.toList) (w : World) : Ends (3 * entry.size + 3 ≤ k)
      (((handler σ).answer k (.frame (.name (.entry entry) n))).exec [] w).1 := by
  obtain ⟨rank, hle, hrank⟩ := Dependency.exists_rank_of_findCycle hcycle
  have hgoal : σ.Queries entry (.frame (.name (.entry entry) n)) := ⟨.entry, hn⟩
  have hframes : ∀ f ∈ ([] : List Frame), σ.Queries entry (.frame f) ∧
      (Goal.frame (.name (.entry entry) n)).height rank < (Goal.frame f).height rank := nofun
  have hend := ends_answer hsites hlookups (fun _ hn => hn) hrank k hgoal hframes w
  refine hend.imp fun hk => ?_
  have hsize : rank n ≤ entry.size := hle n
  rw [Goal.height]
  omega

end EvalM

end GatedRules
