import GatedRules.Proofs.Hosts
import GatedRules.Proofs.Keys
import GatedRules.Proofs.Once

/-!
# Tallies

All that executions do to the store is seen when they are observed: the stateful calls that are
made, in their order, are requests that lead from the store before to the store after
(`Observed.accounts_answer`). And where the definition of a name counts distinct values, its value
is null, or it is the number of members that the call leaves which is seen right before
(`Observed.told_run`).

So what a host answers over all its executions can be told from what is seen of it
(`Host.accounted_watch`). The members of a set that is filled by one kind of calls are the texts of
the values that these have counted (`Store.countMembers_replay`).
-/

namespace GatedRules

/-! ### What calls ask of the store -/

/-- The text under which a value is counted. -/
def Value.member (v : Value) : String :=
  v.pathText?.getD v.compact

namespace StatefulCall

/-- The values by which a call groups. -/
def groups : StatefulCall → List Value
  | count groups => groups
  | countUnique _ groups => groups
  | takeQuota _ groups => groups

/-- What a call for a slot asks of the store. -/
def request (slot : String) : StatefulCall → StoreRequest
  | count groups => .increment (.ofCall Function.count.name slot groups)
  | countUnique v groups => .addMembers (.ofCall Function.countUnique.name slot groups) [v.member]
  | takeQuota quota groups => .takeQuota (.ofCall Function.rateLimit.name slot groups) quota 1

end StatefulCall

/-- What is asked of the store when something is seen. -/
def Sight.request? : Sight → Option StoreRequest
  | acts _ (.call slot c) => some (c.request slot)
  | _ => none

/-- The store after what is seen. -/
def Store.replay (s : Store) (log : List Sight) : Store :=
  s.after (log.filterMap Sight.request?)

theorem Store.replay_append (s : Store) (log log' : List Sight) :
    s.replay (log ++ log') = (s.replay log).replay log' := by
  rw [replay, replay, replay, List.filterMap_append, after, List.foldl_append]
  rfl

namespace EvalM

/-- A call does to the store what it asks for. -/
theorem store_call (slot : String) (c : StatefulCall) (stack : List String) (w : World) :
    ((call slot c).exec stack w).2.engine.store =
      (w.engine.store.perform (c.request slot)).2 := by
  cases c with
  | count groups =>
    rw [call, exec_bind, exec_withStore, StatefulCall.request, Store.perform]
    rcases w.engine.store.increment _ with ⟨_ | _, _⟩ <;> rfl
  | countUnique v groups =>
    change (exec (withStore _ >>= fun _ => withStore _) stack w).2.engine.store = _
    rw [exec_bind, exec_withStore, StatefulCall.request, Store.perform, Value.member]
    rcases w.engine.store.addMembers _ _ with ⟨_ | _, _⟩ <;> rfl
  | takeQuota quota groups =>
    rw [call, exec_bind, exec_withStore, StatefulCall.request, Store.perform]
    rcases w.engine.store.takeQuota _ _ _ with ⟨_ | _, _⟩ <;> rfl

/-- A value is counted among the members that there are then. -/
theorem call_countUnique {slot : String} {u : Value} {groups : List Value} {stack : List String}
    {w w' : World} {v : Value}
    (h : (call slot (.countUnique u groups)).exec stack w = (.ok v, w')) :
    v = .int (w'.engine.store.countMembers [.ofCall Function.countUnique.name slot groups]) := by
  change exec (withStore _ >>= fun _ => withStore _) stack w = _ at h
  rw [exec_bind, exec_withStore] at h
  revert h
  rcases w.engine.store.addMembers _ _ with ⟨_ | _, _⟩
  · rintro ⟨⟩
  · rintro ⟨⟩
    rfl

/-- Nothing but a call changes the store. -/
theorem store_act (σ : Setting) (action : Action) (stack : List Frame) (w : World) :
    ((act σ action).exec (stack.map Frame.text) w).2.engine.store =
      w.engine.store.replay [.acts stack action] := by
  cases action with
  | input name => rfl
  | call slot c => exact store_call slot c _ w
  | skip => rfl
  | resolve path =>
    change ((resolve σ path).exec _ w).2.engine.store = _
    rw [exec_resolve]
    exact w.engine.store_resolvePath σ.loader σ.id path

end EvalM

/-! ### Where numbers come from -/

/-- If the definition of a frame counts distinct values, the value of the frame is null, or the
number of members that the call leaves which is made last. -/
def Frame.Told (f : Frame) (s : Store) (log : List Sight) (v : Value) : Prop :=
  ∀ scope slot rank definition args groups, f = .definition scope slot rank definition →
    definition.expr = .call Function.countUnique.name args groups → v ≠ .null →
      ∃ before frames u gs, log = before ++ [.acts frames (.call slot (.countUnique u gs))] ∧
        v = .int ((s.replay log).countMembers [.ofCall Function.countUnique.name slot gs])

/-- What is seen accounts for the store, and for the values of frames that count. -/
structure Accounted (s : Store) (log : List Sight) (s' : Store) : Prop where
  /-- The store is what the calls make of it. -/
  store : s' = s.replay log
  /-- The values of frames are those that they are told. -/
  told : ∀ {before f v after}, log = before ++ .ends f v :: after → f.Told s before v

namespace Accounted

variable {s s' s'' : Store} {log log' : List Sight} {f : Frame} {v : Value}

theorem nil (s : Store) : Accounted s [] s :=
  ⟨rfl, fun h => absurd h (by simp)⟩

theorem acts (frames : List Frame) (action : Action) :
    Accounted s [.acts frames action] (s.replay [.acts frames action]) := by
  refine ⟨rfl, fun {before f v after} h => ?_⟩
  have hmem : .ends f v ∈ [Sight.acts frames action] := by simp [h]
  simp at hmem

theorem append (h : Accounted s log s') (h' : Accounted s' log' s'') :
    Accounted s (log ++ log') s'' := by
  refine ⟨by rw [h'.store, h.store, Store.replay_append], fun {before f v after} heq => ?_⟩
  have hlater : ∀ {rest}, log' = rest ++ .ends f v :: after → f.Told s (log ++ rest) v := by
    intro rest hrest scope slot rank definition args groups hf hexpr hv
    obtain ⟨earlier, frames, u, gs, hlog, hcount⟩ := h'.told hrest _ _ _ _ _ _ hf hexpr hv
    refine ⟨log ++ earlier, frames, u, gs, by rw [hlog, List.append_assoc], ?_⟩
    rw [hcount, h.store, Store.replay_append]
  obtain ⟨rest, hbefore, hrest⟩ | ⟨rest, hlog, hrest⟩ := List.append_eq_append_iff.1 heq
  · rw [hbefore]
    exact hlater hrest
  · cases rest with
    | nil =>
      rw [List.append_nil] at hlog
      have hfirst : log' = [] ++ .ends f v :: after := hrest.symm
      rw [← hlog]
      simpa using hlater hfirst
    | cons sight rest =>
      obtain ⟨rfl, -⟩ := List.cons.inj hrest
      exact h.told hlog

theorem begins (h : Accounted s log s') (f : Frame) : Accounted s (.begins f :: log) s' := by
  have hbegins : Accounted s [.begins f] s := by
    refine ⟨rfl, fun {before g v after} heq => ?_⟩
    have hmem : .ends g v ∈ [Sight.begins f] := by simp [heq]
    simp at hmem
  exact hbegins.append h

theorem ends (h : Accounted s log s') (hf : f.Told s log v) :
    Accounted s (log ++ [.ends f v]) s' := by
  refine ⟨?_, fun {before g u after} heq => ?_⟩
  · rw [h.store, Store.replay_append]
    rfl
  · cases after using List.reverseRecOn with
    | nil =>
      obtain ⟨rfl, hends⟩ := List.append_inj' heq rfl
      cases hends
      exact hf
    | append_singleton after last _ =>
      rw [← List.cons_append, ← List.append_assoc] at heq
      exact h.told (List.append_inj' heq rfl).1

end Accounted

/-! ### Plans that count -/

/-- A plan results in null, or in what it is told when it counts a value for a slot in the end. -/
inductive Plan.Counts (slot : String) : Plan Value → Prop
  | null : Counts slot (.done .null)
  | fail (error : EvalError) : Counts slot (.fail error)
  | call (u : Value) (gs : List Value) : Counts slot (.call slot (.countUnique u gs))
  | perform (action : Action) {next : action.Result → Plan Value} :
    (∀ r, Counts slot (next r)) → Counts slot (.perform action next)
  | ask (goal : Goal) {next : goal.Answer → Plan Value} :
    (∀ r, Counts slot (next r)) → Counts slot (.ask goal next)

namespace Plan

variable {α : Type} {slot : String}

theorem counts_bind (x : Plan α) {f : α → Plan Value} (hf : ∀ a, (f a).Counts slot) :
    (x >>= f).Counts slot := by
  induction x with
  | done a => exact hf a
  | fail error => exact .fail error
  | perform action next ih => exact .perform action ih
  | ask goal next ih => exact .ask goal ih

/-- The plan for an expression that counts distinct values is one that counts. -/
theorem counts_eval (scope : Scope) (slot : String) (args groups : List Expr) :
    ((Expr.call Function.countUnique.name args groups).eval scope slot).Counts slot := by
  have hname : Function.ofName? Function.countUnique.name = some .countUnique := by decide
  rw [Expr.eval, Function.call, hname]
  dsimp only
  split
  · exact .fail _
  · cases Expr.evalEach scope slot args with
    | nil => exact .null
    | cons arg rest =>
      refine counts_bind arg fun u => ?_
      split
      · exact .null
      · refine counts_bind _ fun gs => ?_
        split
        · exact .null
        · exact .call u gs

end Plan

namespace Observed

variable {α : Type} {σ : Setting}

/-- What is seen of an evaluation accounts for what it does. -/
def Accounts (x : Observed α) : Prop :=
  ∀ stack w, Accounted w.engine.store (x stack w).1 (x stack w).2.2.engine.store

theorem Accounts.bind {β : Type} {x : Observed α} {f : α → Observed β} (hx : x.Accounts)
    (hf : ∀ a, (f a).Accounts) : (x >>= f).Accounts := by
  intro stack w
  have h := hx stack w
  change Accounted _ (Observed.bind x f stack w).1 (Observed.bind x f stack w).2.2.engine.store
  unfold Observed.bind
  rcases hr : x stack w with ⟨log, halt | a, w'⟩ <;> rw [hr] at h
  · exact h
  · exact h.append (hf a stack w')

theorem accounts_perform (action : Action) : ((observer σ).perform action).Accounts := by
  intro stack w
  have hacts := Accounted.acts (s := w.engine.store) stack action
  rw [← EvalM.store_act σ] at hacts
  exact hacts

theorem accounts_run {answer : (goal : Goal) → Observed goal.Answer}
    (hanswer : ∀ goal, (answer goal).Accounts) (x : Plan α) :
    (x.run (observer σ) answer).Accounts := by
  induction x with
  | done a => exact fun _ _ => .nil _
  | fail error => exact fun _ _ => .nil _
  | perform action next ih => exact (accounts_perform action).bind ih
  | ask goal next ih => exact (hanswer goal).bind ih

/-- What an evaluation results in after another one. -/
theorem bind_eq_ok {β : Type} {x : Observed α} {f : α → Observed β} {stack : List Frame}
    {w w'' : World} {log : List Sight} {b : β} (h : (x >>= f) stack w = (log, .ok b, w'')) :
    ∃ before a w' after, x stack w = (before, .ok a, w') ∧ f a stack w' = (after, .ok b, w'') ∧
      log = before ++ after := by
  change Observed.bind x f stack w = _ at h
  unfold Observed.bind at h
  rcases hr : x stack w with ⟨before, halt | a, w'⟩ <;> rw [hr] at h
  · cases h
  · dsimp only at h
    rcases hf : f a stack w' with ⟨after, result, w₁⟩
    rw [hf] at h
    cases h
    exact ⟨before, a, w', after, rfl, hf, rfl⟩

/-- A plan that counts is told a number by its last call. -/
theorem told_run {slot : String} {answer : (goal : Goal) → Observed goal.Answer} {x : Plan Value}
    (hx : x.Counts slot) {stack : List Frame} {w w' : World} {v : Value} {log : List Sight}
    (hrun : x.run (observer σ) answer stack w = (log, .ok v, w')) (hv : v ≠ .null) :
    ∃ before frames u gs, log = before ++ [.acts frames (.call slot (.countUnique u gs))] ∧
      v = .int (w'.engine.store.countMembers [.ofCall Function.countUnique.name slot gs]) := by
  induction hx generalizing w log with
  | null =>
    cases hrun
    exact absurd rfl hv
  | fail error => cases hrun
  | call u gs =>
    obtain ⟨before, r, w₁, after, hcall, hdone, rfl⟩ := bind_eq_ok hrun
    obtain ⟨rfl, hexec⟩ := Prod.mk.inj hcall
    cases hdone
    exact ⟨[], stack, u, gs, rfl, EvalM.call_countUnique hexec⟩
  | perform action hnext ih =>
    obtain ⟨before, r, w₁, after, -, hnext, rfl⟩ := bind_eq_ok hrun
    obtain ⟨earlier, frames, u, gs, rfl, hcount⟩ := ih r hnext
    exact ⟨before ++ earlier, frames, u, gs, (List.append_assoc ..).symm, hcount⟩
  | ask goal hnext ih =>
    obtain ⟨before, r, w₁, after, -, hnext, rfl⟩ := bind_eq_ok hrun
    obtain ⟨earlier, frames, u, gs, rfl, hcount⟩ := ih r hnext
    exact ⟨before ++ earlier, frames, u, gs, (List.append_assoc ..).symm, hcount⟩

theorem accounts_visit {f : Frame} {x : Observed Value} (hx : x.Accounts)
    (htold : ∀ stack w log v w', x stack w = (log, .ok v, w') →
      f.Told w.engine.store log v) :
    ((observer σ).visit f x).Accounts := by
  intro stack w
  have hinside := hx (stack ++ [f]) w
  dsimp only [observer]
  split
  · exact .nil _
  split
  · exact .nil _
  · rcases hr : x (stack ++ [f]) w with ⟨log, halt | v, w'⟩ <;> rw [hr] at hinside
    · exact hinside.begins f
    · exact (hinside.ends (htold _ _ _ _ _ hr)).begins f

/-- What is seen of an evaluation accounts for what it does to the store. -/
theorem accounts_answer (k : Nat) (goal : Goal) : ((observer σ).answer k goal).Accounts := by
  induction k generalizing goal with
  | zero => exact fun _ _ => .nil _
  | succ k ih =>
    have hrun : (goal.plan.run (observer σ) ((observer σ).answer k)).Accounts :=
      accounts_run ih goal.plan
    cases goal with
    | primary s n => exact hrun
    | frame f =>
      refine accounts_visit hrun fun stack w log v w' hlog => ?_
      rintro scope slot rank definition args groups rfl hexpr hv
      have hcounts : (Frame.definition scope slot rank definition).plan.Counts slot := by
        rw [Frame.plan, hexpr]
        exact Plan.counts_eval scope slot args groups
      have hstore := (hrun stack w).store
      rw [hlog] at hstore
      rw [← hstore]
      exact told_run hcounts hlog hv

end Observed

/-! ### Members -/

namespace Store

variable {s : Store} {k : Key} {requests : List StoreRequest}

theorem members_of_entry {members : List String}
    (h : (s.entry? k).getD (.set []) = .set members) : s.members k = members := by
  rw [Store.members]
  cases hentry : s.entry? k with
  | none =>
    rw [hentry] at h
    exact Entry.set.inj h
  | some entry =>
    rw [hentry] at h
    obtain rfl : entry = .set members := h
    rfl

/-- A set to which members are added one by one holds those, and the ones that were there before. -/
theorem mem_members_after {members : List String} {m : String}
    (h : (s.entry? k).getD (.set []) = .set members)
    (honly : ∀ r ∈ requests, k ∈ r.keys → ∃ m, r = .addMembers k [m]) :
    m ∈ (s.after requests).members k ↔ m ∈ members ∨ .addMembers k [m] ∈ requests := by
  induction requests generalizing s members with
  | nil =>
    change m ∈ s.members k ↔ _
    simp [members_of_entry h]
  | cons r requests ih =>
    have hrest : ∀ r ∈ requests, k ∈ r.keys → ∃ m, r = .addMembers k [m] := fun r hr =>
      honly r (List.mem_cons_of_mem _ hr)
    change m ∈ ((s.perform r).2.after requests).members k ↔ _
    by_cases hk : k ∈ r.keys
    · obtain ⟨m', rfl⟩ := honly r List.mem_cons_self hk
      have hentry : Store.entry? (s.perform (.addMembers k [m'])).2 k =
          some (.set (union members [m'])) := by
        simp only [perform, addMembers, entry?_log, h]
        exact (entry?_put ..).trans (if_pos rfl)
      rw [ih (by rw [hentry]; rfl) hrest, mem_union]
      simp [or_assoc]
    · have hne : .addMembers k [m] ≠ r := by
        rintro rfl
        exact hk List.mem_cons_self
      rw [ih (by rwa [entry?_perform_of_not_mem hk]) hrest]
      simp [hne]

end Store

/-- A call that is about the key for counting distinct values in a group counts a value there. -/
theorem StatefulCall.eq_of_mem_keys {slot slot' : String} {c : StatefulCall} {gs : List Value}
    (hc : ∀ g ∈ c.groups, g.Finite) (hgs : ∀ g ∈ gs, g.Finite)
    (h : Key.ofCall Function.countUnique.name slot gs ∈ (c.request slot').keys) :
    slot' = slot ∧ ∃ u, c = .countUnique u gs := by
  cases c with
  | count groups =>
    have hkind := (Key.ofCall_inj hgs hc (List.mem_singleton.1 h)).1
    exact absurd hkind (by decide)
  | countUnique u groups =>
    obtain ⟨-, rfl, rfl⟩ := Key.ofCall_inj hgs hc (List.mem_singleton.1 h)
    exact ⟨rfl, u, rfl⟩
  | takeQuota quota groups =>
    have hkind := (Key.ofCall_inj hgs hc (List.mem_singleton.1 h)).1
    exact absurd hkind (by decide)

namespace Sight

/-- The groups of all calls that are seen are made of JSON values. -/
def GroupedByJson (log : List Sight) : Prop :=
  ∀ {frames slot c}, .acts frames (.call slot c) ∈ log → ∀ g ∈ c.groups, g.Finite

/-- The values that are seen to be counted for a slot in a group. -/
def counted (log : List Sight) (slot : String) (gs : List Value) : Set Value :=
  {u | ∃ frames, .acts frames (.call slot (.countUnique u gs)) ∈ log}

end Sight

section

variable {s : Store} {log : List Sight} {slot : String} {gs : List Value}

/-- What is asked about the key for counting distinct values in a group is to add the text of a
value that is counted there. -/
theorem eq_addMembers_of_mem_keys (hlog : Sight.GroupedByJson log) (hgs : ∀ g ∈ gs, g.Finite)
    {r : StoreRequest} (hr : r ∈ log.filterMap Sight.request?)
    (hkey : Key.ofCall Function.countUnique.name slot gs ∈ r.keys) :
    ∃ u ∈ Sight.counted log slot gs,
      r = .addMembers (.ofCall Function.countUnique.name slot gs) [u.member] := by
  obtain ⟨sight, hsight, hr⟩ := List.mem_filterMap.1 hr
  cases sight with
  | begins f => cases hr
  | ends f v => cases hr
  | acts frames action =>
    cases action with
    | call slot' c =>
      cases hr
      obtain ⟨rfl, u, rfl⟩ := StatefulCall.eq_of_mem_keys (hlog hsight) hgs hkey
      exact ⟨u, ⟨frames, hsight⟩, rfl⟩
    | input name => cases hr
    | skip => cases hr
    | resolve path => cases hr

/-- **What is counted for a slot in a group are the texts of the values that are seen to be counted
there.** -/
theorem Store.countMembers_replay
    (hnew : s.entry? (.ofCall Function.countUnique.name slot gs) = none)
    (hlog : Sight.GroupedByJson log) (hgs : ∀ g ∈ gs, g.Finite) :
    (s.replay log).countMembers [.ofCall Function.countUnique.name slot gs] =
      (Value.member '' Sight.counted log slot gs).ncard := by
  have hset : (s.entry? (.ofCall Function.countUnique.name slot gs)).getD (.set []) = .set [] := by
    rw [hnew]
    rfl
  have hmem : ∀ m, m ∈ (s.replay log).members (.ofCall Function.countUnique.name slot gs) ↔
      m ∈ Value.member '' Sight.counted log slot gs := by
    intro m
    rw [replay, mem_members_after hset fun r hr hkey => ?_]
    · constructor
      · rintro (hm | hm)
        · cases hm
        · obtain ⟨u, hu, hadd⟩ := eq_addMembers_of_mem_keys hlog hgs hm List.mem_cons_self
          cases hadd
          exact ⟨u, hu, rfl⟩
      · rintro ⟨u, ⟨frames, hcall⟩, rfl⟩
        exact .inr (List.mem_filterMap.2 ⟨_, hcall, rfl⟩)
    · obtain ⟨u, -, hadd⟩ := eq_addMembers_of_mem_keys hlog hgs hr hkey
      exact ⟨u.member, hadd⟩
  rw [countMembers_eq, List.toFinset_cons, List.toFinset_nil, insert_empty_eq,
    Finset.singleton_biUnion, ← Set.ncard_coe_finset]
  congr 1
  ext m
  rw [Finset.mem_coe, List.mem_toFinset]
  exact hmem m

end

/-! ### Hosts -/

namespace Execution

variable {x : Execution} {e : Engine} {loader : Loader}

theorem accounted_fetchWithin (budget : Nat) (x : Execution) (e : Engine) (loader : Loader)
    (name : String) :
    Accounted e.store (x.observed (x.world e) ⟨loader, budget, name⟩).1
      (x.fetchWithin budget e loader name).2.2.store := by
  have h := Observed.accounts_answer (σ := x.setting loader) budget
    (.frame (.name (.entry x.graph) name)) [] (x.world e)
  have hsame := x.snd_observed (x.world e) ⟨loader, budget, name⟩
  change Accounted e.store (x.observed (x.world e) ⟨loader, budget, name⟩).1
    (x.observed (x.world e) ⟨loader, budget, name⟩).2.2.engine.store at h
  rw [hsame] at h
  exact h

/-- What is seen of requests for names, one after the other. -/
def observedAll (budget : Nat) (x : Execution) (e : Engine) (loader : Loader) :
    List String → List Sight
  | [] => []
  | name :: names =>
    (x.observed (x.world e) ⟨loader, budget, name⟩).1 ++
      match x.fetchWithin budget e loader name with
      | (.error _, _, _) => []
      | (.ok _, x, e) => x.observedAll budget e loader names

theorem accounted_fetchAllWithin (budget : Nat) (x : Execution) (e : Engine) (loader : Loader)
    (names : List String) :
    Accounted e.store (x.observedAll budget e loader names)
      (x.fetchAllWithin budget e loader names).2.2.store := by
  induction names generalizing x e with
  | nil => exact .nil _
  | cons name names ih =>
    have hfirst := accounted_fetchWithin budget x e loader name
    rw [observedAll, fetchAllWithin]
    rcases hr : x.fetchWithin budget e loader name with ⟨halt | v, x', e'⟩ <;> rw [hr] at hfirst
    · dsimp only at hfirst ⊢
      rwa [List.append_nil]
    · have hrest := hfirst.append (ih x' e')
      dsimp only at hrest ⊢
      rcases hr' : x'.fetchAllWithin budget e' loader names with ⟨halt | vs, x'', e''⟩ <;>
        rw [hr'] at hrest <;> exact hrest

end Execution

namespace Host

/-- What is seen of the execution that is running under a label, if there is one. -/
def sightsOfRunning (h : Host) (label : String) (f : Execution → List Sight) : List Sight :=
  match h.entries.get? label with
  | some ⟨x, true⟩ => f x
  | _ => []

/-- What is seen while a command is served. -/
def sights (loader : Loader) (h : Host) (label : String) : Command → List Sight
  | .fetch budget name => h.sightsOfRunning label fun x =>
    (x.observed (x.world h.engine) ⟨loader, budget, name⟩).1
  | .fetchAll budget names => h.sightsOfRunning label fun x =>
    x.observedAll budget h.engine loader names
  | _ => []

/-- What is seen while commands are served. -/
def watch (loader : Loader) (h : Host) : List (String × Command) → List Sight
  | [] => []
  | (label, command) :: rest =>
    h.sights loader label command ++ watch loader (h.serve loader label command).2 rest

theorem accounted_withRunning {h : Host} {label : String} {f : Execution → Reply × Host}
    {g : Execution → List Sight}
    (hf : ∀ x, Accounted h.engine.store (g x) (f x).2.engine.store) :
    Accounted h.engine.store (h.sightsOfRunning label g)
      (h.withRunning label f).2.engine.store := by
  rw [sightsOfRunning, withRunning]
  rcases h.entries.get? label with _ | ⟨x, _ | _⟩
  · exact .nil _
  · exact .nil _
  · exact hf x

theorem store_drop (h : Host) (label : String) :
    (h.drop label).2.engine.store = h.engine.store := by
  rw [drop, withRunning]
  split <;> rfl

theorem accounted_serve (loader : Loader) (h : Host) (label : String) (command : Command) :
    Accounted h.engine.store (h.sights loader label command)
      (h.serve loader label command).2.engine.store := by
  have hsame : ∀ {s : Store}, s = h.engine.store → Accounted h.engine.store [] s := by
    rintro _ rfl
    exact .nil _
  cases command with
  | start graph inputs => exact hsame (h.store_drop label)
  | fetch budget name =>
    exact accounted_withRunning fun x => x.accounted_fetchWithin budget h.engine loader name
  | fetchAll budget names =>
    exact accounted_withRunning fun x => x.accounted_fetchAllWithin budget h.engine loader names
  | drop => exact hsame (h.store_drop label)
  | finish =>
    rw [serve]
    split <;> exact hsame rfl

/-- **What is seen accounts for all that a host does to the store.** -/
theorem accounted_watch (loader : Loader) (h : Host) (steps : List (String × Command)) :
    Accounted h.engine.store (h.watch loader steps) (h.run loader steps).2.engine.store := by
  induction steps generalizing h with
  | nil => exact .nil _
  | cons step rest ih =>
    obtain ⟨label, command⟩ := step
    exact (accounted_serve loader h label command).append (ih _)

end Host

end GatedRules
