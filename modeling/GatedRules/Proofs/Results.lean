import GatedRules.Proofs.Absence

/-!
# Results of plain evaluations

A plan has a result if a plain evaluation finds it within some budget (`Setting.Results`). Any
larger budget gives the same, so results are unique, and results of plans that are run one after the
other can be put together (`Results.bind`) although each one comes with a budget of its own.

The second part is about sites that are asked one after the other. What the first ones yield decides
whether the others are asked (`run_fromSites_append`), and where an unconditional site is entered,
or is found to lead nowhere, the names in its template have values (`value_of_run_enterSite`).
-/

namespace GatedRules

namespace Setting

variable {σ : Setting} {α β : Type} {s : Scope} {n : String}

/-- A plan has a result when it is evaluated plainly, with enough budget. -/
def Results (σ : Setting) (x : Plan α) (a : α) : Prop :=
  ∃ k, x.run σ.plain (σ.plain.answer k) = .ok a

/-- A goal has an answer when it is evaluated plainly, with enough budget. -/
def Answered (σ : Setting) (goal : Goal) (r : goal.Answer) : Prop :=
  ∃ k, σ.plain.answer k goal = .ok r

theorem results_pure (a : α) : σ.Results (pure a) a :=
  ⟨0, rfl⟩

theorem run_mono {x : Plan α} {a : α} {k k' : Nat} (h : x.run σ.plain (σ.plain.answer k) = .ok a)
    (hk : k ≤ k') : x.run σ.plain (σ.plain.answer k') = .ok a := by
  rw [run_plain_repeats (plain_mono hk) x (h ▸ finished_ok a), h]

theorem Results.unique {x : Plan α} {a b : α} (ha : σ.Results x a) (hb : σ.Results x b) :
    a = b := by
  obtain ⟨i, hi⟩ := ha
  obtain ⟨j, hj⟩ := hb
  have hi := run_mono hi (Nat.le_max_left i j)
  exact Except.ok.inj (hi.symm.trans (run_mono hj (Nat.le_max_right i j)))

theorem Results.bind {x : Plan α} {f : α → Plan β} {a : α} {b : β} (hx : σ.Results x a)
    (hf : σ.Results (f a) b) : σ.Results (x >>= f) b := by
  obtain ⟨i, hi⟩ := hx
  obtain ⟨j, hj⟩ := hf
  refine ⟨max i j, ?_⟩
  rw [run_plain_bind, run_mono hi (Nat.le_max_left i j)]
  exact run_mono hj (Nat.le_max_right i j)

theorem Answered.primary {r : Option Value} (h : σ.Answered (.primary s n) r) :
    σ.Results (.primary s n) r := by
  obtain ⟨k, hk⟩ := h
  exact ⟨k, (run_plain_primary s n).trans hk⟩

/-- A plan that keeps to what evaluations ask for results in what it is said to. -/
theorem follows_results {may : Goal → Prop} {Q : Unit → α → Prop} {x : Plan α}
    (hx : x.Follows (σ.protocol may) Q ()) :
    x.Follows (σ.protocol may) (fun t a => Q t a ∧ σ.Results x a) () := by
  induction x with
  | done a => exact ⟨hx, 0, rfl⟩
  | fail error => exact hx
  | perform action next ih =>
    refine ⟨hx.1, fun _ r ht hr => (ih r (hx.2 () r ht hr)).imp fun _ a ha => ⟨ha.1, ?_⟩⟩
    obtain ⟨k, hk⟩ := ha.2
    have hr : σ.result action = .ok r := hr
    exact ⟨k, by rw [run_plain_perform, hr]; exact hk⟩
  | ask goal next ih =>
    refine ⟨hx.1, fun _ r ht hr => (ih r (hx.2 () r ht hr)).imp fun _ a ha => ⟨ha.1, ?_⟩⟩
    obtain ⟨i, hi⟩ := hr
    obtain ⟨j, hj⟩ := ha.2
    exact ⟨max i j, (run_plain_ask_max hi (hj ▸ finished_ok a)).trans hj⟩

/-! ### Sites one after the other -/

variable {before sites : List Site} {answer : (goal : Goal) → Except Halt goal.Answer}

/-- Sites that come after others are asked if those yield nothing. -/
theorem run_fromSites_append : (s.fromSites n (before ++ sites)).run σ.plain answer =
    (s.fromSites n before).run σ.plain answer >>= fun r =>
      r.elim ((s.fromSites n sites).run σ.plain answer) fun v => .ok (some v) := by
  induction before with
  | nil => rfl
  | cons site before ih =>
    rw [List.cons_append, Scope.fromSites, Scope.fromSites, run_plain_bind, run_plain_bind]
    cases (s.enterSite site).run σ.plain answer with
    | error halt => rfl
    | ok entered =>
      cases entered with
      | none => exact ih
      | some child =>
        change (Plan.primary child n >>= _).run σ.plain answer =
          (Plan.primary child n >>= _).run σ.plain answer >>= _
        rw [run_plain_bind, run_plain_bind, run_plain_primary]
        cases answer (.primary child n) with
        | error halt => rfl
        | ok r =>
          cases r with
          | none => exact ih
          | some v => rfl

theorem results_fromSites_append {r : Option Value}
    (hbefore : σ.Results (s.fromSites n before) none) (h : σ.Results (s.fromSites n sites) r) :
    σ.Results (s.fromSites n (before ++ sites)) r := by
  obtain ⟨i, hi⟩ := hbefore
  obtain ⟨j, hj⟩ := h
  refine ⟨max i j, ?_⟩
  rw [run_fromSites_append, run_mono hi (Nat.le_max_left i j)]
  exact run_mono hj (Nat.le_max_right i j)

theorem run_fromSites_of_append {k : Nat} {r : Option Value}
    (hbefore : σ.Results (s.fromSites n before) none)
    (h : (s.fromSites n (before ++ sites)).run σ.plain (σ.plain.answer k) = .ok r) :
    (s.fromSites n sites).run σ.plain (σ.plain.answer k) = .ok r := by
  rw [run_fromSites_append] at h
  obtain ⟨r', hr', h⟩ := bind_eq_ok.1 h
  obtain rfl : r' = none := Results.unique ⟨k, hr'⟩ hbefore
  exact h

/-- A site that yields nothing, after others that do not. -/
theorem results_fromSites_snoc {site : Site} {entered : Option Scope}
    (hbefore : σ.Results (s.fromSites n before) none)
    (hentered : σ.Results (s.enterSite site) entered)
    (hprimary : ∀ child, entered = some child → σ.Answered (.primary child n) none) :
    σ.Results (s.fromSites n (before ++ [site])) none := by
  refine results_fromSites_append hbefore (hentered.bind ?_)
  cases entered with
  | none => exact results_pure none
  | some child => exact (hprimary child rfl).primary.bind (results_pure none)

/-! ### Entering sites -/

theorem value_of_run_all {names : List String} {values : List Value}
    (h : (Plan.all (names.map fun m => .value (.name s m))).run σ.plain answer = .ok values) :
    ∀ m ∈ names, ∃ v, answer (.frame (.name s m)) = .ok v := by
  induction names generalizing values with
  | nil => exact fun m hm => absurd hm List.not_mem_nil
  | cons m names ih =>
    rw [List.map_cons, Plan.all, run_plain_bind, run_plain_value] at h
    obtain ⟨v, hv, h⟩ := bind_eq_ok.1 h
    have h : (Plan.all (names.map fun m => .value (.name s m)) >>= fun vs =>
      pure (v :: vs)).run σ.plain answer = .ok values := h
    rw [run_plain_bind] at h
    obtain ⟨vs, hvs, -⟩ := bind_eq_ok.1 h
    exact List.forall_mem_cons.2 ⟨⟨v, hv⟩, ih hvs⟩

/-- The names in the template of an unconditional site have values where it is entered or not. -/
theorem value_of_run_enterSite {site : Site} (hg : site.gate = .always) {entered : Option Scope}
    (h : (s.enterSite site).run σ.plain answer = .ok entered) : ∀ m ∈ site.template.inputs,
      ∃ v, answer (.frame (.name s m)) = .ok v := by
  have hgate : (s.gateHolds site.gate).run σ.plain answer = .ok true := by
    rw [hg]
    rfl
  unfold Scope.enterSite at h
  rw [run_plain_bind, hgate] at h
  have h : (Plan.all (site.template.inputs.map fun m => .value (.name s m)) >>= fun _ =>
    _).run σ.plain answer = .ok entered := h
  rw [run_plain_bind] at h
  obtain ⟨values, hvalues, -⟩ := bind_eq_ok.1 h
  exact value_of_run_all hvalues

/-- One budget is enough for the values of several names. -/
theorem exists_budget {names : List String} {values : List Value}
    (h : List.Forall₂ (σ.HasValue s) names values) : ∃ k,
    List.Forall₂ (fun m v => σ.plain.answer k (.frame (.name s m)) = .ok v) names values := by
  induction h with
  | nil => exact ⟨0, .nil⟩
  | cons hvalue _ ih =>
    obtain ⟨i, hi⟩ := hvalue
    obtain ⟨j, hj⟩ := ih
    have hmono : ∀ {k m v}, σ.plain.answer k (.frame (.name s m)) = .ok v → k ≤ max i j →
        σ.plain.answer (max i j) (.frame (.name s m)) = .ok v := fun hv hk => by
      rw [plain_mono hk _ (hv ▸ finished_ok _), hv]
    refine ⟨max i j, .cons (hmono hi (Nat.le_max_left i j)) ?_⟩
    exact hj.imp fun _ _ hv => hmono hv (Nat.le_max_right i j)

/-- An unconditional site is entered if it leads to a module. -/
theorem LeadsTo.results {site : Site} {g : Graph} (h : σ.LeadsTo s site g)
    (hg : site.gate = .always) : σ.Results (s.enterSite site) (some (s.child g)) := by
  obtain ⟨values, path, hvalues, hrender, houtcome⟩ := h.module
  obtain ⟨k, hall⟩ := exists_budget hvalues
  have hgate : (s.gateHolds site.gate).run σ.plain (σ.plain.answer k) = .ok true := by
    rw [hg]
    rfl
  refine ⟨k, (run_enterSite hgate hall).trans ?_⟩
  rw [hrender]
  dsimp only
  rw [houtcome]

end Setting

end GatedRules
