import GatedRules.Proofs.BareModules
import GatedRules.Proofs.Results

/-!
# Circles of lookups

Looking up a name in a program of bare modules takes looking up others: the names in the templates
of the sites that are tried for it, in the scope itself and in the modules to which sites lead, and
then the same name in the scope around (`Setting.Needs`). A site is not asked about the names in its
own template, nor about those of the other sites of its module; but nothing keeps the sites of two
modules from asking each other about theirs. If lookups come back to themselves this way, they are
circular (`Setting.Circular`).

Plans ask for no more than that (`settle_follows_towards`). On the way to the value of a name there
are values from modules inside and definitions as well; these ask for nothing by themselves, as
definitions are literals and inputs. Nor do plans ask for less: what a lookup needs has been found
out, with a smaller budget, where the lookup has a value (`Needs.smaller`). So there is none where
the lookup is circular (`not_circular_of_hasValue`).
-/

namespace GatedRules

namespace Setting

variable {σ : Setting} {entry : Graph} {q : String → Prop} {s t : Scope} {n : String} {site : Site}

/-- A site is tried for a name: the name has no proper definition, sites are asked about it, and
those before the site yield nothing. -/
structure Tried (σ : Setting) (name : String) (s : Scope) (site : Site) : Prop where
  /-- There is no proper definition. -/
  undefined : s.definition? name .primary = none
  /-- Sites are asked. -/
  asks : s.asksSites name = true
  /-- The sites before this one yield nothing. -/
  before : ∃ before after, s.graph.sites = before ++ site :: after ∧
    σ.Results (s.fromSites name before) none

/-- While a name is looked up in a scope, a site is tried for it: of the same scope, or of the scope
of a module further inside. -/
inductive Asked (σ : Setting) (name : String) : Scope → Scope → Site → Prop
  /-- A site of the scope itself. -/
  | here {s : Scope} {site : Site} : σ.Tried name s site → Asked σ name s s site
  /-- A site of a scope inside of a module to which a site leads. -/
  | inside {s t : Scope} {site site' : Site} {g : Graph} : σ.Tried name s site →
    σ.LeadsTo s site g → Asked σ name (s.child g) t site' → Asked σ name s t site'

/-- Looking up a name in a scope takes looking up another name in another scope. -/
inductive Needs (σ : Setting) : Scope × String → Scope × String → Prop
  /-- A name in the template of a site that is tried for the name. -/
  | input {s t : Scope} {name n : String} {site : Site} : Asked σ name s t site →
    n ∈ site.template.inputs → Needs σ (s, name) (t, n)
  /-- The same name in the scope around, if it has no value in the scope. -/
  | around {g g' : Graph} {gs : List Graph} {name : String} :
    σ.Answered (.primary ⟨g, g' :: gs⟩ name) none →
    (Scope.mk g (g' :: gs)).definition? name .fallback = none →
    Needs σ (⟨g, g' :: gs⟩, name) (⟨g', gs⟩, name)

/-- A lookup leads to one that comes back to itself. -/
def Circular (σ : Setting) (lookup : Scope × String) : Prop :=
  ∃ a, Relation.ReflTransGen σ.Needs lookup a ∧ Relation.TransGen σ.Needs a a

theorem Tried.mem (h : σ.Tried n s site) : site ∈ s.graph.sites := by
  obtain ⟨before, after, hsites, -⟩ := h.before
  rw [hsites]
  exact List.mem_append_right _ List.mem_cons_self

theorem Asked.reached (h : σ.Asked n s t site) (hs : σ.Reached entry s) :
    σ.Reached entry t ∧ site ∈ t.graph.sites := by
  induction h with
  | here htried => exact ⟨hs, htried.mem⟩
  | inside htried hl _ ih => exact ih (.child hs htried.mem hl)

theorem Needs.reached {a b : Scope × String} (h : σ.Needs a b) (ha : σ.Reached entry a.1) :
    σ.Reached entry b.1 := by
  cases h with
  | input hasked => exact (hasked.reached ha).1
  | around => exact ha.around rfl

/-! ### What plans ask for -/

/-- What may be asked for on the way to the value of a lookup: what it needs, definitions, and
values of its name from modules inside. -/
def Towards (σ : Setting) (a : Scope × String) : Goal → Prop
  | .frame (.name t m) => σ.Needs a (t, m)
  | .frame (.definition _ _ _ _) => True
  | .primary t m => m = a.2 ∧ ∀ u site, σ.Asked m t u site → σ.Asked m a.1 u site

theorem follows_input (may : Goal → Prop) (n : String) :
    (Plan.input n).Follows (σ.protocol may) (fun _ _ => True) () := by
  have hact : (σ.protocol may).mayAct () (.input n) := nofun
  exact (Plan.follows_input hact).imp fun _ _ _ => trivial

theorem follows_fromRank {rank : Rank} {d : Definition} {a : Scope × String}
    (hd : s.definition? n rank = some d) (hg : d.gate = .always) :
    (s.fromRank n rank).Follows (σ.protocol (σ.Towards a)) (fun _ r => r ≠ none) () := by
  rw [Scope.fromRank_of_always hd hg]
  have hdefinition : σ.Towards a (.frame (.definition s n rank d)) := trivial
  exact (Plan.follows_value hdefinition).bind fun _ _ _ _ => Plan.follows_pure nofun

/-- Entering a site that is tried asks for the names in its template. -/
theorem enterSite_follows_towards {a : Scope × String} (ht : t.graph.Bare q)
    (hasked : σ.Asked a.2 a.1 t site) (hsite : site ∈ t.graph.sites) :
    (t.enterSite site).Follows (σ.protocol (σ.Towards a)) (fun _ r => (∀ child, r = some child →
      ∃ g, child = t.child g ∧ σ.LeadsTo t site g) ∧ σ.Results (t.enterSite site) r) () := by
  have hdependencies : ∀ m ∈ site.dependencies, σ.Towards a (.frame (.name t m)) := by
    intro m hm
    rcases Site.mem_dependencies.1 hm with hm | ⟨c, hc, -⟩
    · exact .input hasked hm
    · rw [ht.site site hsite] at hc
      cases hc
  have henter := Scope.enterSite_follows (π := σ.protocol (σ.Towards a)) (s := ()) hdependencies
    fun _ => nofun
  refine (follows_results henter).imp fun _ r hr => ⟨fun child hchild => ?_, hr.2⟩
  obtain ⟨g, hg, hl⟩ := hr.1 child hchild
  exact ⟨g, hg, leadsTo_of_protocol hl⟩

/-- Sites that come after others ask for what is on the way, if those yield nothing. -/
theorem fromSites_follows_towards {a : Scope × String} (ht : t.graph.Bare q)
    (hd : t.definition? a.2 .primary = none) (ha : t.asksSites a.2 = true)
    (hasked : ∀ u site, σ.Asked a.2 t u site → σ.Asked a.2 a.1 u site) {before sites : List Site}
    (hsites : t.graph.sites = before ++ sites) (hbefore : σ.Results (t.fromSites a.2 before) none) :
    (t.fromSites a.2 sites).Follows (σ.protocol (σ.Towards a)) (fun _ _ => True) () := by
  induction sites generalizing before with
  | nil => exact Plan.follows_pure trivial
  | cons site sites ih =>
    have htried : σ.Tried a.2 t site := ⟨hd, ha, before, sites, hsites, hbefore⟩
    have hrest : t.graph.sites = (before ++ [site]) ++ sites := by
      rw [hsites, List.append_assoc, List.singleton_append]
    rw [Scope.fromSites]
    refine (enterSite_follows_towards ht (hasked t site (.here htried)) htried.mem).bind
      fun _ entered _ hentered => ?_
    cases entered with
    | none =>
      refine ih hrest (results_fromSites_snoc hbefore hentered.2 fun child hchild => ?_)
      cases hchild
    | some child =>
      obtain ⟨g, rfl, hl⟩ := hentered.1 child rfl
      have hprimary : σ.Towards a (.primary (t.child g) a.2) :=
        ⟨rfl, fun u site' hu => hasked u site' (.inside htried hl hu)⟩
      refine (Plan.follows_primary hprimary).bind fun _ v _ hv => ?_
      cases v with
      | some v => exact Plan.follows_pure trivial
      | none =>
        refine ih hrest (results_fromSites_snoc hbefore hentered.2 fun child hchild => ?_)
        obtain rfl := Option.some.inj hchild
        exact hv

/-- What a scope is asked for values from proper definitions and modules asks for what is on the
way. -/
theorem fromPrimary_follows_towards {a : Scope × String} (ht : t.graph.Bare q)
    (hasked : ∀ u site, σ.Asked a.2 t u site → σ.Asked a.2 a.1 u site) :
    (t.fromPrimary a.2).Follows (σ.protocol (σ.Towards a)) (fun _ _ => True) () := by
  unfold Scope.fromPrimary
  cases hd : t.definition? a.2 .primary with
  | none =>
    rw [Scope.fromRank_of_none hd]
    change (if t.asksSites a.2 then t.fromSites a.2 t.graph.sites else pure none : Plan _).Follows
      _ _ _
    have hbefore : σ.Results (t.fromSites a.2 []) none := results_pure none
    split
    · exact fromSites_follows_towards ht hd ‹_› hasked rfl hbefore
    · exact Plan.follows_pure trivial
  | some d =>
    have hgate := (ht.definition (Scope.defines_of_definition? hd)).gate
    refine (follows_fromRank hd hgate).bind fun _ r _ hr => ?_
    cases r with
    | none => exact absurd rfl hr
    | some v => exact Plan.follows_pure trivial

/-- Settling a name asks for what is on the way. -/
theorem settle_follows_towards (hs : s.graph.Bare q) :
    (s.settle n).Follows (σ.protocol (σ.Towards (s, n))) (fun _ _ => True) () := by
  unfold Scope.settle
  have hprimary : σ.Towards (s, n) (.primary s n) := ⟨rfl, fun _ _ hu => hu⟩
  refine (Plan.follows_primary hprimary).bind fun _ r _ hr => ?_
  cases r with
  | some v => exact Plan.follows_pure trivial
  | none =>
    cases hfallback : s.definition? n .fallback with
    | some d =>
      have hgate := (hs.definition (Scope.defines_of_definition? hfallback)).gate
      refine (follows_fromRank hfallback hgate).bind fun _ r _ hr => ?_
      cases r with
      | none => exact absurd rfl hr
      | some v => exact Plan.follows_pure trivial
    | none =>
      dsimp only
      rw [Scope.fromRank_of_none hfallback]
      obtain ⟨g, around⟩ := s
      cases around with
      | nil => exact follows_input _ n
      | cons g' gs =>
        have haround : σ.Towards (⟨g, g' :: gs⟩, n) (.frame (.name ⟨g', gs⟩ n)) :=
          .around hr hfallback
        exact (Plan.follows_value haround).imp fun _ _ _ => trivial

theorem eval_follows_of_isBare {e : Expr} (h : e.IsBare) (may : Goal → Prop) :
    (e.eval s n).Follows (σ.protocol may) (fun _ _ => True) () := by
  rcases h with ⟨l, rfl⟩ | rfl
  · rw [Expr.eval]
    exact Plan.follows_pure trivial
  · rw [Expr.eval, Expr.evalEach]
    exact follows_input _ n

/-! ### What plans find out -/

/-- A site that is tried for a name is entered where a value from proper definitions and modules is
found or not, and then the module to which it leads is asked. -/
theorem Tried.run (h : σ.Tried n s site) {k : Nat} {r : Option Value}
    (hr : σ.plain.answer (k + 1) (.primary s n) = .ok r) :
    ∃ entered, (s.enterSite site).run σ.plain (σ.plain.answer k) = .ok entered ∧
      ∀ child, entered = some child → ∃ r', σ.plain.answer k (.primary child n) = .ok r' := by
  obtain ⟨before, after, hsites, hbefore⟩ := h.before
  have hr : (s.fromPrimary n).run σ.plain (σ.plain.answer k) = .ok r := by
    rwa [plain_succ] at hr
  unfold Scope.fromPrimary at hr
  rw [Scope.fromRank_of_none h.undefined] at hr
  have hr : (if s.asksSites n then s.fromSites n s.graph.sites else pure none : Plan _).run
    σ.plain (σ.plain.answer k) = .ok r := hr
  rw [if_pos h.asks, hsites] at hr
  have hr := run_fromSites_of_append hbefore hr
  rw [Scope.fromSites, run_plain_bind] at hr
  obtain ⟨entered, hentered, hr⟩ := bind_eq_ok.1 hr
  refine ⟨entered, hentered, fun child hchild => ?_⟩
  subst hchild
  dsimp only at hr
  rw [run_plain_bind, run_plain_primary] at hr
  obtain ⟨r', hr', -⟩ := bind_eq_ok.1 hr
  exact ⟨r', hr'⟩

/-- Where a value from proper definitions and modules is found or not, the names in the templates of
sites that are tried have been found out. -/
theorem Asked.smaller (hp : σ.Bare entry q) (h : σ.Asked n s t site) (hs : σ.Reached entry s)
    {k : Nat} {r : Option Value} (hr : σ.plain.answer k (.primary s n) = .ok r) {m : String}
    (hm : m ∈ site.template.inputs) :
    ∃ j < k, ∃ v, σ.plain.answer j (.frame (.name t m)) = .ok v := by
  induction h generalizing k r with
  | @here s site htried =>
    cases k with
    | zero => cases hr
    | succ k =>
      obtain ⟨entered, hentered, -⟩ := htried.run hr
      have hgate := (hp s hs).site site htried.mem
      exact ⟨k, Nat.lt_succ_self k, value_of_run_enterSite hgate hentered m hm⟩
  | @inside s t site site' g htried hl _ ih =>
    cases k with
    | zero => cases hr
    | succ k =>
      obtain ⟨entered, hentered, hchild⟩ := htried.run hr
      have hresults := hl.results ((hp s hs).site site htried.mem)
      obtain ⟨r', hr'⟩ := hchild (s.child g) (Results.unique ⟨k, hentered⟩ hresults)
      obtain ⟨j, hj, hvalue⟩ := ih (.child hs htried.mem hl) hr' hm
      exact ⟨j, Nat.lt_succ_of_lt hj, hvalue⟩

/-- What a lookup needs has been found out where the lookup has a value. -/
theorem Needs.smaller (hp : σ.Bare entry q) {a b : Scope × String} (h : σ.Needs a b)
    (ha : σ.Reached entry a.1) {k : Nat} {v : Value}
    (hv : σ.plain.answer k (.frame (.name a.1 a.2)) = .ok v) :
    ∃ j < k, ∃ w, σ.plain.answer j (.frame (.name b.1 b.2)) = .ok w := by
  cases k with
  | zero => cases hv
  | succ k =>
    have hv : (a.1.settle a.2).run σ.plain (σ.plain.answer k) = .ok v := by
      rwa [plain_succ] at hv
    unfold Scope.settle at hv
    rw [run_plain_bind, run_plain_primary] at hv
    obtain ⟨r, hr, hv⟩ := bind_eq_ok.1 hv
    cases h with
    | input hasked hm =>
      obtain ⟨j, hj, hvalue⟩ := hasked.smaller hp ha hr hm
      exact ⟨j, Nat.lt_succ_of_lt hj, hvalue⟩
    | @around g g' gs name hnone hfallback =>
      obtain ⟨i, hi⟩ := hnone
      have hsame := plain_unique (hr ▸ finished_ok r) (hi ▸ finished_ok none)
      obtain rfl : r = none := Except.ok.inj (hr.symm.trans (hsame.trans hi))
      dsimp only at hv
      rw [Scope.fromRank_of_none hfallback] at hv
      have hv : (Plan.value (.name ⟨g', gs⟩ name)).run σ.plain (σ.plain.answer k) = .ok v := hv
      rw [run_plain_value] at hv
      exact ⟨k, Nat.lt_succ_self k, v, hv⟩

theorem reached_and_smaller (hp : σ.Bare entry q) {a b : Scope × String}
    (h : Relation.ReflTransGen σ.Needs a b) (ha : σ.Reached entry a.1) {k : Nat} {v : Value}
    (hv : σ.plain.answer k (.frame (.name a.1 a.2)) = .ok v) :
    σ.Reached entry b.1 ∧ ∃ j ≤ k, ∃ w, σ.plain.answer j (.frame (.name b.1 b.2)) = .ok w := by
  induction h with
  | refl => exact ⟨ha, k, Nat.le_refl k, v, hv⟩
  | tail _ hneeds ih =>
    obtain ⟨hreached, j, hj, w, hw⟩ := ih
    obtain ⟨i, hi, hvalue⟩ := hneeds.smaller hp hreached hw
    exact ⟨hneeds.reached hreached, i, Nat.le_of_lt (Nat.lt_of_lt_of_le hi hj), hvalue⟩

/-- A lookup that has a value is not circular: there would be ever smaller budgets for a lookup that
comes back to itself. -/
theorem not_circular_of_hasValue (hp : σ.Bare entry q) {a : Scope × String}
    (ha : σ.Reached entry a.1) {v : Value} (hv : σ.HasValue a.1 a.2 v) : ¬ σ.Circular a := by
  rintro ⟨b, hab, hcircle⟩
  obtain ⟨k, hk⟩ := hv
  obtain ⟨hb, j, -, hvalue⟩ := reached_and_smaller hp hab ha hk
  clear hk
  induction j using Nat.strongRecOn with
  | ind j ih =>
    obtain ⟨w, hw⟩ := hvalue
    obtain ⟨c, hneeds, hback⟩ := Relation.TransGen.head'_iff.1 hcircle
    obtain ⟨i, hi, u, hu⟩ := hneeds.smaller hp hb hw
    obtain ⟨-, i', hi', hvalue⟩ := reached_and_smaller hp hback (hneeds.reached hb) hu
    exact ih i' (Nat.lt_of_le_of_lt hi' hi) hvalue

end Setting

end GatedRules
