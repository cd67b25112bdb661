import GatedRules.Proofs.Relocation
import GatedRules.Proofs.Remembering
import GatedRules.Proofs.Settled

/-!
# Absent modules

A site is idle if it contributes nothing: its gate does not hold, or a name of its template has no
text, or there is no module at its path (`Site.Idle`). While names are looked up, idle sites are
asked all the same: their gates and templates are evaluated inside of evaluations of names that may
depend on each other. This makes no difference. If all sites of an entry module are idle, it answers
as it does without its sites (`idle_sites_are_invisible`).

Whether sites are idle is said in terms of what an execution of the same graph answers, where sites
are still asked. It is the names on which sites depend that break the circle: an entry module
settles them without its sites, whether these are idle or not (`settles_bound`). So these names have
the values by which sites are idle, and it follows that the entry module settles all names
(`settles_of_strays`). Then both graphs are settled, and what names mean does not depend on sites
(`Graph.meaning_withoutSites`).
-/

namespace GatedRules

/-- Conditions that do not hold include one that is known to be something other than `true`. -/
theorem Graph.exists_of_opens_false {den : String → Except Halt Value} {cs : List Condition}
    (h : opens den cs = .ok false) : ∃ c ∈ cs, ∃ v, den c.name = .ok v ∧ v.isTrue = false := by
  induction cs with
  | nil => cases h
  | cons c cs ih =>
    rw [opens] at h
    cases hv : den c.name with
    | error halt =>
      rw [hv] at h
      cases h
    | ok v =>
      rw [hv] at h
      cases htrue : v.isTrue with
      | false => exact ⟨c, List.mem_cons_self .., v, hv, htrue⟩
      | true =>
        have hcs : opens den cs = .ok false := by
          change (if v.isTrue then opens den cs else pure false) = _ at h
          rwa [htrue] at h
        obtain ⟨c', hc', hv'⟩ := ih hcs
        exact ⟨c', List.mem_cons_of_mem c hc', hv'⟩

/-! ### Idle sites -/

/-- A value that has no text in a path: null, an array or an object. -/
def Value.IsTextless (v : Value) : Prop :=
  v = .null ∨ (∃ items, v = .array items) ∨ ∃ fields, v = .object fields

theorem Value.isTextless_iff {v : Value} : v.IsTextless ↔ v.pathText? = none := by
  cases v <;> simp [IsTextless, pathText?]

/-- A site contributes nothing, given the values of names: its gate does not hold, or a name of its
template has no text, or there is no module at its path. In any case the conditions of its gate are
evaluated without error up to one that does not hold, and the names of the template after a gate
that holds. -/
inductive Site.Idle (loader : Loader) (value : String → Except Halt Value) (site : Site) : Prop
  /-- The gate does not hold. -/
  | shut : Graph.opens value site.gate.conditions = .ok false → Idle loader value site
  /-- A name of the template has no text. -/
  | untold {values : List Value} : Graph.opens value site.gate.conditions = .ok true →
    List.Forall₂ (fun n v => value n = .ok v) site.template.inputs values →
    (∃ v ∈ values, v.IsTextless) → Idle loader value site
  /-- There is no module at the path. -/
  | absent {values : List Value} {path missing : String} :
    Graph.opens value site.gate.conditions = .ok true →
    List.Forall₂ (fun n v => value n = .ok v) site.template.inputs values →
    Engine.render site (Table.ofList (site.template.inputs.zip values)).get? = .ok path →
    Engine.outcome loader (Path.canonical path) = .ok (.absent missing) → Idle loader value site

theorem mapM_eq_ok_iff {f : String → Except Halt Value} {names : List String}
    {values : List Value} :
    names.mapM f = .ok values ↔ List.Forall₂ (fun n v => f n = .ok v) names values := by
  induction names generalizing values with
  | nil =>
    rw [List.mapM_nil, List.forall₂_nil_left_iff]
    exact ⟨fun h => (Except.ok.inj h).symm, fun h => h ▸ rfl⟩
  | cons n names ih =>
    simp only [List.mapM_cons, bind_eq_ok, List.forall₂_cons_left_iff, ← ih]
    constructor
    · rintro ⟨v, hv, values', hvalues', heq⟩
      exact ⟨v, values', hv, hvalues', (Except.ok.inj heq).symm⟩
    · rintro ⟨v, values', hv, hvalues', rfl⟩
      exact ⟨v, hv, values', hvalues', rfl⟩

/-- Whether a site is idle, as it is found out. -/
def Site.isIdle (loader : Loader) (value : String → Except Halt Value) (site : Site) : Bool :=
  match Graph.opens value site.gate.conditions with
  | .error _ => false
  | .ok false => true
  | .ok true =>
    match site.template.inputs.mapM value with
    | .error _ => false
    | .ok values =>
      match Engine.render site (Table.ofList (site.template.inputs.zip values)).get? with
      | .error _ => values.any fun v => v.pathText?.isNone
      | .ok path =>
        match Engine.outcome loader (Path.canonical path) with
        | .ok (.absent _) => true
        | _ => false

/-- Only the values of the names matter on which a site depends. -/
theorem Site.Idle.congr {loader : Loader} {value value' : String → Except Halt Value} {site : Site}
    (h : site.Idle loader value) (heq : ∀ n ∈ site.dependencies, value n = value' n) :
    site.Idle loader value' := by
  have hopens : Graph.opens value site.gate.conditions =
      Graph.opens value' site.gate.conditions :=
    Graph.opens_congr fun c hc => heq c.name (Site.mem_dependencies.2 (.inr ⟨c, hc, rfl⟩))
  have hvalues : ∀ {values : List Value},
      List.Forall₂ (fun n v => value n = .ok v) site.template.inputs values →
      List.Forall₂ (fun n v => value' n = .ok v) site.template.inputs values := by
    intro values hvalues
    have hinputs : ∀ n ∈ site.template.inputs, value n = value' n :=
      fun n hn => heq n (Site.mem_dependencies.2 (.inl hn))
    refine ((List.forall₂_and_left _ _).2 ⟨hinputs, hvalues⟩).imp fun n v hnv => ?_
    exact hnv.1.symm.trans hnv.2
  cases h with
  | shut hshut => exact .shut (hopens ▸ hshut)
  | untold hopen hall hnone => exact .untold (hopens ▸ hopen) (hvalues hall) hnone
  | absent hopen hall hpath hmissing => exact .absent (hopens ▸ hopen) (hvalues hall) hpath hmissing

/-- A table made of pairs holds nothing else. -/
theorem Table.mem_of_ofList {pairs : List (String × Value)} {n : String} {v : Value}
    (h : (Table.ofList pairs).get? n = some v) : (n, v) ∈ pairs := by
  have hfold : ∀ (pairs : List (String × Value)) (t : Table String Value),
      (pairs.foldl (fun t e => t.insert e.1 e.2) t).get? n = some v →
        (n, v) ∈ pairs ∨ t.get? n = some v := by
    intro pairs
    induction pairs with
    | nil => exact fun t ht => .inr ht
    | cons e pairs ih =>
      intro t ht
      rcases ih _ ht with hm | hm
      · exact .inl (List.mem_cons_of_mem e hm)
      · rw [Table.get?_insert] at hm
        split at hm
        · rename_i hn
          cases hm
          exact .inl (hn ▸ List.mem_cons_self ..)
        · exact .inr hm
  exact (hfold pairs .empty h).resolve_right (by simp)

/-- A template has no path if one of its names has no text. -/
theorem Site.render_of_textless {value : String → Except Halt Value} {site : Site}
    {values : List Value} (hall : List.Forall₂ (fun n v => value n = .ok v)
      site.template.inputs values) (hnone : ∃ v ∈ values, v.IsTextless) :
    ∃ error, Engine.render site (Table.ofList (site.template.inputs.zip values)).get? =
      .error error := by
  obtain ⟨v, hv, htextless⟩ := hnone
  obtain ⟨i, hi, rfl⟩ := List.getElem_of_mem hv
  have hlength := hall.length_eq
  have hname : site.template.inputs[i] ∈ site.template.inputs := List.getElem_mem _
  -- A name that occurs twice has the same value at both places.
  have hlookup : ((Table.ofList (site.template.inputs.zip values)).get?
      site.template.inputs[i]).bind Value.pathText? = none := by
    cases hfound :
        (Table.ofList (site.template.inputs.zip values)).get? site.template.inputs[i] with
    | none => rfl
    | some u =>
      have hu : value site.template.inputs[i] = .ok u :=
        List.forall₂_zip hall (Table.mem_of_ofList hfound)
      have hvalue : value site.template.inputs[i] = .ok values[i] :=
        (List.forall₂_iff_get.1 hall).2 i (by omega) hi
      obtain rfl : u = values[i] := Except.ok.inj (hu.symm.trans hvalue)
      exact Value.isTextless_iff.1 htextless
  have hunbound : ∃ n ∈ site.template.inputs, (fun name =>
      ((Table.ofList (site.template.inputs.zip values)).get? name).bind Value.pathText?) n = none :=
    ⟨_, hname, hlookup⟩
  obtain ⟨n, -, -, herror⟩ := Template.render_of_unbound hunbound
  refine ⟨.unresolvedInput site.template.text n, ?_⟩
  rw [Engine.render, herror]

theorem Site.isIdle_iff {loader : Loader} {value : String → Except Halt Value} {site : Site} :
    site.isIdle loader value = true ↔ site.Idle loader value := by
  constructor
  · intro h
    unfold isIdle at h
    split at h
    · cases h
    · exact .shut ‹_›
    · rename_i hopen
      split at h
      · cases h
      · rename_i values hvalues
        have hall := mapM_eq_ok_iff.1 hvalues
        split at h
        · obtain ⟨v, hv, hnone⟩ := List.any_eq_true.1 h
          exact .untold hopen hall
            ⟨v, hv, Value.isTextless_iff.2 (Option.isNone_iff_eq_none.1 hnone)⟩
        · split at h
          · exact .absent hopen hall ‹_› ‹_›
          · cases h
  · intro h
    unfold isIdle
    cases h with
    | shut hshut => rw [hshut]
    | untold hopen hall hnone =>
      obtain ⟨error, herror⟩ := render_of_textless hall hnone
      obtain ⟨v, hv, htextless⟩ := hnone
      rw [hopen, mapM_eq_ok_iff.2 hall]
      dsimp only
      rw [herror]
      refine List.any_eq_true.2 ⟨v, hv, ?_⟩
      rw [Value.isTextless_iff.1 htextless]
      rfl
    | absent hopen hall hpath hmissing =>
      rw [hopen, mapM_eq_ok_iff.2 hall]
      dsimp only
      rw [hpath]
      dsimp only
      rw [hmissing]

instance (loader : Loader) (value : String → Except Halt Value) (site : Site) :
    Decidable (site.Idle loader value) :=
  decidable_of_iff _ Site.isIdle_iff

namespace Setting

variable {σ : Setting} {g : Graph} {rank : String → Nat}
  {answer : (goal : Goal) → Except Halt goal.Answer}

theorem run_all_values {scope : Scope} {names : List String} {values : List Value}
    (h : List.Forall₂ (fun n v => answer (.frame (.name scope n)) = .ok v) names values) :
    (Plan.all (names.map fun n => .value (.name scope n))).run σ.plain answer = .ok values := by
  induction h with
  | nil => rfl
  | cons hv _ ih =>
    rw [List.map_cons, Plan.all, run_plain_bind, run_plain_value, hv]
    change (Plan.all _ >>= fun as => _).run σ.plain answer = _
    rw [run_plain_bind, ih]
    rfl

/-- A site whose gate holds is entered if its template leads to a module. -/
theorem run_enterSite {scope : Scope} {site : Site} {values : List Value}
    (hgate : (scope.gateHolds site.gate).run σ.plain answer = .ok true)
    (hall : List.Forall₂ (fun n v => answer (.frame (.name scope n)) = .ok v)
      site.template.inputs values) :
    (scope.enterSite site).run σ.plain answer =
      match Engine.render site (Table.ofList (site.template.inputs.zip values)).get? with
      | .error _ => .ok none
      | .ok path =>
        match Engine.outcome σ.loader (Path.canonical path) with
        | .error error => .error (.failed error)
        | .ok (.resolved graph) => .ok (some (scope.child graph))
        | .ok (.absent _) => .ok none := by
  unfold Scope.enterSite
  rw [run_plain_bind, hgate]
  change (Plan.all _ >>= fun values => _).run σ.plain answer = _
  rw [run_plain_bind, run_all_values hall]
  change Plan.run σ.plain answer (match Engine.render site _ with
    | .error _ => _ | .ok path => _) = _
  cases Engine.render site (Table.ofList (site.template.inputs.zip values)).get? with
  | error error => rfl
  | ok path =>
    change (Engine.outcome σ.loader (Path.canonical path)).mapError Halt.failed >>= _ = _
    dsimp only
    rcases Engine.outcome σ.loader (Path.canonical path) with error | _ | _ <;> rfl

/-- An idle site is not entered. -/
theorem run_enterSite_of_idle {site : Site} (h : site.Idle σ.loader (named g answer)) :
    ((Scope.entry g).enterSite site).run σ.plain answer = .ok none := by
  have hgate : ((Scope.entry g).gateHolds site.gate).run σ.plain answer =
      Graph.opens (named g answer) site.gate.conditions := run_conditionsHold _
  cases h with
  | shut hshut =>
    unfold Scope.enterSite
    rw [run_plain_bind, hgate, hshut]
    rfl
  | untold hopen hall hnone =>
    obtain ⟨error, herror⟩ := Site.render_of_textless hall hnone
    rw [run_enterSite (hgate.trans hopen) hall, herror]
  | absent hopen hall hpath hmissing =>
    rw [run_enterSite (hgate.trans hopen) hall, hpath]
    dsimp only
    rw [hmissing]

/-- Idle sites yield no value. -/
theorem run_fromSites_of_idle {name : String} {sites : List Site}
    (h : ∀ site ∈ sites, site.Idle σ.loader (named g answer)) :
    ((Scope.entry g).fromSites name sites).run σ.plain answer = .ok none := by
  induction sites with
  | nil => rfl
  | cons site sites ih =>
    obtain ⟨hsite, hsites⟩ := List.forall_mem_cons.1 h
    rw [Scope.fromSites, run_plain_bind, run_enterSite_of_idle hsite]
    exact ih hsites

/-- An idle site leads nowhere. -/
theorem not_leadsTo_of_idle {k : Nat} {site : Site}
    (h : site.Idle σ.loader (named g (σ.plain.answer k))) (graph : Graph) :
    ¬ σ.LeadsTo (.entry g) site graph := by
  intro hl
  have hvalue : ∀ {n v}, named g (σ.plain.answer k) n = .ok v → σ.HasValue (.entry g) n v :=
    fun hv => ⟨k, hv⟩
  obtain ⟨values, path, hvalues, hpath, hmodule⟩ := hl.module
  have hunique : Relator.RightUnique (σ.HasValue (.entry g)) := fun _ _ _ hu hv => hu.unique hv
  have hsame : ∀ {values' : List Value}, List.Forall₂
      (fun n v => named g (σ.plain.answer k) n = .ok v) site.template.inputs values' →
      values' = values := fun hall => hunique.forall₂ (hall.imp fun _ _ hv => hvalue hv) hvalues
  cases h with
  | shut hshut =>
    obtain ⟨c, hc, v, hv, hshut⟩ := Graph.exists_of_opens_false hshut
    obtain rfl : v = .bool true := (hvalue hv).unique (hl.gate c hc)
    cases hshut
  | untold hopen hall hnone =>
    obtain rfl := hsame hall
    obtain ⟨error, herror⟩ := Site.render_of_textless hall hnone
    cases hpath.symm.trans herror
  | absent hopen hall hpath' hmissing =>
    obtain rfl := hsame hall
    obtain rfl := Except.ok.inj (hpath.symm.trans hpath')
    cases hmodule.symm.trans hmissing

/-! ### Settled names -/

/-- The answers to the goals of an entry module that settles all names are those that running the
plans of the goals finds. -/
theorem Settles.answers (h : σ.Settles g (fun _ => True) rank) {k : Nat}
    (hk : ∀ n, 3 * rank n + 2 < k) : σ.Answers g (σ.plain.answer k) := by
  have hrun : ∀ goal, AtEntry g (fun _ => True) goal → goal.height rank < k →
      σ.plain.answer k goal = goal.plan.run σ.plain (σ.plain.answer k) :=
    fun goal => h.plain_eq_run
  refine ⟨fun n => ?_, fun {n r d} hd => ?_, fun n => ?_⟩
  · exact hrun (.frame (.name (.entry g) n)) ⟨rfl, trivial⟩ (hk n)
  · refine hrun (.frame (.definition (.entry g) n r d)) ⟨rfl, trivial, hd⟩ ?_
    exact Nat.lt_of_le_of_lt (Nat.le_add_right _ 2) (hk n)
  · exact hrun (.primary (.entry g) n) ⟨rfl, trivial⟩ (Nat.lt_of_succ_lt (hk n))

/-- What an entry module settles, it settles also for fewer names, if these are all that the graph
looks up. -/
theorem Settles.restrict {p q : String → Prop} (h : σ.Settles g p rank) (hq : ∀ n, q n → p n)
    (hlookups : ∀ n ∈ g.lookups, q n) : σ.Settles g q rank where
  stateless := h.stateless
  descends hn m hm :=
    ⟨hlookups m (Graph.mem_lookups_of_successor hm), (h.descends (hq _ hn) m hm).2⟩
  asks hn ha site hs m hm :=
    ⟨hlookups m (Graph.mem_lookups_of_site hs hm), (h.asks (hq _ hn) ha site hs m hm).2⟩
  strays hn := h.strays (hq _ hn)

/-- The graph looks up a name on which sites depend. -/
def BoundLookup (g : Graph) (n : String) : Prop :=
  g.bindsSites n = true ∧ n ∈ g.lookups

/-- An entry module settles the names on which its sites depend, wherever they lead. -/
theorem settles_bound (hrank : g.Ranked rank) (hstateless : g.Stateless) :
    σ.Settles g (BoundLookup g) rank where
  stateless := hstateless
  descends hn m hm := ⟨⟨Graph.bindsSites_of_successor hn.1 hm, Graph.mem_lookups_of_successor hm⟩,
    hrank _ m hm⟩
  asks hn ha := absurd hn.1 (Scope.not_bindsSites_of_asksSites ha)
  strays hn ha := absurd hn.1 (Scope.not_bindsSites_of_asksSites ha)

/-- The rank of a name about which sites may be asked: above all names on which sites depend. -/
def askingRank (g : Graph) (rank : String → Nat) (n : String) : Nat :=
  if g.bindsSites n then rank n else g.size + 1 + rank n

theorem askingRank_lt (hle : ∀ n, rank n ≤ g.size) (n : String) :
    3 * askingRank g rank n + 2 < 6 * g.size + 6 := by
  have hn := hle n
  unfold askingRank
  split <;> omega

/-- An entry module whose sites lead nowhere settles all names. -/
theorem settles_of_strays (hrank : g.Ranked rank) (hle : ∀ n, rank n ≤ g.size)
    (hstateless : g.Stateless)
    (hstrays : ∀ site ∈ g.sites, ∀ graph, ¬ σ.LeadsTo (.entry g) site graph) :
    σ.Settles g (fun _ => True) (askingRank g rank) where
  stateless := hstateless
  descends {n} _ m hm := by
    refine ⟨trivial, ?_⟩
    have hlt := hrank n m hm
    have hm' := hle m
    unfold askingRank
    by_cases hn : g.bindsSites n = true
    · rwa [if_pos hn, if_pos (Graph.bindsSites_of_successor hn hm)]
    · rw [if_neg hn]
      split <;> omega
  asks {n} _ ha site hs m hm := by
    refine ⟨trivial, ?_⟩
    have hm' := hle m
    have hn : ¬ g.bindsSites n = true := Scope.not_bindsSites_of_asksSites ha
    rw [askingRank, askingRank, if_pos (Graph.bindsSites_of_dependency hs hm), if_neg hn]
    omega
  strays _ _ := hstrays

/-- An entry module without sites settles all names. -/
theorem settles_of_no_sites (hsites : g.sites = []) (hrank : g.Ranked rank)
    (hstateless : g.Stateless) : σ.Settles g (fun _ => True) rank where
  stateless := hstateless
  descends _ m hm := ⟨trivial, hrank _ m hm⟩
  asks _ _ site hs := by
    rw [hsites] at hs
    cases hs
  strays _ _ site hs := by
    rw [hsites] at hs
    cases hs

end Setting

/-! ### Sessions -/

/-- If an entry module settles all names and its sites are idle, its names have meanings, and an
execution that starts answers with them. -/
theorem Execution.serve_of_idle {g : Graph} {e : Engine} (he : e.Numbered)
    (inputs : Table String Value) (loader : Loader) {rank : String → Nat}
    (hlookups : ∀ n ∈ g.lookups, Text.Sheltered n.toList) {k : Nat}
    (hk : ∀ n, 3 * rank n + 2 < k) :
    let x := (Execution.start e g inputs).1
    let e := (Execution.start e g inputs).2
    let σ := x.setting loader
    σ.Settles g (fun _ => True) rank →
    (∀ site ∈ g.sites, site.Idle loader (Setting.named g (σ.plain.answer k))) →
    ∃ den : String → Except Halt Value, (∀ n, den n = g.meaning σ den n) ∧
      (∀ n, Ends True (den n)) ∧ ∀ requests : List Request,
        (∀ r ∈ requests, r.loader = loader ∧ '#' ∉ r.name.toList ∧ k ≤ r.budget) →
          (x.serve e requests).1 = requests.map fun r => den r.name := by
  intro x e' σ hsettles hidle
  have hanswers := hsettles.answers hk
  refine ⟨Setting.named g (σ.plain.answer k), fun n => ?_, fun n => ?_, fun requests hr => ?_⟩
  · exact Setting.named_meaning_of_fromSites hanswers (Setting.run_fromSites_of_idle hidle)
  · have hgoal : Setting.AtEntry g (fun _ => True) (.frame (.name (.entry g) n)) := ⟨rfl, trivial⟩
    exact (hsettles.ends_plain k hgoal).imp fun _ => hk n
  · have hsound := Execution.sound_start he g inputs loader
      (Setting.AtEntry g fun n => Text.Sheltered n.toList)
    refine Execution.serve_settled (hsettles.restrict (fun _ _ => trivial) hlookups)
      (fun _ hn => hn) hsound fun r hmem => ?_
    obtain ⟨hloader, hn, hbudget⟩ := hr r hmem
    exact ⟨hloader, Text.sheltered_of_not_mem hn, lt_min (hk _) (Nat.lt_of_lt_of_le (hk _) hbudget)⟩

/-- **Absent modules are invisible.** Let a module compile to a graph that keeps no state, and let
all its sites be idle by what an execution of the graph answers about their gates and templates.
With enough budget, every session answers as it does without the sites, whatever names without `#`
are asked for. It answers with the meanings of names: with the proper definition of a name or else
with its default, where their gates open, or else with the input that was given for it, or null; and
no evaluation comes back to itself. -/
theorem idle_sites_are_invisible {source loader : Loader} {path : String} {c : Compiled}
    (h : source.compile path = .ok c) (hstateless : c.graph.Stateless) {d e : Engine}
    (hd : d.Numbered) (he : e.Numbered) (inputs : Table String Value) :
    let x := Execution.start d c.graph inputs
    let y := Execution.start e c.graph.withoutSites inputs
    let enough := 6 * c.graph.size + 6
    ∀ budget, enough ≤ budget →
      (∀ site ∈ c.graph.sites,
        site.Idle loader fun n => (x.1.fetchWithin budget x.2 loader n).1) →
      ∃ den : String → Except Halt Value,
        (∀ other, (∀ n, other n = c.graph.meaning ⟨loader, x.1.id, inputs⟩ other n) ↔
          other = den) ∧
        (∀ n, den n ≠ .error .exhausted ∧ ∀ chain, den n ≠ .error (.failed (.recursion chain))) ∧
        ∀ requests : List Request,
          (∀ r ∈ requests, r.loader = loader ∧ '#' ∉ r.name.toList ∧ enough ≤ r.budget) →
            (x.1.serve x.2 requests).1 = (y.1.serve y.2 requests).1 ∧
            (x.1.serve x.2 requests).1 = requests.map fun r => den r.name := by
  intro x y enough budget hbudget hidle
  obtain ⟨rank, hle, hrank⟩ := Dependency.exists_rank_of_findCycle (findCycle_of_compile h)
  have hlookups : ∀ n ∈ c.graph.lookups, Text.Sheltered n.toList := sheltered_of_mem_lookups h
  have hsize : ∀ n, rank n ≤ c.graph.size := hle
  let σ : Setting := ⟨loader, x.1.id, inputs⟩
  -- The names on which sites depend have the values by which the sites are idle.
  have hbound : ∀ n, Setting.BoundLookup c.graph n → (x.1.fetchWithin budget x.2 loader n).1 =
      Setting.named c.graph (σ.plain.answer enough) n := by
    intro n hn
    have hsound := Execution.sound_start hd c.graph inputs loader
      (Setting.AtEntry c.graph (Setting.BoundLookup c.graph))
    have hheight : 3 * rank n + 2 < min enough budget := by
      have hn := hsize n
      omega
    have hsettles : σ.Settles c.graph (Setting.BoundLookup c.graph) rank :=
      Setting.settles_bound hrank hstateless
    have hsheltered : ∀ m, Setting.BoundLookup c.graph m → Text.Sheltered m.toList :=
      fun m hm => hlookups m hm.2
    exact Execution.fetch_settled hsettles hsheltered hsound hn hheight
  have hidle' : ∀ site ∈ c.graph.sites,
      site.Idle loader (Setting.named c.graph (σ.plain.answer enough)) := fun site hs =>
    (hidle site hs).congr fun n hn =>
      hbound n ⟨Graph.bindsSites_of_dependency hs hn, Graph.mem_lookups_of_site hs hn⟩
  -- So the sites lead nowhere, and with and without them all names have meanings.
  obtain ⟨den, hden, hends, hserve⟩ := Execution.serve_of_idle hd inputs loader hlookups
    (Setting.askingRank_lt hsize) (Setting.settles_of_strays hrank hsize hstateless fun site hs =>
      Setting.not_leadsTo_of_idle (hidle' site hs)) hidle'
  have hlookups' : ∀ n ∈ c.graph.withoutSites.lookups, Text.Sheltered n.toList := fun n hn =>
    hlookups n (Graph.mem_lookups_of_withoutSites hn)
  have henough : ∀ n, 3 * rank n + 2 < enough := fun n => by
    have hn := hsize n
    omega
  obtain ⟨den', hden', -, hserve'⟩ := Execution.serve_of_idle he inputs loader
    hlookups' henough (Setting.settles_of_no_sites rfl hrank hstateless) nofun
  -- What names mean does not depend on the sites.
  have hsame : den' = den := by
    refine Graph.meaning_unique hrank (fun n => ?_) hden
    rw [hden' n, Graph.meaning_withoutSites]
    rfl
  refine ⟨den, fun other => ⟨fun hother => Graph.meaning_unique hrank hother hden, ?_⟩,
    fun n => ⟨(hends n).finished trivial, (hends n).descends⟩, fun requests hr => ?_⟩
  · rintro rfl
    exact hden
  · refine ⟨?_, hserve requests hr⟩
    rw [hserve requests hr, hserve' requests hr, hsame]

/-- Friends are greeted by their names, which modules for the kind and the team of the visitor may
give; there are no such modules. -/
def visitors : Loader :=
  (Bundle.ofList [
    ("main", "LET Kind := input(); INCLUDE \"${Kind}\"; LET Team := input();
      INCLUDE \"team/${Team}\"; LET Name := \"friend\" DEFAULT;
      LET Title := concat(\"dear \", Name);")]).loader

/-- A visitor of no known kind. -/
def redVisitor : Table String Value :=
  .ofList [("Team", .string "red"), ("Seat", .string "A1")]

/-- For what the visitor asks: a binding, a default, an input and nothing. -/
def visitorNames : List String :=
  ["Title", "Name", "Seat", "Guide"]

/-- The visitor is greeted as if no modules were included. -/
theorem visitors_unannounced :
    ∃ c, visitors.compile "main" = .ok c ∧
      let x := Execution.start .start c.graph redVisitor
      let y := Execution.start .start c.graph.withoutSites redVisitor
      let requests := visitorNames.map (Request.mk visitors Execution.budget)
      (x.1.serve x.2 requests).1 = (y.1.serve y.2 requests).1 ∧
        ∃ den : String → Except Halt Value,
          (∀ n, den n = c.graph.meaning ⟨visitors, x.1.id, redVisitor⟩ den n) ∧
          (x.1.serve x.2 requests).1 = visitorNames.map den ∧
          den "Title" = .ok (.string "dear friend") ∧ den "Name" = .ok (.string "friend") ∧
          den "Seat" = .ok (.string "A1") ∧ den "Guide" = .ok .null := by
  have heval : (visitors.compile "main").toOption.map (fun c =>
      (decide c.graph.Stateless, c.graph.size,
        let x := Execution.start .start c.graph redVisitor
        (decide (∀ site ∈ c.graph.sites,
          site.Idle visitors fun n => (x.1.fetchWithin 30 x.2 visitors n).1),
          (x.1.serve x.2 (visitorNames.map (Request.mk visitors Execution.budget))).1.map
            Except.toOption))) =
      some (true, 4, true, [some (.string "dear friend"), some (.string "friend"),
        some (.string "A1"), some .null]) := by
    decide +kernel
  obtain ⟨c, hc, heval⟩ := exists_ok_of_map heval
  simp only [Prod.mk.injEq, decide_eq_true_eq] at heval
  obtain ⟨hstateless, hsize, hidle, hanswers⟩ := heval
  have hbudget : 6 * c.graph.size + 6 ≤ 30 := by rw [hsize]
  obtain ⟨den, hden, -, hserve⟩ := idle_sites_are_invisible hc hstateless
    Engine.numbered_start Engine.numbered_start redVisitor 30 hbudget hidle
  have hrequests := hserve (visitorNames.map (Request.mk visitors Execution.budget)) ?_
  · rw [hrequests.2] at hanswers
    obtain ⟨htitle, hname, hseat, hguide⟩ :
        (den "Title").toOption = some (.string "dear friend") ∧
        (den "Name").toOption = some (.string "friend") ∧
        (den "Seat").toOption = some (.string "A1") ∧ (den "Guide").toOption = some .null := by
      simpa [visitorNames] using hanswers
    exact ⟨c, hc, hrequests.1, den, (hden den).2 rfl, hrequests.2, eq_ok_of_toOption htitle,
      eq_ok_of_toOption hname, eq_ok_of_toOption hseat, eq_ok_of_toOption hguide⟩
  · intro r hr
    obtain ⟨n, hn, rfl⟩ := List.mem_map.1 hr
    have hunmarked : ∀ n ∈ visitorNames, '#' ∉ n.toList := by decide
    have henough : 6 * 4 + 6 ≤ Execution.budget := by decide
    exact ⟨rfl, hunmarked n hn, hsize ▸ henough⟩

end GatedRules
