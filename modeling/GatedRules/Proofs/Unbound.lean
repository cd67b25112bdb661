import GatedRules.Proofs.BareModules
import GatedRules.Proofs.Meaning
import GatedRules.Proofs.Nesting

/-!
# Names without bindings

In a program of bare modules a name that no binding is for has no other value than its input,
wherever it is looked up (`Bare.eq_input`). No definition is for it, so no module at a site has a
value for it; and the search ends with the inputs, outside of the entry module.

Where no module binds anything, this tells where sites lead without an evaluation: inputs alone make
their targets (`Setting.targets`). So a list of chains of modules can be checked by computation for
having the chains of all scopes that are reached (`Setting.Covers`), and whether a program is
regular can be read off such a list (`regular_of_covers`).
-/

namespace GatedRules

namespace Setting

variable {σ : Setting} {entry : Graph} {q : String → Prop} {s : Scope} {n : String} {α : Type}

/-- A plan that keeps to what evaluations ask for has a result as described. -/
theorem of_run_plain {may : Goal → Prop} {Q : Unit → α → Prop} {x : Plan α} {a : α} {k : Nat}
    (hx : x.Follows (σ.protocol may) Q ()) (h : x.run σ.plain (σ.plain.answer k) = .ok a) :
    Q () a := by
  induction x with
  | done b =>
    obtain rfl : b = a := Except.ok.inj h
    exact hx
  | fail error => cases h
  | perform action next ih =>
    obtain ⟨r, hr, h⟩ := bind_eq_ok.1 h
    exact ih r (hx.2 () r trivial hr) h
  | ask goal next ih =>
    obtain ⟨r, hr, h⟩ := bind_eq_ok.1 h
    exact ih r (hx.2 () r trivial ⟨k, hr⟩) h

/-- A scope that is entered is that of a module to which the site leads. -/
theorem leadsTo_of_run {site : Site} {child : Scope} {k : Nat}
    (h : (s.enterSite site).run σ.plain (σ.plain.answer k) = .ok (some child)) :
    ∃ g, child = s.child g ∧ σ.LeadsTo s site g := by
  have hfollows : (s.enterSite site).Follows (σ.protocol fun _ => True) (fun t r => ∀ child,
      r = some child → ∃ g, child = s.child g ∧ (σ.protocol fun _ => True).LeadsTo t s site g) () :=
    Scope.enterSite_follows (fun _ _ => trivial) fun _ => nofun
  obtain ⟨g, hg, hl⟩ := of_run_plain hfollows h child rfl
  exact ⟨g, hg, leadsTo_of_protocol hl⟩

/-- Sites yield no value for a name for which the modules that they lead to have none. -/
theorem eq_none_of_run_fromSites {sites : List Site} {r : Option Value} {k : Nat}
    (hchild : ∀ site ∈ sites, ∀ g, σ.LeadsTo s site g → ∀ r,
      σ.plain.answer k (.primary (s.child g) n) = .ok r → r = none)
    (h : (s.fromSites n sites).run σ.plain (σ.plain.answer k) = .ok r) : r = none := by
  induction sites with
  | nil => exact (Except.ok.inj h).symm
  | cons site sites ih =>
    obtain ⟨hsite, hsites⟩ := List.forall_mem_cons.1 hchild
    rw [Scope.fromSites, run_plain_bind] at h
    obtain ⟨entered, hentered, h⟩ := bind_eq_ok.1 h
    cases entered with
    | none => exact ih hsites h
    | some child =>
      obtain ⟨g, rfl, hl⟩ := leadsTo_of_run hentered
      dsimp only at h
      rw [run_plain_bind, run_plain_primary] at h
      obtain ⟨v?, hv, h⟩ := bind_eq_ok.1 h
      obtain rfl := hsite g hl v? hv
      exact ih hsites h

/-- No proper definition and no module gives a name a value that no binding is for. -/
theorem Bare.eq_none_of_primary (hp : σ.Bare entry q) (hn : ¬ q n) {k : Nat}
    (hs : σ.Reached entry s) {r : Option Value}
    (h : σ.plain.answer k (.primary s n) = .ok r) : r = none := by
  induction k generalizing s r with
  | zero => cases h
  | succ k ih =>
    have hprimary : s.definition? n .primary = none := (hp _ hs).definition?_eq_none hn _
    have h : (s.fromPrimary n).run σ.plain (σ.plain.answer k) = .ok r := by
      rwa [plain_succ] at h
    unfold Scope.fromPrimary at h
    rw [Scope.fromRank_of_none hprimary] at h
    have h : (if s.asksSites n then s.fromSites n s.graph.sites else pure none : Plan _).run
      σ.plain (σ.plain.answer k) = .ok r := h
    split at h
    · exact eq_none_of_run_fromSites (fun site hsite g hl r hr => ih (.child hs hsite hl) hr) h
    · exact (Except.ok.inj h).symm

/-- A name that no binding is for can have no other value than its input. -/
theorem Bare.eq_input (hp : σ.Bare entry q) (hn : ¬ q n) {k : Nat}
    (hs : σ.Reached entry s) {v : Value}
    (h : σ.plain.answer k (.frame (.name s n)) = .ok v) : v = σ.input n := by
  induction k generalizing s with
  | zero => cases h
  | succ k ih =>
    have hfallback : s.definition? n .fallback = none := (hp _ hs).definition?_eq_none hn _
    have h : (s.settle n).run σ.plain (σ.plain.answer k) = .ok v := by
      rwa [plain_succ] at h
    unfold Scope.settle at h
    rw [run_plain_bind, run_plain_primary] at h
    obtain ⟨r, hr, h⟩ := bind_eq_ok.1 h
    obtain rfl := hp.eq_none_of_primary hn hs hr
    dsimp only at h
    rw [Scope.fromRank_of_none hfallback] at h
    obtain ⟨g, around⟩ := s
    cases around with
    | nil => exact (Except.ok.inj h).symm
    | cons g' gs =>
      have h : (Plan.value (.name ⟨g', gs⟩ n)).run σ.plain (σ.plain.answer k) = .ok v := h
      rw [run_plain_value] at h
      exact ih (hs.around rfl) h

/-! ### Programs without bindings -/

/-- The path of the module to which a site leads if the inputs have the values of its names. -/
def target? (σ : Setting) (site : Site) : Option String :=
  let names := site.template.inputs
  match Engine.render site (Table.ofList (names.zip (names.map σ.input))).get? with
  | .error _ => none
  | .ok path =>
    match Engine.outcome σ.loader (Path.canonical path) with
    | .ok (.resolved g) => some g.root
    | _ => none

/-- The paths of the modules to which the sites of a module lead. -/
def targets (σ : Setting) (path : String) : List String :=
  match σ.loader.compile path with
  | .ok c => c.graph.sites.filterMap σ.target?
  | .error _ => []

/-- A list of chains of modules covers a program: it has the chain of the entry module alone, and
with a chain those that go on with a module to which a site of the last one leads. -/
structure Covers (σ : Setting) (entry : String) (chains : List (List String)) : Prop where
  /-- The entry module is covered. -/
  entry : [entry] ∈ chains
  /-- What modules include is covered. -/
  step : ∀ chain ∈ chains, ∀ path ∈ chain.getLast?, ∀ target ∈ σ.targets path,
    chain ++ [target] ∈ chains
  /-- Paths are canonical. -/
  canonical : ∀ chain ∈ chains, ∀ path ∈ chain, Path.canonical path = path

/-- A site leads to its target. -/
theorem LeadsTo.target? (hp : σ.Bare entry fun _ => False) (hs : σ.Reached entry s) {site : Site}
    {g : Graph} (hl : σ.LeadsTo s site g) : σ.target? site = some g.root := by
  obtain ⟨values, path, hvalues, hrender, ho⟩ := hl.module
  -- A name without bindings has its input as its value.
  have hinputs : values = site.template.inputs.map σ.input := by
    have hall : List.Forall₂ (fun n v => σ.input n = v) site.template.inputs values :=
      hvalues.imp fun n v ⟨k, hk⟩ => (hp.eq_input not_false hs hk).symm
    have hmap := List.forall₂_map_left_iff.2 hall
    rw [List.forall₂_eq_eq_eq] at hmap
    exact hmap.symm
  unfold Setting.target?
  dsimp only
  rw [← hinputs, hrender]
  dsimp only
  rw [ho]

/-- The graph of a reached scope is that of its module, if its path is canonical. -/
theorem Reached.compile_root {path : String} {c : Compiled} (h : σ.loader.compile path = .ok c)
    (hs : σ.Reached c.graph s) (hroot : Path.canonical s.graph.root = s.graph.root) :
    ∃ c', σ.loader.compile s.graph.root = .ok c' ∧ c'.graph = s.graph := by
  obtain ⟨path', c', hc, hg⟩ :
      ∃ path' c', σ.loader.compile path' = .ok c' ∧ c'.graph = s.graph := by
    cases hs with
    | entry => exact ⟨path, c, h, rfl⟩
    | child _ _ hl =>
      obtain ⟨_, path', -, -, ho⟩ := hl.module
      exact ⟨_, Engine.compile_of_outcome ho⟩
  refine ⟨c', ?_, hg⟩
  rw [← hc]
  refine σ.loader.compile_congr (hroot.trans ?_)
  rw [← hg]
  exact (root_of_compile hc).1

/-- The chains of all scopes that are reached are covered. -/
theorem Reached.covered {path : String} {c : Compiled} (h : σ.loader.compile path = .ok c)
    (hp : σ.Bare c.graph fun _ => False) {chains : List (List String)}
    (hcovers : σ.Covers c.graph.root chains) (hs : σ.Reached c.graph s) :
    s.paths ∈ chains := by
  induction hs with
  | entry => exact hcovers.entry
  | @child s site g hs hsite hl ih =>
    have hlast : s.paths.getLast? = some s.graph.root := by simp [Scope.paths]
    have hcanonical := hcovers.canonical _ ih s.graph.root (List.mem_of_getLast? hlast)
    obtain ⟨c', hc, hg⟩ := hs.compile_root h hcanonical
    have htarget : g.root ∈ σ.targets s.graph.root := by
      rw [targets, hc]
      dsimp only
      rw [hg]
      exact List.mem_filterMap.2 ⟨site, hsite, hl.target? hp hs⟩
    rw [Scope.paths_child]
    exact hcovers.step _ ih _ hlast _ htarget

/-- A program without bindings is regular if it is covered by chains of different modules without
marks in their paths. -/
theorem regular_of_covers {path : String} {c : Compiled} (h : σ.loader.compile path = .ok c)
    (hloader : σ.loader.Bare fun _ => False) {chains : List (List String)}
    (hcovers : σ.Covers c.graph.root chains)
    (hchains : ∀ chain ∈ chains,
      chain.Nodup ∧ ∀ path ∈ chain, '|' ∉ path.toList ∧ ':' ∉ path.toList) :
    σ.Regular c.graph := by
  have hp := hloader.setting h
  refine ⟨fun hs => (hchains _ (hs.covered h hp hcovers)).2, fun hs => (hp _ hs).stateless,
    fun hs => ?_⟩
  have hmem := hs.covered h hp hcovers
  rw [List.map_congr_left (hcovers.canonical _ hmem), List.map_id']
  exact (hchains _ hmem).1

end Setting

end GatedRules
