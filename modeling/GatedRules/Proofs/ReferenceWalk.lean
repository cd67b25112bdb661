import GatedRules.Proofs.Occurrences
import GatedRules.Source.Bundle

/-!
# The reference walk

The reference walk keeps nothing but the list of what it has come across: a module is fetched and
parsed anew at every include, and there is neither a table of modules nor one of slots. `Walks` says
where it leads. `Loader.walk` does keep tables, and simulates it: what has been found so far is that
of the occurrences so far (`Walk.Finds`), every statement keeps this so (`finds_take`), and so does
a whole walk (`finds_resolve`).

So a module that compiles has the graph of its reference walk (`compile_follows_reference_walk`).
-/

namespace GatedRules

open Occurrences

/-! ### The reference walk -/

/-- The reference walk over statements of the module `origin`, which is reached under a gate, leads
from the occurrences so far to those at the end. -/
inductive Walks (loader : Loader) :
    String → Gate → List Statement → List Occurrence → List Occurrence → Prop
  /-- There is no statement left. -/
  | nil {origin : String} {gate : Gate} {os : List Occurrence} : Walks loader origin gate [] os os
  /-- A binding occurs under the gate of the module. -/
  | binding {origin : String} {gate : Gate} {name : String} {expr : Expr} {isDefault : Bool}
    {line : Nat} {rest : List Statement} {os os' : List Occurrence} :
    Walks loader origin gate rest (os ++ [.binding origin gate name expr isDefault]) os' →
    Walks loader origin gate (.binding name expr isDefault line :: rest) os os'
  /-- An include whose target is known leads through the included module: first its condition
  occurs, then the module is entered under its own gate. -/
  | enter {origin : String} {gate : Gate} {directive : Include} {target source : String}
    {module rest : List Statement} {os mid os' : List Occurrence} :
    directive.target.render (literal? os) = .ok target →
    loader.fetch (Path.canonical target) = .ok source →
    Statement.parse (Path.canonical target) source = .ok module →
    Walks loader (Path.canonical target)
      (gate.and (gateOf (os ++ ofCondition origin directive.condition) directive.condition)) module
      (os ++ ofCondition origin directive.condition ++ [.visit (Path.canonical target)]) mid →
    Walks loader origin gate rest mid os' →
    Walks loader origin gate (.inclusion directive :: rest) os os'
  /-- An include whose target takes a name that has no known text is a site; it has no condition. -/
  | site {origin name : String} {gate : Gate} {directive : Include} {rest : List Statement}
    {os os' : List Occurrence} :
    directive.target.render (literal? os) = .error name → directive.condition = none →
    Walks loader origin gate rest
      (os ++ [.site ⟨directive.target, gate, origin, directive.line⟩]) os' →
    Walks loader origin gate (.inclusion directive :: rest) os os'

/-- The reference walk over the module at a path, under a gate, leads from the occurrences so far to
those at the end. -/
def Enters (loader : Loader) (path : String) (gate : Gate) (os os' : List Occurrence) : Prop :=
  ∃ source module, loader.fetch path = .ok source ∧ Statement.parse path source = .ok module ∧
    Walks loader path gate module (os ++ [.visit path]) os'

/-- There is at most one way for the reference walk. -/
theorem Walks.unique {loader : Loader} {origin : String} {gate : Gate} {ss : List Statement}
    {os os' os'' : List Occurrence} (h : Walks loader origin gate ss os os')
    (h' : Walks loader origin gate ss os os'') : os' = os'' := by
  -- At an include, it is the target that decides which way the walk goes on, and into which module.
  induction h generalizing os'' with
  | nil =>
    cases h'
    rfl
  | binding _ ih =>
    cases h' with
    | binding h' => exact ih h'
  | enter ht hf hp _ _ ihin ihrest =>
    cases h' with
    | enter ht' hf' hp' hin' hrest' =>
      obtain rfl := Except.ok.inj (ht.symm.trans ht')
      obtain rfl := Except.ok.inj (hf.symm.trans hf')
      obtain rfl := Except.ok.inj (hp.symm.trans hp')
      obtain rfl := ihin hin'
      exact ihrest hrest'
    | site ht' =>
      rw [ht] at ht'
      cases ht'
  | site ht _ _ ih =>
    cases h' with
    | enter ht' =>
      rw [ht] at ht'
      cases ht'
    | site _ _ h' => exact ih h'

theorem Enters.unique {loader : Loader} {path : String} {gate : Gate}
    {os os' os'' : List Occurrence} (h : Enters loader path gate os os')
    (h' : Enters loader path gate os os'') : os' = os'' := by
  obtain ⟨source, module, hf, hp, hw⟩ := h
  obtain ⟨source', module', hf', hp', hw'⟩ := h'
  obtain rfl := Except.ok.inj (hf.symm.trans hf')
  obtain rfl := Except.ok.inj (hp.symm.trans hp')
  exact hw.unique hw'

/-! ### Steps of a walk -/

namespace Walk

variable {α β : Type}

/-- A step succeeds with a result, and leads from what has been found to what is found then. -/
def Yields (x : WalkM α) (w : Walk) (a : α) (w' : Walk) : Prop :=
  ExceptT.run x w = (.ok a, w')

/-- A step after another one, which is not taken if the first fails. -/
theorem run_bind (x : WalkM α) (f : α → WalkM β) (w : Walk) :
    ExceptT.run (x >>= f) w =
      match ExceptT.run x w with
      | (.ok a, w') => ExceptT.run (f a) w'
      | (.error error, w') => (.error error, w') := by
  change (match ExceptT.run x w with
    | (r, w') => (ExceptT.bindCont f r) w') = _
  rcases ExceptT.run x w with ⟨_ | _, _⟩ <;> rfl

theorem run_pure (a : α) (w : Walk) : ExceptT.run (pure a : WalkM α) w = (.ok a, w) :=
  rfl

theorem run_get (w : Walk) : ExceptT.run (get : WalkM Walk) w = (.ok w, w) :=
  rfl

theorem run_modify (f : Walk → Walk) (w : Walk) :
    ExceptT.run (modify f : WalkM Unit) w = (.ok (), f w) :=
  rfl

theorem yields_bind {x : WalkM α} {f : α → WalkM β} {b : β} {w w'' : Walk} :
    Yields (x >>= f) w b w'' ↔ ∃ a w', Yields x w a w' ∧ Yields (f a) w' b w'' := by
  unfold Yields
  rw [run_bind]
  rcases ExceptT.run x w with ⟨error | a, w'⟩
  · constructor
    · intro h
      cases h
    · rintro ⟨_, _, h, _⟩
      cases h
  · constructor
    · exact fun h => ⟨a, w', rfl, h⟩
    · rintro ⟨_, _, h, hf⟩
      cases h
      exact hf

theorem yields_pure {a b : α} {w w' : Walk} :
    Yields (pure a) w b w' ↔ a = b ∧ w = w' := by
  refine ⟨fun h => ?_, fun h => ?_⟩
  · cases h
    exact ⟨rfl, rfl⟩
  · obtain ⟨rfl, rfl⟩ := h
    rfl

theorem not_yields_throw {error : CompileError} {a : α} {w w' : Walk} :
    ¬ Yields (throw error) w a w' := by
  intro h
  cases h

theorem yields_get {w w' v : Walk} : Yields get w v w' ↔ w = v ∧ w = w' := by
  refine ⟨fun h => ?_, fun h => ?_⟩
  · cases h
    exact ⟨rfl, rfl⟩
  · obtain ⟨rfl, rfl⟩ := h
    rfl

theorem yields_modify {f : Walk → Walk} {u : Unit} {w w' : Walk} :
    Yields (modify f) w u w' ↔ f w = w' := by
  refine ⟨fun h => ?_, fun h => ?_⟩
  · cases h
    rfl
  · subst h
    rfl

/-- A known module is not asked for again. -/
theorem run_load_known {loader : Loader} {w : Walk} {path : String} {module : List Statement}
    (h : w.modules.get? path = some module) (includedFrom : Option String) :
    ExceptT.run (load loader path includedFrom) w = (.ok module, w) := by
  simp only [load, run_bind, run_get, h, run_pure]

/-- At its first visit, a module is asked for; the answer of the loader decides on the rest. -/
theorem run_load_new {loader : Loader} {w : Walk} {path : String}
    (h : w.modules.get? path = none) (includedFrom : Option String) :
    ExceptT.run (load loader path includedFrom) w =
      match loader.fetch path with
      | .error (.notFound _) =>
        (.error (.notFound path includedFrom), { w with asked := w.asked ++ [path] })
      | .error error => (.error (.load path error), { w with asked := w.asked ++ [path] })
      | .ok source =>
        match Statement.parse path source with
        | .error error => (.error (.malformed error),
            ⟨w.draft, w.modules, w.fetched ++ [(path, source)], w.asked ++ [path]⟩)
        | .ok module => (.ok module, ⟨w.draft, w.modules.insert path module,
            w.fetched ++ [(path, source)], w.asked ++ [path]⟩) := by
  simp only [load, run_bind, run_get, h, run_modify]
  rcases loader.fetch path with (_ | _) | source
  · rfl
  · rfl
  · simp only [run_bind, run_modify]
    rcases Statement.parse path source with _ | _ <;> rfl

/-! ### What has been found -/

/-- What a walk has found is what the reference walk has come across. -/
structure Finds (loader : Loader) (w : Walk) (os : List Occurrence) : Prop where
  /-- The slots and sites are those of the occurrences. -/
  draft : w.draft.Records os
  /-- The modules are those entered. -/
  modules : w.modules.keys = Occurrences.modules os
  /-- The statements of a module are those of its source. -/
  parsed : ∀ {path module}, w.modules.get? path = some module →
    ∃ source, loader.fetch path = .ok source ∧ Statement.parse path source = .ok module
  /-- The modules have been fetched in the order of the first visit. -/
  order : w.fetched.map Prod.fst = Occurrences.modules os
  /-- The sources are those of the loader. -/
  fetched : ∀ fetched ∈ w.fetched, loader.fetch fetched.1 = .ok fetched.2

variable {loader : Loader} {w w' : Walk} {os : List Occurrence}

theorem Finds.start (loader : Loader) : Finds loader Walk.start [] where
  draft := .empty
  modules := rfl
  parsed h := by cases h
  order := rfl
  fetched _ h := absurd h List.not_mem_nil

/-- Occurrences that enter no module, together with a change to the draft. -/
theorem Finds.register (h : Finds loader w os) {d : Draft} {new : List Occurrence}
    (hd : d.Records (os ++ new)) (hnew : new.filterMap Occurrence.visited? = []) :
    Finds loader { w with draft := d } (os ++ new) := by
  have hm : Occurrences.modules (os ++ new) = Occurrences.modules os := by
    rw [Occurrences.modules, List.filterMap_append, hnew, List.append_nil, Occurrences.modules]
  exact ⟨hd, hm ▸ h.modules, h.parsed, hm ▸ h.order, h.fetched⟩

theorem modules_visit (path : String) :
    Occurrences.modules (os ++ [.visit path]) =
      if path ∈ Occurrences.modules os then Occurrences.modules os
      else Occurrences.modules os ++ [path] := by
  have hvisit : [Occurrence.visit path].filterMap Occurrence.visited? = [path] := rfl
  rw [Occurrences.modules, List.filterMap_append, hvisit, eraseDups_concat, Occurrences.modules]
  simp only [List.mem_eraseDups]

/-- A visit to a known module changes nothing that has been found. -/
theorem Finds.revisit (h : Finds loader w os) {path : String} (hm : path ∈ w.modules.keys) :
    Finds loader w (os ++ [.visit path]) := by
  have hmodules : Occurrences.modules (os ++ [.visit path]) = _ := modules_visit path
  rw [if_pos (h.modules ▸ hm)] at hmodules
  exact ⟨h.draft.visit path, hmodules ▸ h.modules, h.parsed, hmodules ▸ h.order, h.fetched⟩

/-- A visit to a new module adds the module and its source. -/
theorem Finds.visit (h : Finds loader w os) {path source : String} {module : List Statement}
    (hm : path ∉ w.modules.keys) (hf : loader.fetch path = .ok source)
    (hp : Statement.parse path source = .ok module) {w' : Walk} (hdraft : w'.draft = w.draft)
    (hmodules : w'.modules = w.modules.insert path module)
    (hfetched : w'.fetched = w.fetched ++ [(path, source)]) :
    Finds loader w' (os ++ [.visit path]) := by
  have hvisited : Occurrences.modules (os ++ [.visit path]) = _ := modules_visit path
  rw [if_neg (h.modules ▸ hm)] at hvisited
  refine ⟨hdraft ▸ h.draft.visit path, ?_, ?_, ?_, ?_⟩
  · rw [hmodules, Table.keys_insert_of_not_mem _ hm, h.modules, hvisited]
  · intro q statements hq
    rw [hmodules, Table.get?_insert] at hq
    split at hq
    · rename_i hqp
      cases hq
      exact hqp ▸ ⟨source, hf, hp⟩
    · exact h.parsed hq
  · rw [hfetched, List.map_append, h.order, hvisited]
    rfl
  · intro fetched hmem
    rw [hfetched] at hmem
    rcases List.mem_append.1 hmem with hmem | hmem
    · exact h.fetched fetched hmem
    · obtain rfl := List.mem_singleton.1 hmem
      exact hf

/-- Loading a module finds the statements of its source, and is a visit. -/
theorem finds_load {path : String} {includedFrom : Option String} {module : List Statement}
    (h : Finds loader w os) (hl : Yields (load loader path includedFrom) w module w') :
    (∃ source, loader.fetch path = .ok source ∧ Statement.parse path source = .ok module) ∧
      Finds loader w' (os ++ [.visit path]) := by
  unfold Yields at hl
  cases hm : w.modules.get? path with
  | some known =>
    rw [run_load_known hm] at hl
    cases hl
    have hmem : path ∈ w.modules.keys := by
      rw [← Table.isSome_get?_iff, hm]
      rfl
    exact ⟨h.parsed hm, h.revisit hmem⟩
  | none =>
    rw [run_load_new hm] at hl
    -- The module is fetched, parsed and entered into the table, or the walk ends with an error.
    split at hl
    · cases hl
    · cases hl
    rename_i source hf
    split at hl
    · cases hl
    rename_i statements hp
    cases hl
    exact ⟨⟨source, hf, hp⟩, h.visit (Table.get?_eq_none_iff.1 hm) hf hp rfl rfl rfl⟩

/-- At its first visit, a module is fetched, parsed and kept. -/
theorem yields_load {w : Walk} {source : String} {module : List Statement}
    (hm : w.modules.get? path = none) (hf : loader.fetch path = .ok source)
    (hp : Statement.parse path source = .ok module) (includedFrom : Option String) :
    Yields (load loader path includedFrom) w module
      ⟨w.draft, w.modules.insert path module, w.fetched ++ [(path, source)],
        w.asked ++ [path]⟩ := by
  rw [Yields, run_load_new hm, hf]
  dsimp only
  rw [hp]

theorem finds_define {origin name : String} {gate : Gate} {expr : Expr} {isDefault : Bool}
    {u : Unit} (h : Finds loader w os)
    (hd : Yields (define origin gate name expr isDefault) w u w') :
    Finds loader w' (os ++ [.binding origin gate name expr isDefault]) := by
  unfold define at hd
  obtain ⟨w₀, _, hget, hd⟩ := yields_bind.1 hd
  obtain ⟨rfl, rfl⟩ := yields_get.1 hget
  split at hd
  · exact absurd hd not_yields_throw
  · rename_i draft hdraft
    obtain rfl := yields_modify.1 hd
    exact h.register (h.draft.define hdraft) rfl

/-- The gate of a condition is that of the reference walk. -/
theorem finds_conditionGate {origin : String} {condition : Option Expr} {gate : Gate}
    (h : Finds loader w os) (hc : Yields (conditionGate origin condition) w gate w') :
    Finds loader w' (os ++ ofCondition origin condition) ∧
      gate = gateOf (os ++ ofCondition origin condition) condition := by
  cases condition with
  | none =>
    obtain ⟨rfl, rfl⟩ := yields_pure.1 hc
    exact ⟨h.register (by simpa [ofCondition] using h.draft) rfl, rfl⟩
  | some expr =>
    obtain ⟨w₀, _, hget, hc⟩ := yields_bind.1 hc
    obtain ⟨rfl, rfl⟩ := yields_get.1 hget
    obtain ⟨_, w₁, hset, hc⟩ := yields_bind.1 hc
    obtain rfl := yields_modify.1 hset
    obtain ⟨rfl, rfl⟩ := yields_pure.1 hc
    obtain ⟨hdraft, hgate⟩ := h.draft.defineGate expr origin
    refine ⟨h.register hdraft ?_, hgate⟩
    unfold ofCondition
    dsimp only
    split <;> rfl

/-! ### The simulation -/

/-- One statement leads where the reference walk leads, if included modules do. -/
theorem finds_take {origin : String} {gate : Gate} {enter : String → Gate → WalkM Unit}
    {s : Statement} {u : Unit} (h : Finds loader w os)
    (henter : ∀ {path inner w w' os u}, Finds loader w os → Yields (enter path inner) w u w' →
      ∃ os', Enters loader path inner os os' ∧ Finds loader w' os')
    (ht : Yields (take origin gate enter s) w u w') :
    ∃ mid, Finds loader w' mid ∧ ∀ {rest os'}, Walks loader origin gate rest mid os' →
      Walks loader origin gate (s :: rest) os os' := by
  cases s with
  | binding name expr isDefault line => exact ⟨_, finds_define h ht, .binding⟩
  | inclusion directive =>
    obtain ⟨w₀, _, hget, ht⟩ := yields_bind.1 ht
    obtain ⟨rfl, rfl⟩ := yields_get.1 hget
    have hknown : w.draft.literal? = literal? os := funext h.draft.literals
    rw [hknown] at ht
    unfold Template.target at ht
    cases htarget : directive.target.render (literal? os) with
    | ok target =>
      rw [htarget] at ht
      obtain ⟨inner, w₁, hgate, ht⟩ := yields_bind.1 ht
      obtain ⟨hfound, rfl⟩ := finds_conditionGate h hgate
      obtain ⟨os', ⟨source, module, hf, hp, hw⟩, hfound'⟩ := henter hfound ht
      exact ⟨os', hfound', fun hrest => .enter htarget hf hp hw hrest⟩
    | error name =>
      rw [htarget] at ht
      dsimp only at ht
      cases hc : directive.condition with
      | some expr =>
        simp only [checkSite, hc] at ht
        exact absurd ht not_yields_throw
      | none =>
        simp only [checkSite, hc] at ht
        obtain rfl := yields_modify.1 ht
        exact ⟨_, h.register (h.draft.addSite _) rfl, .site htarget hc⟩

/-- Several statements lead where the reference walk leads, if included modules do. -/
theorem finds_forM {origin : String} {gate : Gate} {enter : String → Gate → WalkM Unit}
    {ss : List Statement} {u : Unit} (h : Finds loader w os)
    (henter : ∀ {path inner w w' os u}, Finds loader w os → Yields (enter path inner) w u w' →
      ∃ os', Enters loader path inner os os' ∧ Finds loader w' os')
    (hs : Yields (ss.forM (take origin gate enter)) w u w') :
    ∃ os', Walks loader origin gate ss os os' ∧ Finds loader w' os' := by
  induction ss generalizing w os with
  | nil =>
    obtain ⟨-, rfl⟩ := yields_pure.1 hs
    exact ⟨os, .nil, h⟩
  | cons s ss ih =>
    obtain ⟨_, w₁, hstep, hs⟩ := yields_bind.1 hs
    obtain ⟨mid, hmid, hwalk⟩ := finds_take h henter hstep
    obtain ⟨os', hrest, hend⟩ := ih hmid hs
    exact ⟨os', hwalk hrest, hend⟩

/-- A walk that succeeds leads where the reference walk leads. -/
theorem finds_resolve {n : Nat} {path : String} {gate : Gate} {chain : List String}
    {includedFrom : Option String} {u : Unit} (h : Finds loader w os)
    (hr : Yields (resolve loader n path gate chain includedFrom) w u w') :
    ∃ os', Enters loader path gate os os' ∧ Finds loader w' os' := by
  induction n generalizing path gate chain includedFrom w w' os u with
  | zero => exact absurd hr not_yields_throw
  | succ n ih =>
    rw [resolve] at hr
    split at hr
    · exact absurd hr not_yields_throw
    obtain ⟨module, w₁, hload, hr⟩ := yields_bind.1 hr
    obtain ⟨⟨source, hf, hp⟩, hvisited⟩ := finds_load h hload
    obtain ⟨os', hw, hend⟩ := finds_forM hvisited (fun hfound he => ih hfound he) hr
    exact ⟨os', ⟨source, module, hf, hp, hw⟩, hend⟩

end Walk

/-! ### Compiled modules -/

/-- A compiled module is what occurrences say: its slots, sites and modules are theirs, in their
order, and definitions are bindings. -/
structure Compiled.Matches (c : Compiled) (loader : Loader) (os : List Occurrence) : Prop where
  /-- The slots are in the order of their first registration. -/
  names : c.graph.names = Occurrences.names os
  /-- Every slot has its place in this order for its ordinal, and no name has two slots. -/
  ordinals : ∀ n i, c.graph.ordinal? n = some i ↔ (Occurrences.names os)[i]? = some n
  /-- The slots are those of the occurrences. -/
  slots : ∀ n, c.graph.slot? n = slot? os n
  /-- Every binding is a definition, and every definition of a value slot is a binding. -/
  bindings : ∀ origin gate name expr isDefault,
    .binding origin gate name expr isDefault ∈ os ↔
      ∃ slot, c.graph.slot? name = some slot ∧ slot.kind = .value ∧
        (if isDefault then slot.fallback? else slot.primary?) = some ⟨expr, gate, origin⟩
  /-- No two bindings are the same definition of a name. -/
  once : (bound os).Nodup
  /-- The sites are in the order of the walk. -/
  sites : c.graph.sites = Occurrences.sites os
  /-- The modules are in the order of the first visit. -/
  modules : c.modules = Occurrences.modules os
  /-- The fingerprint has the source of every module. -/
  fingerprint : ∃ sources, c.graph.fingerprint = .sources sources ∧
    sources.map Prod.fst = Occurrences.modules os ∧
    ∀ source ∈ sources, loader.fetch source.1 = .ok source.2

variable {loader : Loader} {path : String} {c : Compiled}

/-- A module that compiles is what the walk from its path has built. -/
theorem walk_of_compile (h : loader.compile path = .ok c) :
    ∃ u w, loader.walk (Path.canonical path) = (.ok u, w) ∧
      w.draft.build (Path.canonical path) (.sources w.fetched) = .ok c.graph ∧
      c.path = Path.canonical path ∧ c.modules = w.modules.keys := by
  unfold Loader.compile at h
  dsimp only at h
  rcases hw : loader.walk (Path.canonical path) with ⟨error | u, w⟩
  · rw [hw] at h
    cases h
  · rw [hw] at h
    dsimp only at h
    split at h
    · cases h
    · cases h
      exact ⟨u, w, rfl, ‹_›, rfl, rfl⟩

/-- What a walk has found for a module that compiles. -/
theorem finds_of_compile (h : loader.compile path = .ok c) :
    ∃ os w, Enters loader (Path.canonical path) .always [] os ∧ Walk.Finds loader w os ∧
      w.draft.build (Path.canonical path) (.sources w.fetched) = .ok c.graph ∧
      c.path = Path.canonical path ∧ c.modules = w.modules.keys := by
  obtain ⟨u, w, hw, hbuild, hpath, hmodules⟩ := walk_of_compile h
  obtain ⟨os, henters, hfinds⟩ := Walk.finds_resolve (.start loader) hw
  exact ⟨os, w, henters, hfinds, hbuild, hpath, hmodules⟩

/-- Where no name is bound twice in the same way, the bindings are the definitions. -/
theorem mem_binding_iff {os : List Occurrence} (hnodup : (bound os).Nodup) {origin name : String}
    {gate : Gate} {expr : Expr} {isDefault : Bool} :
    .binding origin gate name expr isDefault ∈ os ↔
      definition? os name isDefault = some ⟨expr, gate, origin⟩ := by
  induction os with
  | nil => simp [definition?]
  | cons o os ih =>
    rw [definition?, List.findSome?_cons, List.mem_cons]
    cases hd : o.definition? name isDefault with
    | none =>
      have hne : ¬ .binding origin gate name expr isDefault = o := by
        rintro rfl
        simp [Occurrence.definition?] at hd
      have htail : (bound os).Nodup := hnodup.sublist ((List.sublist_cons_self o os).filterMap _)
      exact (or_iff_right hne).trans (ih htail)
    | some d =>
      cases o with
      | binding origin' gate' name' expr' isDefault' =>
        obtain ⟨⟨rfl, rfl⟩, rfl⟩ : (name' = name ∧ isDefault' = isDefault) ∧
            ⟨expr', gate', origin'⟩ = d := by
          simpa [Occurrence.definition?] using hd
        -- The first binding of this kind is the definition, and no later one is of this kind.
        have hnot : .binding origin gate name' expr isDefault' ∉ os := by
          intro hm
          have hb : (name', isDefault') ∉ bound os := (List.nodup_cons.1 hnodup).1
          exact hb (List.mem_filterMap.2 ⟨_, hm, rfl⟩)
        rw [or_iff_left hnot]
        simp only [Occurrence.binding.injEq, Option.some.injEq, Definition.mk.injEq]
        grind
      | _ => cases hd

/-- The definitions of a value slot. -/
theorem slotOf_value {p f g : Option Definition} {isDefault : Bool} {d : Definition} :
    (∃ slot, slotOf p f g = some slot ∧ slot.kind = .value ∧
      (if isDefault then slot.fallback? else slot.primary?) = some d) ↔
        (if isDefault then f else p) = some d := by
  cases isDefault <;> cases p <;> cases f <;> cases g <;>
    simp [slotOf, Slot.primary?, Slot.fallback?, Definitions.primary?, Definitions.fallback?]

/-- In a list without repetition, an element has its place for its index. -/
theorem idxOf?_eq_some_iff_getElem? {l : List String} (hl : l.Nodup) {a : String} {i : Nat} :
    l.idxOf? a = some i ↔ l[i]? = some a := by
  rw [List.idxOf?_eq_some_iff, List.getElem?_eq_some_iff]
  refine ⟨fun ⟨hi, ha, _⟩ => ⟨hi, by simpa using ha⟩, fun ⟨hi, ha⟩ => ⟨hi, by simpa using ha, ?_⟩⟩
  intro j hj hja
  have hji : l[j] = l[i] := by simpa [ha] using hja
  exact Nat.ne_of_lt hj ((List.getElem_inj hl).1 hji)

/-- **A compiled module is that of its reference walk.** There is just one list of occurrences to
which the reference walk leads from the entry module, and the compiled module is what they say. -/
theorem compile_follows_reference_walk (h : loader.compile path = .ok c) :
    ∃ os, (∀ os', Enters loader (Path.canonical path) .always [] os' ↔ os' = os) ∧
      c.path = Path.canonical path ∧ c.graph.root = Path.canonical path ∧ c.Matches loader os := by
  obtain ⟨os, w, henters, hfinds, hbuild, hpath, hmodules⟩ := finds_of_compile h
  obtain ⟨-, hroot, hslots, hsites, hfingerprint⟩ := Draft.of_build hbuild
  have hnames : c.graph.names = Occurrences.names os := by
    rw [Graph.names, hslots, hfinds.draft.keys]
  have hslot : ∀ n, c.graph.slot? n = slot? os n := fun n => by
    rw [Graph.slot?, hslots, hfinds.draft.slots]
  refine ⟨os, fun os' => ⟨fun h' => h'.unique henters, fun he => he ▸ henters⟩, hpath, hroot, ?_⟩
  refine ⟨hnames, fun n i => ?_, hslot, fun origin gate name expr isDefault => ?_,
    hfinds.draft.nodup, hsites.trans hfinds.draft.sites, hmodules.trans hfinds.modules,
    ⟨w.fetched, hfingerprint, hfinds.order, hfinds.fetched⟩⟩
  · have hnodup : (Occurrences.names os).Nodup := hnames ▸ c.graph.slots.nodup_keys
    rw [← idxOf?_eq_some_iff_getElem? hnodup, ← hnames]
    rfl
  · rw [mem_binding_iff hfinds.draft.nodup]
    simp only [hslot, slot?, slotOf_value]
    cases isDefault <;> rfl

/-- A module `x` that is included twice, under different conditions, and sites in two modules. -/
def diamond : Loader :=
  (Bundle.ofList [
    ("main", "LET A := \"x\"; INCLUDE \"left\"; INCLUDE \"${A}\" WHERE NOT A; INCLUDE \"${U}\";"),
    ("left", "LET B := A DEFAULT; INCLUDE \"x\" WHERE B;"),
    ("x", "INCLUDE \"${B}\";")]).loader

theorem diamond_follows_reference_walk :
    ∃ c os, diamond.compile "main" = .ok c ∧ Enters diamond "main" .always [] os ∧
      c.Matches diamond os ∧ c.modules = ["main", "left", "x"] ∧
      c.graph.names = ["A", "B", "NOT A"] ∧ c.graph.sites.map Site.origin = ["x", "x", "main"] := by
  have heval : (diamond.compile "main").toOption.map (fun c =>
      (c.modules, c.graph.names, c.graph.sites.map Site.origin)) =
        some (["main", "left", "x"], ["A", "B", "NOT A"], ["x", "x", "main"]) := by
    decide +kernel
  have hroot : Path.canonical "main" = "main" := by decide +kernel
  cases hc : diamond.compile "main" with
  | error error =>
    rw [hc] at heval
    cases heval
  | ok c =>
    obtain ⟨os, hwalk, -, -, hmatches⟩ := compile_follows_reference_walk hc
    rw [hc] at heval
    simp only [Except.toOption, Option.map_some, Option.some.injEq, Prod.mk.injEq] at heval
    exact ⟨c, os, rfl, hroot ▸ (hwalk os).2 rfl, hmatches, heval⟩

end GatedRules
