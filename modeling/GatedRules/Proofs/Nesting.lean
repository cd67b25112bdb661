import GatedRules.Proofs.Reached
import Mathlib.Data.Set.Finite.Lattice
import Mathlib.Data.Set.Finite.List

/-!
# Nested modules

What `Setting.Regular` asks of the modules that are reached from an entry module: their paths
contain neither `|` nor `:`, they keep no state, and none of them is reached again from within
itself.

Then the texts of scopes tell them apart (`Regular.told`): a text gives the paths of the modules,
and a module is compiled to one graph only. And only finitely many scopes are reached
(`Regular.finite_reached`): modules nest no deeper than there are modules, and every site leads to
one module at most.
-/

namespace GatedRules

/-! ### Paths and graphs -/

/-- The root of a compiled graph is the canonical path, where the loader has a module. -/
theorem root_of_compile {loader : Loader} {path : String} {c : Compiled}
    (h : loader.compile path = .ok c) :
    c.graph.root = Path.canonical path ∧ Path.canonical c.graph.root ∈ loader.paths := by
  obtain ⟨os, w, ⟨source, module, hfetch, -, -⟩, -, hbuild, -, -⟩ := finds_of_compile h
  obtain ⟨-, hroot, -, -, -⟩ := Draft.of_build hbuild
  rw [hroot]
  exact ⟨rfl, loader.mem_paths hfetch⟩

/-- A path is compiled as its canonical spelling says. -/
theorem Loader.compile_congr (loader : Loader) {path path' : String}
    (h : Path.canonical path = Path.canonical path') :
    loader.compile path = loader.compile path' := by
  rw [Loader.compile, Loader.compile, h]

/-- The root tells graphs apart that a loader gives. -/
theorem Engine.outcome_unique {loader : Loader} {path path' : String} {g g' : Graph}
    (h : outcome loader path = .ok (.resolved g)) (h' : outcome loader path' = .ok (.resolved g'))
    (hroot : g.root = g'.root) : g = g' := by
  obtain ⟨c, hc, rfl⟩ := compile_of_outcome h
  obtain ⟨c', hc', rfl⟩ := compile_of_outcome h'
  rw [(root_of_compile hc).1, (root_of_compile hc').1] at hroot
  have hsame : loader.compile path = loader.compile path' := loader.compile_congr hroot
  rw [hc, hc'] at hsame
  cases hsame
  rfl

/-- Scopes of modules that one loader has are told apart by the paths of the modules. -/
theorem Scope.Nested.eq_of_paths {loader : Loader} {entry : Graph} {s t : Scope}
    (hs : s.Nested (fun _ g => ∃ path, Engine.outcome loader path = .ok (.resolved g)) entry)
    (ht : t.Nested (fun _ g => ∃ path, Engine.outcome loader path = .ok (.resolved g)) entry)
    (h : s.paths = t.paths) : s = t := by
  have hroots : (s.graph :: s.around).map Graph.root = (t.graph :: t.around).map Graph.root :=
    List.reverse_injective h
  clear h
  induction hs generalizing t with
  | entry =>
    cases ht with
    | entry => rfl
    | child ht _ => cases (List.cons.inj hroots).2
  | child hs hg ih =>
    cases ht with
    | entry => cases (List.cons.inj hroots).2
    | child ht hg' =>
      obtain ⟨hroot, hrest⟩ := List.cons.inj hroots
      obtain ⟨_, ho⟩ := hg
      obtain ⟨_, ho'⟩ := hg'
      rw [ih ht hrest, Engine.outcome_unique ho ho' hroot]

namespace Setting

variable {σ : Setting} {entry : Graph}

/-- What is reached are the entry module and modules that the loader has, at sites. -/
theorem Reached.nested {s : Scope} (hs : σ.Reached entry s) :
    s.Nested (fun _ g => ∃ path, Engine.outcome σ.loader path = .ok (.resolved g)) entry := by
  induction hs with
  | entry => exact .entry
  | child _ _ hl ih =>
    obtain ⟨_, path, -, -, ho⟩ := hl.module
    exact .child ih ⟨_, ho⟩

/-- Reached scopes are told apart by the paths of their modules. -/
theorem Reached.eq_of_paths {s t : Scope} (hs : σ.Reached entry s) (ht : σ.Reached entry t)
    (h : s.paths = t.paths) : s = t :=
  hs.nested.eq_of_paths ht.nested h

/-! ### Regular programs -/

/-- What is asked of the modules that are reached. Loaders read paths in their canonical spelling,
so this is how paths are compared. -/
structure Regular (σ : Setting) (entry : Graph) : Prop where
  /-- The paths of modules contain no marks of texts. -/
  unmarked : ∀ {s}, σ.Reached entry s → ∀ path ∈ s.paths, '|' ∉ path.toList ∧ ':' ∉ path.toList
  /-- No module keeps state. -/
  stateless : ∀ {s}, σ.Reached entry s → s.graph.Stateless
  /-- No module is reached from within itself. -/
  nested : ∀ {s}, σ.Reached entry s → (s.paths.map Path.canonical).Nodup

end Setting

/-! ### Texts of scopes -/

theorem Scope.paths_ne_nil (s : Scope) : s.paths ≠ [] := by
  simp [Scope.paths]

/-- The text of a scope gives its paths, if none of them contains `|`. -/
theorem Scope.split_text {s : Scope} (h : ∀ path ∈ s.paths, '|' ∉ path.toList) :
    Text.split (· = '|') s.text.toList = s.paths.map String.toList := by
  rw [Scope.text, Text.joinedText, String.toList_ofList]
  have hbar : decide ('|' = '|') = true := rfl
  refine Text.split_joined hbar (by simp [s.paths_ne_nil]) fun cs hcs c hc => ?_
  obtain ⟨path, hpath, rfl⟩ := List.mem_map.1 hcs
  rw [decide_eq_false_iff_not]
  rintro rfl
  exact h path hpath hc

theorem Scope.colon_not_mem_text {s : Scope} (h : ∀ path ∈ s.paths, ':' ∉ path.toList) :
    ':' ∉ s.text.toList := by
  rw [Scope.text, Text.joinedText, String.toList_ofList]
  intro hm
  rcases Text.mem_joined hm with hc | ⟨cs, hcs, hc⟩
  · cases hc
  · obtain ⟨path, hpath, rfl⟩ := List.mem_map.1 hcs
    exact h path hpath hc

/-- A text without `:` is what stands before the first `::`. -/
theorem text_eq_of_append {s t m n : String} (hs : ':' ∉ s.toList) (ht : ':' ∉ t.toList)
    (h : s ++ "::" ++ m = t ++ "::" ++ n) : s = t := by
  have hcut : ∀ {s : String} (m : String), ':' ∉ s.toList →
      (Text.split (· = ':') (s ++ "::" ++ m).toList).head? = some s.toList := by
    intro s m hs
    have hchars : (s ++ "::" ++ m).toList = s.toList ++ ':' :: (':' :: m.toList) := by
      simp only [String.toList_append, List.append_assoc]
      rfl
    have hcolon : decide (':' = ':') = true := rfl
    rw [hchars, Text.split_append (fun c hc => ?_) hcolon, List.head?_cons]
    rw [decide_eq_false_iff_not]
    rintro rfl
    exact hs hc
  have heads := hcut n ht
  rw [← h, hcut m hs] at heads
  exact String.toList_inj.1 (Option.some.inj heads)

namespace Setting

variable {σ : Setting} {entry : Graph}

/-- The texts of regular scopes tell them apart, whatever follows. -/
theorem Regular.told (hr : σ.Regular entry) : σ.Told entry := by
  intro s t hs ht m n h
  have htext : s.text = t.text := by
    refine text_eq_of_append ?_ ?_ h
    · exact Scope.colon_not_mem_text fun path hp => (hr.unmarked hs path hp).2
    · exact Scope.colon_not_mem_text fun path hp => (hr.unmarked ht path hp).2
  have hpaths : s.paths.map String.toList = t.paths.map String.toList := by
    rw [← Scope.split_text fun path hp => (hr.unmarked hs path hp).1, htext,
      Scope.split_text fun path hp => (hr.unmarked ht path hp).1]
  exact hs.eq_of_paths ht (List.map_injective_iff.2 (fun _ _ => String.toList_inj.1) hpaths)

/-- In a regular program, goals about sheltered names ask for no others. -/
theorem Regular.closed {source : Loader} {path : String} {c : Compiled}
    (h : source.compile path = .ok c) (hr : σ.Regular c.graph) : σ.Closed (σ.Queries c.graph) :=
  closed_of_compile h hr.told fun _ hs => hr.stateless hs

/-! ### Depths of scopes -/

/-- All modules but the entry module come from the loader. -/
theorem Reached.mem_paths {s : Scope} (hs : σ.Reached entry s) :
    s.paths.map Path.canonical ⊆ Path.canonical entry.root :: σ.loader.paths := by
  induction hs with
  | entry => simp [Scope.paths, Scope.entry]
  | @child scope site graph _ _ hl ih =>
    obtain ⟨_, path, -, -, ho⟩ := hl.module
    obtain ⟨c, hc, rfl⟩ := Engine.compile_of_outcome ho
    rw [Scope.paths_child, List.map_append, List.append_subset]
    refine ⟨ih, ?_⟩
    have hmem := (root_of_compile hc).2
    simpa using .inr hmem

/-- Modules nest no deeper than there are modules. -/
theorem Regular.around_le (hr : σ.Regular entry) {s : Scope} (hs : σ.Reached entry s) :
    s.around.length ≤ σ.loader.paths.length := by
  have hlen := (List.subperm_of_subset (hr.nested hs) hs.mem_paths).length_le
  rw [List.length_map, Scope.paths, List.length_reverse, List.length_map, List.length_cons,
    List.length_cons] at hlen
  exact Nat.le_of_succ_le_succ hlen

/-- A name has at most one value in a scope. -/
theorem HasValue.unique {s : Scope} {n : String} {u v : Value} (hu : σ.HasValue s n u)
    (hv : σ.HasValue s n v) : u = v := by
  obtain ⟨i, hi⟩ := hu
  obtain ⟨j, hj⟩ := hv
  have h := plain_unique (hi ▸ finished_ok u) (hj ▸ finished_ok v)
  rw [hi, hj] at h
  cases h
  rfl

/-- A site leads to one module at most. -/
theorem LeadsTo.unique {s : Scope} {site : Site} {g g' : Graph} (h : σ.LeadsTo s site g)
    (h' : σ.LeadsTo s site g') : g = g' := by
  obtain ⟨values, path, hv, hp, ho⟩ := h.module
  obtain ⟨values', path', hv', hp', ho'⟩ := h'.module
  have hunique : Relator.RightUnique (σ.HasValue s) := fun _ _ _ hu hw => hu.unique hw
  obtain rfl : values = values' := hunique.forall₂ hv hv'
  rw [hp] at hp'
  cases hp'
  rw [ho] at ho'
  cases ho'
  rfl

/-- A site that takes its target from one name leads to the module for the value of this name. -/
theorem LeadsTo.outcome {s : Scope} {site : Site} {g : Graph} {n path : String} {v : Value}
    (h : σ.LeadsTo s site g) (hinputs : site.template.inputs = [n]) (hv : σ.HasValue s n v)
    (hp : Engine.render site (Table.ofList ([n].zip [v])).get? = .ok path) :
    Engine.outcome σ.loader (Path.canonical path) = .ok (.resolved g) := by
  obtain ⟨values, path', hvalues, hp', ho⟩ := h.module
  rw [hinputs] at hvalues hp'
  cases hvalues with
  | cons hu hnil =>
    cases hnil
    rw [hu.unique hv, hp] at hp'
    cases hp'
    exact ho

/-- Finitely many scopes are reached at every depth. -/
theorem finite_reached_at (σ : Setting) (entry : Graph) (depth : Nat) :
    {s | σ.Reached entry s ∧ s.around.length = depth}.Finite := by
  induction depth with
  | zero =>
    refine (Set.finite_singleton (Scope.entry entry)).subset ?_
    rintro s ⟨hs, hdepth⟩
    cases hs with
    | entry => rfl
    | child => cases hdepth
  | succ depth ih =>
    -- Every scope one step further in is that of a module at a site.
    have hchildren : ∀ s : Scope,
        (⋃ site ∈ {site | site ∈ s.graph.sites}, s.child '' {g | σ.LeadsTo s site g}).Finite := by
      intro s
      refine (List.finite_toSet s.graph.sites).biUnion fun site _ => Set.Finite.image _ ?_
      exact Set.Subsingleton.finite fun g hg g' hg' => hg.unique hg'
    refine (ih.biUnion fun s _ => hchildren s).subset ?_
    rintro s ⟨hs, hdepth⟩
    cases hs with
    | entry => cases hdepth
    | @child scope site g hs hsite hl =>
      have hscope : scope.around.length = depth := Nat.succ.inj hdepth
      exact Set.mem_biUnion (⟨hs, hscope⟩ : _ ∧ _)
        (Set.mem_biUnion (show site ∈ {site | site ∈ scope.graph.sites} from hsite) ⟨g, hl, rfl⟩)

/-- Only finitely many scopes are reached. -/
theorem Regular.finite_reached (hr : σ.Regular entry) : {s | σ.Reached entry s}.Finite := by
  have hdepths : (⋃ depth ∈ {depth | depth < σ.loader.paths.length + 1},
      {s | σ.Reached entry s ∧ s.around.length = depth}).Finite :=
    (Set.finite_lt_nat _).biUnion fun depth _ => finite_reached_at σ entry depth
  refine hdepths.subset fun s hs => ?_
  have hdepth := Nat.lt_succ_of_le (hr.around_le hs)
  exact Set.mem_biUnion hdepth (⟨hs, rfl⟩ : _ ∧ _)

/-- The number of an execution does not matter to what is reached. -/
theorem Reached.renumber {loader : Loader} {inputs : Table String Value} {i : ExecutionId}
    {s : Scope} (h : (⟨loader, i, inputs⟩ : Setting).Reached entry s) (j : ExecutionId) :
    (⟨loader, j, inputs⟩ : Setting).Reached entry s := by
  induction h with
  | entry => exact .entry
  | child _ hsite hl ih => exact .child ih hsite ⟨hl.gate, hl.module⟩

theorem Regular.renumber {loader : Loader} {inputs : Table String Value} {i : ExecutionId}
    (h : (⟨loader, i, inputs⟩ : Setting).Regular entry) (j : ExecutionId) :
    (⟨loader, j, inputs⟩ : Setting).Regular entry where
  unmarked hs := h.unmarked (hs.renumber i)
  stateless hs := h.stateless (hs.renumber i)
  nested hs := h.nested (hs.renumber i)

end Setting

end GatedRules
