import GatedRules.Proofs.BareModules
import GatedRules.Proofs.Chains
import GatedRules.Proofs.Recognition
import Mathlib.Data.List.Nodup
import Mathlib.Data.List.Perm.Subperm

/-!
# The depth of a walk

A walk over includes is bounded in depth, by more than there are characters to read. This bound is
never met: a walk with a larger one is the same walk (`Walk.run_resolve_of_depth`).

For the modules on a chain of includes are distinct, and all but the first are where an include of
some source leads. An include leads to one module at most: once its target is known, it stays known
and stays the same, since texts that are known for names are never replaced
(`Loader.targets_subset`). And there are more characters than includes, since every statement has
at least two tokens (`Loader.length_includes`). So no chain is as long as the bound
(`Chained.length_lt`).
-/

namespace GatedRules

open Occurrences

/-! ### Statements and characters -/

theorem length_of_scanFrom {position stop : Position} {cs : List Char} {ts : List Token}
    (h : scanFrom position cs = .ok (ts, stop)) : ts.length ≤ cs.length := by
  fun_induction scanFrom position cs generalizing ts stop with
  | case1 =>
    cases h
    exact Nat.le_refl 0
  | case2 _ _ ih => exact Nat.le_succ_of_le (ih h)
  | case3 _ _ _ _ _ ih => exact Nat.le_succ_of_le (ih h)
  | case4 _ cs _ _ ih =>
    have hline : (cs.dropWhile (· ≠ '\n')).length ≤ cs.length :=
      (List.dropWhile_sublist _).length_le
    exact Nat.le_succ_of_le (Nat.le_trans (ih h) hline)
  | case5 => cases h
  | case6 =>
    rename_i hlexeme _ ih
    obtain ⟨⟨tokens, stop'⟩, hs, he⟩ := map_eq_ok.1 h
    cases he
    exact Nat.succ_le_succ (Nat.le_trans (ih hs) (length_of_lexeme hlexeme))

namespace Grammar

theorem StatementTree.two_le_length (tree : StatementTree) : 2 ≤ tree.terminals.length := by
  cases tree <;> simp [terminals]

/-- Every statement has at least two tokens. -/
theorem Derives.length_le {trees : List StatementTree} {ts : List Token} {ss : List Statement}
    (h : Derives trees ts ss) : 2 * ss.length ≤ ts.length := by
  induction h with
  | nil => exact Nat.le_refl 0
  | @cons tree trees t used rest ss htree _ ih =>
    have hfirst : 2 ≤ (t :: used).length := by
      rw [← length_spelled, htree]
      exact tree.two_le_length
    rw [← List.cons_append, List.length_append, List.length_cons]
    omega

end Grammar

/-- There are at least twice as many characters as statements. -/
theorem Statement.length_of_parse {path source : String} {ss : List Statement}
    (h : Statement.parse path source = .ok ss) : 2 * ss.length ≤ source.length := by
  unfold Statement.parse Parser.run Tokens.scan at h
  obtain ⟨scanned, hscan, h⟩ := bind_eq_ok.1 h
  split at hscan
  · rename_i ts stop hs
    cases hscan
    obtain ⟨read, trees, hok, htrees⟩ | ⟨stuck, herror, -⟩ :=
      Parser.statementsWithin_cases ts.length ts
    · rw [Parser.statements, hok] at h
      cases h
      exact Nat.le_trans htrees.length_le (length_of_scanFrom hs)
    · rw [Parser.statements, herror] at h
      cases h
  · cases hscan

/-! ### Includes and where they lead -/

/-- The includes of a source; there are none in one that is not well-formed. -/
def Include.ofSource (source : String) : List Include :=
  match Statement.parse "" source with
  | .ok ss => Statement.includes ss
  | .error _ => []

namespace Loader

variable {loader : Loader} {os os' : List Occurrence}

/-- The includes of all sources. -/
def includes (loader : Loader) : List Include :=
  loader.sources.flatMap Include.ofSource

theorem mem_includes {path source : String} {module : List Statement} {directive : Include}
    (hf : loader.fetch path = .ok source) (hp : Statement.parse path source = .ok module)
    (hd : .inclusion directive ∈ module) : directive ∈ loader.includes := by
  refine List.mem_flatMap.2 ⟨source, loader.mem_sources hf, ?_⟩
  rw [Include.ofSource, Statement.parse_of_parse hp ""]
  exact List.mem_filterMap.2 ⟨_, hd, rfl⟩

/-- There are fewer includes than characters. -/
theorem length_includes (loader : Loader) : 2 * loader.includes.length < loader.depth := by
  have hsource : ∀ source : String, 2 * (Include.ofSource source).length ≤ source.length := by
    intro source
    unfold Include.ofSource
    split
    · rename_i ss hp
      have hincludes : (Statement.includes ss).length ≤ ss.length := List.length_filterMap_le _ _
      have hlength := Statement.length_of_parse hp
      omega
    · exact Nat.zero_le _
  unfold includes depth
  induction loader.sources with
  | nil => exact Nat.one_pos
  | cons source sources ih =>
    have hfirst := hsource source
    rw [List.flatMap_cons, List.length_append, List.map_cons, List.foldr_cons]
    omega

/-- The modules to which the includes lead, after what has occurred. -/
def targets (loader : Loader) (os : List Occurrence) : List String :=
  loader.includes.filterMap fun directive =>
    (directive.target.render (literal? os)).toOption.map Path.canonical

theorem mem_targets {directive : Include} (hd : directive ∈ loader.includes) {target : String}
    (ht : directive.target.render (literal? os) = .ok target) :
    Path.canonical target ∈ loader.targets os := by
  refine List.mem_filterMap.2 ⟨directive, hd, ?_⟩
  rw [ht]
  rfl

end Loader

/-- A text that is known stays known, and stays the same. -/
theorem literal?_of_isPrefix {os os' : List Occurrence} (h : os <+: os') {n text : String}
    (hn : literal? os n = some text) : literal? os' n = some text := by
  obtain ⟨later, rfl⟩ := h
  rw [literal?, List.findSome?_append, ← literal?, hn, Option.some_or]

/-- Where an include leads once, it leads later too. -/
theorem Loader.targets_subset {loader : Loader} {os os' : List Occurrence} (h : os <+: os') :
    loader.targets os ⊆ loader.targets os' := by
  intro path hpath
  obtain ⟨directive, hd, hlead⟩ := List.mem_filterMap.1 hpath
  obtain ⟨target, ht, rfl⟩ := Option.map_eq_some_iff.1 hlead
  exact mem_targets hd (Template.render_of_known
    (fun _ _ _ => literal?_of_isPrefix h) (eq_ok_of_toOption ht))

/-! ### Chains are short -/

/-- A walk comes to a path along a chain of distinct modules, each of which, and the path, is where
an include leads, except for the module with which the walk begins. -/
structure Chained (loader : Loader) (os : List Occurrence) (chain : List String) (path : String) :
    Prop where
  /-- No module is on the chain twice. -/
  nodup : chain.Nodup
  /-- Includes lead to all but the first. -/
  led : (chain ++ [path]).tail ⊆ loader.targets os

namespace Chained

variable {loader : Loader} {os os' : List Occurrence} {chain : List String} {path target : String}

/-- A chain is shorter than the bound for it. -/
theorem length_lt (h : Chained loader os chain path) : chain.length < loader.depth := by
  have hincludes := loader.length_includes
  have htargets : (loader.targets os).length ≤ loader.includes.length :=
    List.length_filterMap_le _ _
  cases chain with
  | nil => exact Nat.lt_of_le_of_lt (Nat.zero_le _) hincludes
  | cons first chain =>
    obtain ⟨hchain, hpath⟩ := List.append_subset.1 h.led
    have hlength : chain.length ≤ (loader.targets os).length :=
      (List.subperm_of_subset (List.nodup_cons.1 h.nodup).2 hchain).length_le
    -- The include that leads to the path is one of those counted.
    have hpos : 0 < (loader.targets os).length :=
      List.length_pos_of_mem (hpath List.mem_cons_self)
    rw [List.length_cons]
    omega

/-- One step further along a chain. -/
theorem enter (h : Chained loader os chain path) (hpath : path ∉ chain) (hos : os <+: os')
    (htarget : target ∈ loader.targets os') : Chained loader os' (chain ++ [path]) target where
  nodup := List.nodup_append.2 ⟨h.nodup, List.nodup_singleton path, by
    rintro a ha b hb rfl
    exact hpath (List.mem_singleton.1 hb ▸ ha)⟩
  led := by
    rw [List.tail_append_of_ne_nil (by simp), List.append_subset]
    exact ⟨List.Subset.trans h.led (Loader.targets_subset hos),
      List.cons_subset.2 ⟨htarget, by simp⟩⟩

end Chained

/-! ### Walks with enough depth -/

namespace Walk

variable {loader : Loader} {w : Walk} {os : List Occurrence} {origin path : String} {gate : Gate}
  {enter enter' : String → Gate → WalkM Unit}

/-- Steps that run alike, one after the other. -/
theorem run_bind_congr {α β : Type} {x y : WalkM α} {f g : α → WalkM β}
    (hfirst : ExceptT.run x w = ExceptT.run y w)
    (hnext : ∀ a w', Yields x w a w' → ExceptT.run (f a) w' = ExceptT.run (g a) w') :
    ExceptT.run (x >>= f) w = ExceptT.run (y >>= g) w := by
  rw [run_bind, run_bind, ← hfirst]
  rcases hx : ExceptT.run x w with ⟨error | a, w'⟩
  · rfl
  · exact hnext a w' hx

/-- Two ways to enter modules make no difference to a statement, if they make none to the module
where it leads. -/
theorem run_take_congr (h : Finds loader w os) {s : Statement}
    (hsame : ∀ {directive target inner w'}, s = .inclusion directive →
      directive.target.render (literal? os) = .ok target →
      Finds loader w' (os ++ ofCondition origin directive.condition) →
      ExceptT.run (enter (Path.canonical target) inner) w' =
        ExceptT.run (enter' (Path.canonical target) inner) w') :
    ExceptT.run (take origin gate enter s) w = ExceptT.run (take origin gate enter' s) w := by
  cases s with
  | binding name expr isDefault line => rfl
  | inclusion directive =>
    have hknown : w.draft.literal? = literal? os := funext h.draft.literals
    simp only [take, run_bind, run_get, hknown, Template.target]
    cases htarget : directive.target.render (literal? os) with
    | error name => rfl
    | ok target =>
      exact run_bind_congr rfl fun inner w' hgate =>
        hsame rfl htarget (finds_conditionGate h hgate).1

/-- Two ways to enter modules make no difference to several statements, if they make none to the
modules where these lead. -/
theorem run_forM_congr (h : Finds loader w os) {ss : List Statement}
    (henter : ∀ {path inner w w' os u}, Finds loader w os → Yields (enter path inner) w u w' →
      ∃ os', Enters loader path inner os os' ∧ Finds loader w' os')
    (hsame : ∀ {directive target inner w' os'}, .inclusion directive ∈ ss → os <+: os' →
      directive.target.render (literal? os') = .ok target → Finds loader w' os' →
      ExceptT.run (enter (Path.canonical target) inner) w' =
        ExceptT.run (enter' (Path.canonical target) inner) w') :
    ExceptT.run (ss.forM (take origin gate enter)) w =
      ExceptT.run (ss.forM (take origin gate enter')) w := by
  induction ss generalizing w os with
  | nil => rfl
  | cons s ss ih =>
    have hfirst : ExceptT.run (take origin gate enter s) w =
        ExceptT.run (take origin gate enter' s) w := by
      refine run_take_congr h fun hs ht hfound => ?_
      exact hsame (hs ▸ List.mem_cons_self) (List.prefix_append _ _)
        (Template.render_of_known
          (fun _ _ _ => literal?_of_isPrefix (List.prefix_append _ _)) ht) hfound
    simp only [List.forM_eq_forM, List.forM_cons] at ih ⊢
    refine run_bind_congr hfirst fun u w' hstep => ?_
    obtain ⟨mid, hmid, hwalk⟩ := finds_take h henter hstep
    have hbegins : os <+: mid := (hwalk .nil).isPrefix
    refine ih hmid fun hd hos ht hfound => ?_
    exact hsame (List.mem_cons_of_mem s hd) (hbegins.trans hos) ht hfound

/-- **The bound on the depth is never met**: with any bound that leaves enough for what is beyond
the chain, the walk is the same. -/
theorem run_resolve_of_depth {n m : Nat} {chain : List String} {includedFrom : Option String}
    (h : Finds loader w os) (hchain : Chained loader os chain path)
    (hn : loader.depth ≤ n + chain.length) (hm : loader.depth ≤ m + chain.length) :
    ExceptT.run (resolve loader n path gate chain includedFrom) w =
      ExceptT.run (resolve loader m path gate chain includedFrom) w := by
  induction n generalizing m path gate chain includedFrom w os with
  | zero => exact absurd hchain.length_lt (by omega)
  | succ n ih =>
    obtain ⟨m, rfl⟩ : ∃ m', m = m' + 1 := by
      have hlt := hchain.length_lt
      exact ⟨m - 1, by omega⟩
    rw [resolve, resolve]
    split
    · rfl
    rename_i hidx
    refine run_bind_congr rfl fun module w' hload => ?_
    obtain ⟨⟨source, hf, hp⟩, hvisited⟩ := finds_load h hload
    refine run_forM_congr hvisited finds_resolve fun hd hos ht hfound => ?_
    -- The module is one further along the chain.
    have hnext := hchain.enter (List.idxOf?_eq_none_iff.1 hidx)
      ((List.prefix_append _ _).trans hos) (Loader.mem_targets (loader.mem_includes hf hp hd) ht)
    exact ih hfound hnext (by simp; omega) (by simp; omega)

end Walk

end GatedRules
