import GatedRules.Proofs.Circles
import GatedRules.Proofs.Unbound

/-!
# Raw inputs

A template may name an input that no module binds, and an execution should be able to read such an
input by its name. In a regular program of bare modules that compile, this can go wrong in two ways
(`Setting.Mishap`). Modules at different sites may ask each other about the names in their
templates, so that a lookup comes back to itself; and a target such as `/ / a`, whose canonical
spelling is not canonical in turn, fails to compile where there is no module. Otherwise the answer
is the input (`raw_inputs_but_for_mishaps`).

Nothing else goes wrong because nothing in such a program fails by itself (`Plan.Unfailing`). It is
left to see where an evaluation says that it needs itself: where a frame is on the stack already.
All lookups on the stack are for the sake of the one at hand, each of them needs the next one, so
there is a circle then (`EvalM.fair_answer`). Conversely there is no circle where there is an answer
(`Setting.not_circular_of_hasValue`).
-/

namespace GatedRules

/-! ### Errors -/

namespace Plan

variable {α β : Type}

/-- A plan does not fail by itself. -/
def Unfailing : Plan α → Prop
  | done _ => True
  | fail _ => False
  | perform _ next => ∀ r, (next r).Unfailing
  | ask _ next => ∀ r, (next r).Unfailing

theorem unfailing_pure (a : α) : (pure a : Plan α).Unfailing :=
  trivial

theorem Unfailing.bind {x : Plan α} {f : α → Plan β} (hx : x.Unfailing)
    (hf : ∀ a, (f a).Unfailing) : (x >>= f).Unfailing := by
  induction x with
  | done a => exact hf a
  | fail error => exact absurd hx id
  | perform action next ih => exact fun r => ih r (hx r)
  | ask goal next ih => exact fun r => ih r (hx r)

theorem unfailing_perform (action : Action) : (perform action done).Unfailing :=
  fun _ => trivial

theorem unfailing_ask (goal : Goal) : (ask goal done).Unfailing :=
  fun _ => trivial

theorem unfailing_all {xs : List (Plan α)} (h : ∀ x ∈ xs, x.Unfailing) : (all xs).Unfailing := by
  induction xs with
  | nil => exact unfailing_pure []
  | cons x xs ih =>
    obtain ⟨hx, hxs⟩ := List.forall_mem_cons.1 h
    exact hx.bind fun a => (ih hxs).bind fun as => unfailing_pure _

end Plan

namespace Scope

open Plan

variable (s : Scope) (n : String)

theorem unfailing_gateHolds (gate : Gate) : (s.gateHolds gate).Unfailing := by
  unfold gateHolds
  induction gate.conditions with
  | nil => exact unfailing_pure true
  | cons c cs ih =>
    rw [conditionsHold]
    refine (unfailing_ask _).bind fun v => ?_
    split
    · exact ih
    · exact unfailing_pure false

theorem unfailing_fromRank (rank : Rank) : (s.fromRank n rank).Unfailing := by
  unfold fromRank
  split
  · exact unfailing_pure none
  · refine (s.unfailing_gateHolds _).bind fun isOpen => ?_
    split
    · exact (unfailing_ask _).bind fun v => unfailing_pure _
    · dsimp only
      split
      · exact (unfailing_perform _).bind fun _ => unfailing_pure _
      · exact unfailing_pure none

theorem unfailing_enterSite (site : Site) : (s.enterSite site).Unfailing := by
  unfold enterSite
  refine (s.unfailing_gateHolds _).bind fun isOpen => ?_
  split
  · refine (unfailing_all fun x hx => ?_).bind fun values => ?_
    · obtain ⟨m, -, rfl⟩ := List.mem_map.1 hx
      exact unfailing_ask _
    · split
      · exact unfailing_pure none
      · refine (unfailing_perform _).bind fun outcome => ?_
        split <;> exact unfailing_pure _
  · exact unfailing_pure none

theorem unfailing_fromSites (sites : List Site) : (s.fromSites n sites).Unfailing := by
  induction sites with
  | nil => exact unfailing_pure none
  | cons site sites ih =>
    rw [fromSites]
    refine (s.unfailing_enterSite site).bind fun entered => ?_
    split
    · exact ih
    · refine (unfailing_ask _).bind fun r => ?_
      split
      · exact unfailing_pure _
      · exact ih

theorem unfailing_fromPrimary : (s.fromPrimary n).Unfailing := by
  unfold fromPrimary
  refine (s.unfailing_fromRank n _).bind fun r => ?_
  split
  · exact unfailing_pure _
  · split
    · exact s.unfailing_fromSites n _
    · exact unfailing_pure none

theorem unfailing_settle : (s.settle n).Unfailing := by
  unfold settle
  refine (unfailing_ask _).bind fun r => ?_
  split
  · exact unfailing_pure _
  · refine (s.unfailing_fromRank n _).bind fun r => ?_
    split
    · exact unfailing_pure _
    · split
      · exact unfailing_perform _
      · exact unfailing_ask _

end Scope

theorem Expr.IsBare.unfailing {e : Expr} (h : e.IsBare) (s : Scope) (n : String) :
    (e.eval s n).Unfailing := by
  rcases h with ⟨l, rfl⟩ | rfl
  · rw [eval]
    exact Plan.unfailing_pure _
  · rw [eval, evalEach]
    exact Plan.unfailing_perform _

/-- Looking up names in a program of bare modules does not fail by itself. -/
theorem Setting.Bare.unfailing {σ : Setting} {entry : Graph} {p q : String → Prop}
    (hp : σ.Bare entry q) {goal : Goal} (hgoal : σ.Asks entry p goal) :
    goal.plan.Unfailing := by
  cases goal with
  | primary s n => exact s.unfailing_fromPrimary n
  | frame f =>
    cases f with
    | name s n => exact s.unfailing_settle n
    | definition s n rank d =>
      have hdefines := Scope.defines_of_definition? hgoal.2.2
      exact ((hp _ hgoal.1).definition hdefines).expr.unfailing s n

/-! ### Mishaps -/

/-- What can go wrong in a program of bare modules: a lookup is circular, or a module is asked for
at a path that is not canonical, and does not compile there. -/
def Setting.Mishap (σ : Setting) (start : Scope × String) : EvalError → Prop
  | .recursion _ => σ.Circular start
  | .compile path error => Path.canonical path ≠ path ∧ σ.loader.compile path = .error error
  | _ => False

/-- An evaluation fails, if it does, by a mishap. -/
def Setting.Fair {α : Type} (σ : Setting) (start : Scope × String) (r : Except Halt α) : Prop :=
  ∀ error, r = .error (.failed error) → σ.Mishap start error

namespace EvalM

open Setting

variable {σ : Setting} {may : Goal → Prop} {α : Type} {w : World} {stack : List String} {k : Nat}
  {start : Scope × String}

theorem fair_ok (a : α) : σ.Fair start (.ok a) :=
  nofun

theorem fair_error {β : Type} {halt : Halt} (h : σ.Fair start (.error halt : Except Halt α)) :
    σ.Fair start (.error halt : Except Halt β) := by
  rintro error ⟨rfl⟩
  exact h error rfl

theorem fair_outcome (hloader : σ.loader.Compiles) (path : String) :
    σ.Fair start ((Engine.outcome σ.loader path).mapError Halt.failed) := by
  rintro error herror
  cases houtcome : Engine.outcome σ.loader path with
  | ok o =>
    rw [houtcome] at herror
    cases herror
  | error error' =>
    have hcanonical : Path.canonical path ≠ path := fun hpath => by
      obtain ⟨o, ho⟩ := hloader path hpath
      cases houtcome.symm.trans ho
    rw [houtcome] at herror
    cases herror
    unfold Engine.outcome at houtcome
    split at houtcome
    · cases houtcome
    · rename_i compileError hcompile
      split at houtcome
      · cases houtcome
      · cases houtcome
        exact ⟨hcanonical, hcompile⟩

theorem fair_act (hw : w.Sound σ may) (hloader : σ.loader.Compiles) {action : Action}
    (ha : ∀ slot c, action ≠ .call slot c) : σ.Fair start ((act σ action).exec stack w).1 := by
  rw [exec_act hw ha stack]
  cases action with
  | input name => exact fair_ok _
  | call slot c => exact absurd rfl (ha slot c)
  | skip => exact fair_ok _
  | resolve path => exact fair_outcome hloader _

/-- A run of a plan that does not fail by itself is fair if the answers are that it asks for. -/
theorem fair_run (hc : σ.Closed may) (hloader : σ.loader.Compiles) {may' : Goal → Prop}
    {Q Q' : Unit → α → Prop} {x : Plan α} (hx : x.Follows (σ.protocol may) Q ())
    (hx' : x.Follows (σ.protocol may') Q' ()) (hu : x.Unfailing)
    (hanswer : ∀ goal w, may goal → may' goal → w.Sound σ may →
      σ.Fair start (((handler σ).answer k goal).exec stack w).1)
    (hw : w.Sound σ may) :
    σ.Fair start ((x.run (handler σ) ((handler σ).answer k)).exec stack w).1 := by
  induction x generalizing w with
  | done a => exact fair_ok a
  | fail error => exact absurd hu id
  | perform action next ih =>
    have hact : (handler σ).perform action = act σ action := rfl
    rw [Plan.run, exec_bind, hact]
    have hresult := exec_act hw hx.1 stack
    have hsound := sound_act hw hx.1 stack
    have hfair : σ.Fair start ((act σ action).exec stack w).1 := fair_act hw hloader hx.1
    rcases hr : (act σ action).exec stack w with ⟨halt | r, w'⟩
    · rw [hr] at hfair
      exact fair_error hfair
    · rw [hr] at hresult hsound
      exact ih r (hx.2 () r trivial hresult.symm) (hx'.2 () r trivial hresult.symm) (hu r) hsound
  | ask goal next ih =>
    rw [Plan.run, exec_bind]
    have hfair := hanswer goal w hx.1 hx'.1 hw
    have hfinds := finds_answer hc k hx.1 hw stack
    rcases hr : ((handler σ).answer k goal).exec stack w with ⟨halt | r, w'⟩
    · rw [hr] at hfair
      exact fair_error hfair
    · rw [hr] at hfinds
      have hvalue := hfinds.value rfl
      exact ih r (hx.2 () r trivial hvalue) (hx'.2 () r trivial hvalue) (hu r) hfinds.sound

theorem fair_visit {f : Frame} {x : EvalM Value}
    (hcircular : stack.contains f.text = true → σ.Circular start)
    (hx : ¬ stack.contains f.text = true → σ.Fair start (x.exec (stack ++ [f.text]) w).1) :
    σ.Fair start (((handler σ).visit f x).exec stack w).1 := by
  rw [exec_visit]
  split
  · rintro error ⟨rfl⟩
    exact hcircular ‹_›
  split
  · exact fair_ok _
  · have hx := hx ‹_›
    rcases hr : x.exec (stack ++ [f.text]) w with ⟨halt | v, w'⟩
    · rw [hr] at hx
      exact fair_error hx
    · exact fair_ok v

/-- The text of a lookup on the stack. -/
def lookupText (a : Scope × String) : String :=
  (Frame.name a.1 a.2).text

/-- The lookups on a stack are for the sake of one lookup, and have all come from another one. -/
structure Stacked (σ : Setting) (may : Goal → Prop) (start top : Scope × String)
    (stack : List (Scope × String)) : Prop where
  /-- They may be asked for. -/
  may : ∀ a ∈ stack, may (.frame (.name a.1 a.2))
  /-- They follow from the first one. -/
  after : ∀ a ∈ stack, Relation.ReflTransGen σ.Needs start a
  /-- The lookup at hand follows from them. -/
  before : ∀ a ∈ stack, Relation.ReflTransGen σ.Needs a top

theorem stacked_singleton {a : Scope × String} (ha : may (.frame (.name a.1 a.2))) :
    Stacked σ may a a [a] where
  may := List.forall_mem_singleton.2 ha
  after := List.forall_mem_singleton.2 .refl
  before := List.forall_mem_singleton.2 .refl

/-- Another lookup is put on the stack if the one at hand needs it. -/
theorem Stacked.push {top b : Scope × String} {stack : List (Scope × String)}
    (h : Stacked σ may start top stack) (hneeds : σ.Needs top b)
    (hstart : Relation.ReflTransGen σ.Needs start top) (hb : may (.frame (.name b.1 b.2))) :
    Stacked σ may start b (stack ++ [b]) where
  may := List.forall_mem_append.2 ⟨h.may, List.forall_mem_singleton.2 hb⟩
  after := List.forall_mem_append.2
    ⟨h.after, List.forall_mem_singleton.2 (hstart.tail hneeds)⟩
  before := List.forall_mem_append.2
    ⟨fun a ha => (h.before a ha).tail hneeds, List.forall_mem_singleton.2 .refl⟩

/-- A frame whose text is on the stack is that of a lookup on the stack. -/
theorem Stacked.exists_of_contains (hc : σ.Closed may) {top : Scope × String}
    {stack : List (Scope × String)} (h : Stacked σ may start top stack) {f : Frame}
    (hf : may (.frame f)) (hcontains : (stack.map lookupText).contains f.text = true) :
    ∃ a ∈ stack, f = .name a.1 a.2 := by
  obtain ⟨a, ha, htext⟩ := List.mem_map.1 (List.contains_iff_mem.1 hcontains)
  exact ⟨a, ha, hc.injective hf (h.may a ha) htext.symm⟩

/-- An answer on the way to the value of a lookup is fair. All lookups on the stack are for the sake
of that one, so coming back to one of them closes a circle. -/
theorem fair_answer {entry : Graph} {p q : String → Prop} (hp : σ.Bare entry q)
    (hc : σ.Closed (σ.Asks entry p)) (hloader : σ.loader.Compiles) {goal : Goal}
    {top : Scope × String} {stack : List (Scope × String)} (hgoal : σ.Asks entry p goal)
    (htowards : σ.Towards top goal) (hstart : Relation.ReflTransGen σ.Needs start top)
    (hstack : Stacked σ (σ.Asks entry p) start top stack) (hw : w.Sound σ (σ.Asks entry p)) :
    σ.Fair start (((handler σ).answer k goal).exec (stack.map lookupText) w).1 := by
  induction k generalizing goal top stack w with
  | zero => exact fun error h => by cases h
  | succ k ih =>
    have hunfailing := hp.unfailing hgoal
    have hfollows := hc.follows hgoal
    cases goal with
    | primary t m =>
      obtain ⟨rfl, hasked⟩ := htowards
      have htowards := fromPrimary_follows_towards (hp _ hgoal.1) hasked
      exact fair_run hc hloader hfollows htowards hunfailing
        (fun goal w hg ht hw => ih hg ht hstart hstack hw) hw
    | frame f =>
      cases f with
      | definition t m rank d =>
        refine fair_visit (fun hcontains => ?_) fun _ => ?_
        · obtain ⟨a, -, ha⟩ := hstack.exists_of_contains hc hgoal hcontains
          cases ha
        · have hbare := (hp _ hgoal.1).definition (Scope.defines_of_definition? hgoal.2.2)
          have hnone : (d.expr.eval t m).Follows (σ.protocol fun _ => False) (fun _ _ => True) () :=
            eval_follows_of_isBare hbare.expr _
          exact fair_run hc hloader hfollows hnone hunfailing (fun _ _ _ h _ => h.elim) hw
      | name t m =>
        have hneeds : σ.Needs top (t, m) := htowards
        refine fair_visit (fun hcontains => ?_) fun _ => ?_
        · obtain ⟨a, ha, heq⟩ := hstack.exists_of_contains hc hgoal hcontains
          cases heq
          exact ⟨_, hstack.after _ ha, .tail' (hstack.before _ ha) hneeds⟩
        · have htowards := settle_follows_towards (σ := σ) (n := m) (hp _ hgoal.1)
          have htexts : stack.map lookupText ++ [(Frame.name t m).text] =
              (stack ++ [(t, m)]).map lookupText := by
            rw [List.map_append]
            rfl
          rw [htexts]
          exact fair_run hc hloader hfollows htowards hunfailing (fun goal w hg ht hw =>
            ih hg ht (hstart.tail hneeds) (hstack.push hneeds hstart hgoal) hw) hw

/-- The answer to a lookup is fair. -/
theorem fair_lookup {entry : Graph} {p q : String → Prop} (hp : σ.Bare entry q)
    (hc : σ.Closed (σ.Asks entry p)) (hloader : σ.loader.Compiles) {a : Scope × String}
    (hgoal : σ.Asks entry p (.frame (.name a.1 a.2))) (hw : w.Sound σ (σ.Asks entry p)) :
    σ.Fair a (((handler σ).answer k (.frame (.name a.1 a.2))).exec [] w).1 := by
  cases k with
  | zero => exact fun error h => by cases h
  | succ k =>
    refine fair_visit (fun hcontains => by cases hcontains) fun _ => ?_
    have htowards := settle_follows_towards (σ := σ) (n := a.2) (hp _ hgoal.1)
    exact fair_run hc hloader (hc.follows hgoal) htowards (hp.unfailing hgoal)
      (fun goal w hg ht hw => fair_answer hp hc hloader hg ht .refl (stacked_singleton hgoal) hw) hw

end EvalM

/-! ### Sessions -/

/-- **Raw inputs stay readable, but for mishaps.** Let the modules of a loader hold nothing but
includes without conditions, and bindings to literals and inputs, none of which is for a certain
name; and let every module compile. If the program is regular that inputs make of one of the
modules, then with enough budget the name is answered with its input or with null, after any session
of requests for names without `#`. Only mishaps keep it from that; and where its lookup is circular,
they do. -/
theorem raw_inputs_but_for_mishaps {loader : Loader} {path : String} {c : Compiled}
    (h : loader.compile path = .ok c) (hcompiles : loader.Compiles) {name : String}
    (hname : '#' ∉ name.toList) (hbare : loader.Bare (· ≠ name)) {e : Engine} (he : e.Numbered)
    (inputs : Table String Value)
    (hregular : ((Execution.start e c.graph inputs).1.setting loader).Regular c.graph) :
    let x := (Execution.start e c.graph inputs).1
    let e := (Execution.start e c.graph inputs).2
    let σ := x.setting loader
    ∃ enough, ∀ requests : List Request,
      (∀ r ∈ requests, r.loader = loader ∧ '#' ∉ r.name.toList) → ∀ budget, enough ≤ budget →
        let after := x.serve e requests
        let answer := (after.2.1.fetchWithin budget after.2.2 loader name).1
        answer = .ok (σ.input name) ∧ ¬ σ.Circular (.entry c.graph, name) ∨
          ∃ error, answer = .error (.failed error) ∧ σ.Mishap (.entry c.graph, name) error := by
  intro x e' σ
  have hclosed := hregular.closed h
  have hp : σ.Bare c.graph (· ≠ name) := Loader.Bare.setting (σ := σ) hbare h
  obtain ⟨enough, hfinished⟩ := hregular.exists_enough h
  refine ⟨enough, fun requests hrequests budget hbudget => ?_⟩
  intro after answer
  have hgoal := σ.queries_of_not_mem c.graph hname
  have hsound := hregular.sound_after h he hrequests
  have hafter : answer = (x.step EvalM.handler (x.worldAfter e' requests)
      ⟨loader, budget, name⟩).1 := x.fetchWithin_after e' requests ⟨loader, budget, name⟩
  have hfinished := hfinished budget hbudget name (Text.sheltered_of_not_mem hname) _ hsound
  have hfair := EvalM.fair_lookup (k := budget) hp hclosed hcompiles (a := (.entry c.graph, name))
    hgoal hsound
  rw [hafter]
  cases hanswer : (x.step EvalM.handler (x.worldAfter e' requests) ⟨loader, budget, name⟩).1 with
  | ok v =>
    obtain ⟨k, hk⟩ := (EvalM.finds_answer hclosed budget hgoal hsound []).value hanswer
    have hcircular :=
      Setting.not_circular_of_hasValue hp (a := (.entry c.graph, name)) .entry ⟨k, hk⟩
    rw [hp.eq_input (fun hne => hne rfl) .entry hk]
    exact .inl ⟨rfl, hcircular⟩
  | error halt =>
    cases halt with
    | exhausted => exact absurd hanswer hfinished
    | failed error => exact .inr ⟨error, rfl, hfair error hanswer⟩

/-! ### Modules that ask each other -/

/-- Two modules whose sites are asked about the names in each other's templates. -/
def crossing : Bundle :=
  .ofList [
    ("main", "INCLUDE \"${A}\"; INCLUDE \"${B}\";"),
    ("m1", "INCLUDE \"${C}\";"),
    ("m2", "INCLUDE \"${D}\";")]

/-- Both modules are included. -/
def crossed : Table String Value :=
  .ofList [("A", .string "m1"), ("B", .string "m2"), ("C", .string "x"), ("D", .string "y"),
    ("N", .string "ok")]

/-- Only one of the modules is included. -/
def uncrossed : Table String Value :=
  .ofList [("A", .string "m1"), ("B", .string "m3"), ("C", .string "x"), ("N", .string "ok")]

theorem crossing_compiles : crossing.loader.Compiles := by
  refine Bundle.compiles fun path hpath => ?_
  have hkeys : crossing.modules.keys = ["main", "m1", "m2"] := by decide +kernel
  have heval : ∀ path ∈ ["main", "m1", "m2"],
      (crossing.loader.compile path).toOption.isSome := by
    decide +kernel
  obtain ⟨c, hc⟩ := Option.isSome_iff_exists.1 (heval path (hkeys ▸ hpath))
  exact ⟨c, eq_ok_of_toOption hc⟩

/-- A statement is an include without a condition. -/
def Statement.isPlainInclude : Statement → Bool
  | .binding .. => false
  | .inclusion directive => directive.condition.isNone

theorem crossing_bare (q : String → Prop) : crossing.loader.Bare q := by
  have hplain : ∀ source ∈ crossing.loader.sources,
      ∀ ss ∈ (Statement.parse "main" source).toOption, ∀ s ∈ ss, s.isPlainInclude = true := by
    decide +kernel
  intro path source ss hfetch hparse s hs
  have hmain := Statement.parse_of_parse hparse "main"
  have hs := hplain source (crossing.loader.mem_sources hfetch) ss (by rw [hmain]; rfl) s hs
  cases s with
  | binding => cases hs
  | inclusion directive => exact Option.isNone_iff_eq_none.1 hs

theorem compile_crossing : ∃ c, crossing.loader.compile "main" = .ok c := by
  have heval : (crossing.loader.compile "main").toOption.isSome := by decide +kernel
  obtain ⟨c, hc⟩ := Option.isSome_iff_exists.1 heval
  exact ⟨c, eq_ok_of_toOption hc⟩

theorem crossing_regular {c : Compiled} (h : crossing.loader.compile "main" = .ok c)
    {inputs : Table String Value} {chains : List (List String)}
    (hcovers : (Setting.mk crossing.loader 0 inputs).Covers "main" chains)
    (hchains : ∀ chain ∈ chains,
      chain.Nodup ∧ ∀ path ∈ chain, '|' ∉ path.toList ∧ ':' ∉ path.toList) :
    (Setting.mk crossing.loader 0 inputs).Regular c.graph := by
  have hmain : Path.canonical "main" = "main" := by decide
  have hroot : c.graph.root = "main" := (root_of_compile h).1.trans hmain
  exact Setting.regular_of_covers h (crossing_bare _) (hroot ▸ hcovers) hchains

/-- Inputs can be read where only one of the modules is included. -/
theorem uncrossed_input : ∃ c, crossing.loader.compile "main" = .ok c ∧
    let x := (Execution.start .start c.graph uncrossed).1
    let e := (Execution.start .start c.graph uncrossed).2
    ∃ enough, ∀ budget, enough ≤ budget →
      let after := x.serve e [⟨crossing.loader, 3, "C"⟩, ⟨crossing.loader, budget, "A"⟩]
      let answer := (after.2.1.fetchWithin budget after.2.2 crossing.loader "N").1
      let σ := x.setting crossing.loader
      answer = .ok (.string "ok") ∧ ¬ σ.Circular (.entry c.graph, "N") ∨
        ∃ error, answer = .error (.failed error) ∧ σ.Mishap (.entry c.graph, "N") error := by
  obtain ⟨c, hc⟩ := compile_crossing
  have hcovers : (Setting.mk crossing.loader 0 uncrossed).Covers "main"
      [["main"], ["main", "m1"]] :=
    ⟨by decide, by decide +kernel, by decide +kernel⟩
  have hregular := crossing_regular hc hcovers (by decide)
  have hname : '#' ∉ "N".toList := by decide
  obtain ⟨enough, h⟩ := raw_inputs_but_for_mishaps hc crossing_compiles hname (crossing_bare _)
    Engine.numbered_start uncrossed hregular
  have hinput : ((Execution.start .start c.graph uncrossed).1.setting crossing.loader).input "N" =
      .string "ok" := by
    have hget : (uncrossed.get? "N").getD .null = .string "ok" := by decide +kernel
    exact hget
  refine ⟨c, hc, enough, fun budget hbudget => ?_⟩
  have hnames : '#' ∉ "C".toList ∧ '#' ∉ "A".toList := by decide
  have hrequests : ∀ r ∈ ([⟨crossing.loader, 3, "C"⟩, ⟨crossing.loader, budget, "A"⟩] :
      List Request), r.loader = crossing.loader ∧ '#' ∉ r.name.toList :=
    List.forall_mem_cons.2 ⟨⟨rfl, hnames.1⟩, List.forall_mem_singleton.2 ⟨rfl, hnames.2⟩⟩
  rw [← hinput]
  exact h _ hrequests budget hbudget

/-- The frames of an evaluation that needs itself. -/
def recursionChain? : Except Halt Value → Option (List String)
  | .error (.failed (.recursion chain)) => some chain
  | _ => none

/-- Where both modules are included, a name that both could bind is looked up in circles. -/
theorem crossed_input_unreadable :
    crossing.loader.Compiles ∧ crossing.loader.Bare (· ≠ "N") ∧
      ∃ c, crossing.loader.compile "main" = .ok c ∧
        let x := (Execution.start .start c.graph crossed).1
        let e := (Execution.start .start c.graph crossed).2
        let σ := x.setting crossing.loader
        σ.Regular c.graph ∧ σ.input "N" = .string "ok" ∧
          (x.fetch e crossing.loader "N").1 = .error (.failed (.recursion ["main::N",
            "main|m1::C", "main::C", "main|m2::D", "main::D", "main|m1::C"])) := by
  have heval : (crossing.loader.compile "main").toOption.map (fun c =>
      let x := Execution.start .start c.graph crossed
      recursionChain? (x.1.fetch x.2 crossing.loader "N").1) = some (some ["main::N",
        "main|m1::C", "main::C", "main|m2::D", "main::D", "main|m1::C"]) := by
    decide +kernel
  obtain ⟨c, hc, hchain⟩ := Option.map_eq_some_iff.1 heval
  have hcovers : (Setting.mk crossing.loader 0 crossed).Covers "main"
      [["main"], ["main", "m1"], ["main", "m2"]] :=
    ⟨by decide, by decide +kernel, by decide +kernel⟩
  have hregular := crossing_regular (eq_ok_of_toOption hc) hcovers (by decide)
  refine ⟨crossing_compiles, crossing_bare _, c, eq_ok_of_toOption hc, hregular, ?_, ?_⟩
  · have hinput : (crossed.get? "N").getD .null = .string "ok" := by decide +kernel
    exact hinput
  · unfold recursionChain? at hchain
    dsimp only at hchain
    split at hchain
    · rename_i hanswer
      cases hchain
      exact hanswer
    · cases hchain

end GatedRules
