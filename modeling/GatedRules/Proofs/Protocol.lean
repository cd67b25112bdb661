import GatedRules.Evaluation.Lookup
import Mathlib.Data.List.Forall2

/-!
# Protocols of plans

What a plan asks for next depends on the answers it got before. A `Protocol` says what may be asked
for and done at a stage of knowledge, and which answers and results are possible there; stages only
ever gain knowledge. A plan `Follows` a protocol if it keeps to it whatever the possible answers
are.

The second part derives what the plans of the evaluator ask for. An expression asks for the names
that it mentions (`eval_follows`). A definition is asked for only where all conditions of its gate
are known to be `true` (`fromRank_follows`), and a module that is included at a site only where the
gate of the site is known to hold and its template to lead to the module (`enterSite_follows`).
-/

namespace GatedRules

/-- What may be asked for and done at a stage of knowledge, and what is possible there. -/
structure Protocol (S : Type) where
  /-- A stage comes later than another, or is the same. -/
  later : S → S → Prop
  /-- What may be asked for. -/
  mayAsk : S → Goal → Prop
  /-- What may be done. -/
  mayAct : S → Action → Prop
  /-- The answers that are possible. -/
  answered : S → (goal : Goal) → goal.Answer → Prop
  /-- The results that are possible. -/
  acted : S → (action : Action) → action.Result → Prop
  /-- A stage is not before itself. -/
  refl : ∀ s, later s s
  /-- Stages follow each other. -/
  trans : ∀ {s t u}, later s t → later t u → later s u
  /-- What may be asked for may be asked for later. -/
  mayAsk_mono : ∀ {s t goal}, later s t → mayAsk s goal → mayAsk t goal
  /-- What may be done may be done later. -/
  mayAct_mono : ∀ {s t action}, later s t → mayAct s action → mayAct t action
  /-- What has been answered stays so. -/
  answered_mono : ∀ {s t goal r}, later s t → answered s goal r → answered t goal r
  /-- What has resulted stays so. -/
  acted_mono : ∀ {s t action r}, later s t → acted s action r → acted t action r

/-- Whether an error says that an evaluation needs itself. -/
def EvalError.isRecursion : EvalError → Bool
  | recursion _ => true
  | _ => false

namespace Plan

variable {S : Type} {α β : Type} {π : Protocol S}

/-- From a stage on, a plan asks for and does only what it may, and its result is as described. It
does not itself claim that it needs itself. -/
def Follows (π : Protocol S) (Q : S → α → Prop) : Plan α → S → Prop
  | done a, s => Q s a
  | fail error, _ => error.isRecursion = false
  | perform action next, s =>
    π.mayAct s action ∧ ∀ t r, π.later s t → π.acted t action r → (next r).Follows π Q t
  | ask goal next, s =>
    π.mayAsk s goal ∧ ∀ t r, π.later s t → π.answered t goal r → (next r).Follows π Q t

theorem follows_pure {Q : S → α → Prop} {s : S} {a : α} (h : Q s a) :
    (pure a : Plan α).Follows π Q s :=
  h

theorem Follows.bind {Q : S → α → Prop} {R : S → β → Prop} {x : Plan α} {f : α → Plan β} {s : S}
    (hx : x.Follows π Q s) (hf : ∀ t a, π.later s t → Q t a → (f a).Follows π R t) :
    (x >>= f).Follows π R s := by
  induction x generalizing s with
  | done a => exact hf s a (π.refl s) hx
  | fail => exact hx
  | perform action next ih =>
    exact ⟨hx.1, fun t r ht hr => ih r (hx.2 t r ht hr) fun u a hu => hf u a (π.trans ht hu)⟩
  | ask goal next ih =>
    exact ⟨hx.1, fun t r ht hr => ih r (hx.2 t r ht hr) fun u a hu => hf u a (π.trans ht hu)⟩

theorem Follows.imp {Q R : S → α → Prop} {x : Plan α} {s : S} (hx : x.Follows π Q s)
    (h : ∀ t a, Q t a → R t a) : x.Follows π R s := by
  induction x generalizing s with
  | done a => exact h s a hx
  | fail => exact hx
  | perform action next ih => exact ⟨hx.1, fun t r ht hr => ih r (hx.2 t r ht hr)⟩
  | ask goal next ih => exact ⟨hx.1, fun t r ht hr => ih r (hx.2 t r ht hr)⟩

/-- What holds of the result holds at a stage that is not before the first. -/
theorem Follows.later {Q : S → α → Prop} {x : Plan α} {s t : S} (hx : x.Follows π Q t)
    (hs : π.later s t) : x.Follows π (fun u a => π.later s u ∧ Q u a) t := by
  induction x generalizing t with
  | done a => exact ⟨hs, hx⟩
  | fail => exact hx
  | perform action next ih =>
    exact ⟨hx.1, fun u r hu hr => ih r (hx.2 u r hu hr) (π.trans hs hu)⟩
  | ask goal next ih =>
    exact ⟨hx.1, fun u r hu hr => ih r (hx.2 u r hu hr) (π.trans hs hu)⟩

theorem follows_input {name : String} {s : S} (h : π.mayAct s (.input name)) :
    (input name).Follows π (fun t v => π.acted t (.input name) v) s :=
  ⟨h, fun _ _ _ hr => hr⟩

theorem follows_call {slot : String} {c : StatefulCall} {s : S} (h : π.mayAct s (.call slot c)) :
    (call slot c).Follows π (fun t v => π.acted t (.call slot c) v) s :=
  ⟨h, fun _ _ _ hr => hr⟩

theorem follows_skip {s : S} (h : π.mayAct s .skip) : skip.Follows π (fun _ _ => True) s :=
  ⟨h, fun _ _ _ _ => trivial⟩

theorem follows_resolve {path : String} {s : S} (h : π.mayAct s (.resolve path)) :
    (resolve path).Follows π (fun t r => π.acted t (.resolve path) r) s :=
  ⟨h, fun _ _ _ hr => hr⟩

theorem follows_value {frame : Frame} {s : S} (h : π.mayAsk s (.frame frame)) :
    (value frame).Follows π (fun t v => π.answered t (.frame frame) v) s :=
  ⟨h, fun _ _ _ hr => hr⟩

theorem follows_primary {scope : Scope} {name : String} {s : S}
    (h : π.mayAsk s (.primary scope name)) :
    (primary scope name).Follows π (fun t v => π.answered t (.primary scope name) v) s :=
  ⟨h, fun _ _ _ hr => hr⟩

theorem follows_ofValue {result : Except TypeFault Value} {s : S} :
    (ofValue result).Follows π (fun _ _ => True) s := by
  cases result with
  | ok v => trivial
  | error fault => rfl

/-- The results of plans that are run one after the other are as described if each one is, whatever
is known by then. -/
theorem follows_all {ι : Type} {f : ι → Plan α} {Q : S → ι → α → Prop}
    (hQ : ∀ {t u i a}, π.later t u → Q t i a → Q u i a) {is : List ι} {s : S}
    (h : ∀ i ∈ is, ∀ t, π.later s t → (f i).Follows π (fun u a => Q u i a) t) :
    (all (is.map f)).Follows π (fun t as => List.Forall₂ (Q t) is as) s := by
  induction is generalizing s with
  | nil => exact follows_pure List.Forall₂.nil
  | cons i is ih =>
    refine (h i (by simp) s (π.refl s)).bind fun t a ht ha => ?_
    have hs : ∀ j ∈ is, ∀ u, π.later t u → (f j).Follows π (fun u a => Q u j a) u :=
      fun j hj u hu => h j (by simp [hj]) u (π.trans ht hu)
    refine (ih hs).bind fun u as hu has => ?_
    exact follows_pure (List.Forall₂.cons (hQ hu ha) has)

/-- From a stage on, a plan keeps to a protocol whenever it is run. -/
def Keeps (π : Protocol S) (x : Plan α) (s : S) : Prop :=
  ∀ t, π.later s t → x.Follows π (fun _ _ => True) t

theorem Keeps.mono {x : Plan α} {s t : S} (h : x.Keeps π s) (ht : π.later s t) : x.Keeps π t :=
  fun u hu => h u (π.trans ht hu)

theorem Keeps.follows {x : Plan α} {s : S} (h : x.Keeps π s) :
    x.Follows π (fun _ _ => True) s :=
  h s (π.refl s)

theorem follows_all_of_keeps {xs : List (Plan α)} {s : S} (h : ∀ x ∈ xs, x.Keeps π s) :
    (all xs).Follows π (fun _ _ => True) s := by
  have hxs := follows_all (Q := fun _ _ _ => True) (f := id) (fun _ _ => trivial)
    (fun x hx t ht => h x hx t ht)
  rw [List.map_id] at hxs
  exact hxs.imp fun _ _ _ => trivial

theorem follows_grouped {slot : String} {groups : List (Plan Value)}
    {stateful : List Value → StatefulCall} {s : S} (hg : ∀ x ∈ groups, x.Keeps π s)
    (hc : ∀ c, π.mayAct s (.call slot c)) :
    (grouped slot groups stateful).Follows π (fun _ _ => True) s := by
  refine (follows_all_of_keeps hg).bind fun t gs ht _ => ?_
  split
  · exact follows_pure trivial
  · exact (follows_call (π.mayAct_mono ht (hc _))).imp fun _ _ _ => trivial

end Plan

/-! ### Expressions -/

namespace Function

variable {S : Type} {π : Protocol S} {slot : String}

/-- Whether a function reads or changes state. -/
def isStateful : Function → Bool
  | count | countUnique | rateLimit => true
  | _ => false

theorem name_of_ofName? {name : String} {f : Function} (h : ofName? name = some f) :
    f.name = name := by
  simpa using List.find?_some h

/-- The stateful functions are those that make an expression stateful. -/
theorem contains_statefulFunctions (f : Function) :
    Expr.statefulFunctions.contains f.name = f.isStateful := by
  cases f <;> rfl

theorem apply_follows {f : Function} {args groups : List (Plan Value)} {s : S}
    (ha : ∀ x ∈ args, x.Keeps π s) (hg : ∀ x ∈ groups, x.Keeps π s)
    (hr : π.mayAct s (.input slot))
    (hc : f.isStateful = true → ∀ c, π.mayAct s (.call slot c)) :
    (f.apply slot groups args).Follows π (fun _ _ => True) s := by
  have hgrouped : ∀ t, π.later s t → f.isStateful = true → ∀ stateful,
      (Plan.grouped slot groups stateful).Follows π (fun _ _ => True) t := by
    intro t ht hf stateful
    exact Plan.follows_grouped (fun x hx => (hg x hx).mono ht)
      fun c => π.mayAct_mono ht (hc hf c)
  unfold apply
  split
  · exact (Plan.follows_input hr).imp fun _ _ _ => trivial
  · rename_i condition yes rest
    refine (ha condition (by simp)).follows.bind fun t c ht _ => ?_
    split
    · exact ha yes (by simp) t ht
    · cases rest with
      | nil => exact Plan.follows_pure trivial
      | cons no rest => exact ha no (by simp) t ht
  · exact (Plan.follows_all_of_keeps ha).bind fun _ _ _ _ => Plan.follows_ofValue
  · rename_i arg args
    exact (ha arg (by simp)).follows.bind fun _ _ _ _ => Plan.follows_pure trivial
  · exact hgrouped s (π.refl s) rfl _
  · rename_i arg args
    refine (ha arg (by simp)).follows.bind fun t v ht _ => ?_
    split
    · exact Plan.follows_pure trivial
    · exact hgrouped t ht rfl _
  · rename_i arg args
    refine (ha arg (by simp)).follows.bind fun t v ht _ => ?_
    split
    · trivial
    · exact Plan.follows_pure trivial
    · exact hgrouped t ht rfl _
  · exact Plan.follows_pure trivial

theorem call_follows {function : String} {args groups : List (Plan Value)} {s : S}
    (ha : ∀ x ∈ args, x.Keeps π s) (hg : ∀ x ∈ groups, x.Keeps π s)
    (hr : π.mayAct s (.input slot))
    (hc : Expr.statefulFunctions.contains function = true → ∀ c, π.mayAct s (.call slot c)) :
    (call slot function args groups).Follows π (fun _ _ => True) s := by
  unfold call
  split
  · trivial
  · rename_i f hf
    rw [← name_of_ofName? hf, contains_statefulFunctions] at hc
    split
    · trivial
    · exact apply_follows ha hg hr hc

end Function

namespace Expr

variable {S : Type} {π : Protocol S} {scope : Scope} {slot : String}

/-- What the expressions of a definition of `slot` need: to ask for the names that they mention, to
read the input of the slot and, if they are stateful, to make stateful calls. -/
structure Permitted (π : Protocol S) (scope : Scope) (slot : String) (names : List String)
    (stateful : Bool) (s : S) : Prop where
  /-- The names may be asked for. -/
  mayAsk : ∀ n ∈ names, π.mayAsk s (.frame (.name scope n))
  /-- The input may be read. -/
  mayRead : π.mayAct s (.input slot)
  /-- Stateful calls may be made. -/
  mayCall : stateful = true → ∀ c, π.mayAct s (.call slot c)

theorem Permitted.mono {names names' : List String} {stateful stateful' : Bool} {s t : S}
    (h : Permitted π scope slot names stateful s) (hl : π.later s t) (hn : names' ⊆ names)
    (hs : stateful' = true → stateful = true) : Permitted π scope slot names' stateful' t where
  mayAsk n hm := π.mayAsk_mono hl (h.mayAsk n (hn hm))
  mayRead := π.mayAct_mono hl h.mayRead
  mayCall hst c := π.mayAct_mono hl (h.mayCall (hs hst) c)

mutual

/-- An expression asks for nothing but the names that it mentions, and makes calls only if it is
stateful. -/
theorem eval_follows : ∀ (e : Expr) {s : S}, Permitted π scope slot e.mentions e.isStateful s →
    (e.eval scope slot).Follows π (fun _ _ => True) s
  | literal _, _, _ => by
    rw [eval]
    exact Plan.follows_pure trivial
  | name n, _, h => by
    rw [eval]
    exact (Plan.follows_value (h.mayAsk n (by simp [mentions]))).imp fun _ _ _ => trivial
  | unary op e, s, h => by
    rw [eval]
    have he : Permitted π scope slot e.mentions e.isStateful s :=
      h.mono (π.refl s) (by simp [mentions]) (by simp [isStateful])
    refine (eval_follows e he).bind fun t v _ _ => ?_
    cases op <;> exact Plan.follows_ofValue
  | binary op l r, s, h => by
    rw [eval]
    have hl : Permitted π scope slot l.mentions l.isStateful s :=
      h.mono (π.refl s) (by simp [mentions]) (by simp +contextual [isStateful])
    refine (eval_follows l hl).bind fun t a ht _ => ?_
    split
    · exact Plan.follows_pure trivial
    · have hr : Permitted π scope slot r.mentions r.isStateful t :=
        h.mono ht (by simp [mentions]) (by simp +contextual [isStateful])
      exact (eval_follows r hr).bind fun _ _ _ _ => Plan.follows_ofValue
  | isNull e negated, s, h => by
    rw [eval]
    have he : Permitted π scope slot e.mentions e.isStateful s :=
      h.mono (π.refl s) (by simp [mentions]) (by simp [isStateful])
    exact (eval_follows e he).bind fun _ _ _ _ => Plan.follows_pure trivial
  | call function args groups, s, h => by
    rw [eval]
    have hargs : Permitted π scope slot (mentionsAll args) (anyStateful args) s :=
      h.mono (π.refl s) (by simp [mentions]) (by simp +contextual [isStateful])
    have hgroups : Permitted π scope slot (mentionsAll groups) (anyStateful groups) s :=
      h.mono (π.refl s) (by simp [mentions]) (by simp +contextual [isStateful])
    refine Function.call_follows (evalEach_keeps args hargs) (evalEach_keeps groups hgroups)
      h.mayRead fun hf => h.mayCall ?_
    rw [isStateful, hf]
    rfl

/-- Each of several expressions asks for nothing but the names that they mention, and makes calls
only if one of them is stateful. -/
theorem evalEach_keeps : ∀ (es : List Expr) {s : S},
    Permitted π scope slot (mentionsAll es) (anyStateful es) s →
    ∀ x ∈ evalEach scope slot es, x.Keeps π s
  | [], _, _ => by simp [evalEach]
  | e :: es, s, h => by
    rw [evalEach]
    intro x hx
    rcases List.mem_cons.1 hx with rfl | hx
    · intro t ht
      exact eval_follows e
        (h.mono ht (by simp [mentionsAll]) (by simp +contextual [anyStateful]))
    · exact evalEach_keeps es
        (h.mono (π.refl s) (by simp [mentionsAll]) (by simp +contextual [anyStateful])) x hx

end

end Expr

/-! ### Names -/

namespace Protocol

variable {S : Type} (π : Protocol S)

/-- The value of a name in a scope is possible. -/
def Known (s : S) (scope : Scope) (name : String) (v : Value) : Prop :=
  π.answered s (.frame (.name scope name)) v

/-- All conditions of a gate are known to be `true` in a scope. -/
def Open (s : S) (scope : Scope) (gate : Gate) : Prop :=
  ∀ c ∈ gate.conditions, π.Known s scope c.name (.bool true)

/-- The gate of a site is known to hold in a scope, and its template to lead to a module. -/
structure LeadsTo (s : S) (scope : Scope) (site : Site) (graph : Graph) : Prop where
  /-- The gate holds. -/
  isOpen : π.Open s scope site.gate
  /-- The values of the names of the template give the path of the module. -/
  resolves : ∃ values path, List.Forall₂ (π.Known s scope) site.template.inputs values ∧
    Engine.render site (Table.ofList (site.template.inputs.zip values)).get? = .ok path ∧
    π.acted s (.resolve path) (.resolved graph)

variable {π} in
theorem Open.mono {s t : S} {scope : Scope} {gate : Gate} (h : π.Open s scope gate)
    (ht : π.later s t) : π.Open t scope gate :=
  fun c hc => π.answered_mono ht (h c hc)

/-- What a name needs in a scope: to ask for the conditions of its gates and of the sites, for its
definitions where their gates are open, and for the modules to which sites lead. -/
structure Serves (scope : Scope) (name : String) (s : S) : Prop where
  /-- The conditions of definitions may be asked for. -/
  condition : ∀ {rank d}, scope.definition? name rank = some d →
    ∀ c ∈ d.gate.conditions, π.mayAsk s (.frame (.name scope c.name))
  /-- A definition may be asked for where its gate is open. -/
  definition : ∀ {rank d t}, scope.definition? name rank = some d → π.later s t →
    π.Open t scope d.gate → π.mayAsk t (.frame (.definition scope name rank d))
  /-- The names of sites may be asked for. -/
  site : scope.asksSites name = true → ∀ site ∈ scope.graph.sites, ∀ n ∈ site.dependencies,
    π.mayAsk s (.frame (.name scope n))
  /-- The modules to which sites lead may be asked for. -/
  child : scope.asksSites name = true → ∀ site ∈ scope.graph.sites, ∀ {t graph}, π.later s t →
    π.LeadsTo t scope site graph → π.mayAsk t (.primary (scope.child graph) name)
  /-- Module paths may be resolved. -/
  resolve : ∀ path, π.mayAct s (.resolve path)
  /-- Closed gates may be noted. -/
  skip : π.mayAct s .skip

variable {π} in
theorem Serves.mono {scope : Scope} {name : String} {s t : S} (h : π.Serves scope name s)
    (ht : π.later s t) : π.Serves scope name t where
  condition hd c hc := π.mayAsk_mono ht (h.condition hd c hc)
  definition hd hu ho := h.definition hd (π.trans ht hu) ho
  site ha site hs n hn := π.mayAsk_mono ht (h.site ha site hs n hn)
  child ha site hs _ _ hu hl := h.child ha site hs (π.trans ht hu) hl
  resolve path := π.mayAct_mono ht (h.resolve path)
  skip := π.mayAct_mono ht h.skip

end Protocol

namespace Scope

variable {S : Type} {π : Protocol S} {scope : Scope} {name : String}

theorem conditionsHold_follows {cs : List Condition} {s : S}
    (h : ∀ c ∈ cs, π.mayAsk s (.frame (.name scope c.name))) :
    (scope.conditionsHold cs).Follows π
      (fun t b => b = true → ∀ c ∈ cs, π.Known t scope c.name (.bool true)) s := by
  induction cs generalizing s with
  | nil =>
    rw [conditionsHold]
    exact Plan.follows_pure fun _ c hc => absurd hc List.not_mem_nil
  | cons c cs ih =>
    rw [conditionsHold]
    refine (Plan.follows_value (h c (by simp))).bind fun t v ht hv => ?_
    split
    · rename_i hv'
      obtain rfl : v = .bool true := Value.isTrue_iff.1 hv'
      have hcs : ∀ d ∈ cs, π.mayAsk t (.frame (.name scope d.name)) :=
        fun d hd => π.mayAsk_mono ht (h d (by simp [hd]))
      -- The answer for `c` is still known once the other conditions are.
      refine ((ih hcs).later (π.refl t)).imp fun u b hb hb' d hd => ?_
      rcases List.mem_cons.1 hd with rfl | hd
      · exact π.answered_mono hb.1 hv
      · exact hb.2 hb' d hd
    · exact Plan.follows_pure fun hb => by cases hb

theorem gateHolds_follows {gate : Gate} {s : S}
    (h : ∀ c ∈ gate.conditions, π.mayAsk s (.frame (.name scope c.name))) :
    (scope.gateHolds gate).Follows π (fun t b => b = true → π.Open t scope gate) s :=
  conditionsHold_follows h

/-- A definition is asked for only where all conditions of its gate are known to be `true`. -/
theorem fromRank_follows {rank : Rank} {s : S} (h : π.Serves scope name s) :
    (scope.fromRank name rank).Follows π (fun _ _ => True) s := by
  unfold fromRank
  split
  · exact Plan.follows_pure trivial
  · rename_i d hd
    refine (gateHolds_follows (h.condition hd)).bind fun t b ht hb => ?_
    split
    · rename_i hb'
      exact (Plan.follows_value (h.definition hd ht (hb hb'))).bind
        fun _ _ _ _ => Plan.follows_pure trivial
    · dsimp only
      split
      · exact (Plan.follows_skip (h.mono ht).skip).bind fun _ _ _ _ => Plan.follows_pure trivial
      · exact Plan.follows_pure trivial

/-- A site is entered only where its gate is known to hold, and into the module to which its
template is known to lead. -/
theorem enterSite_follows {site : Site} {s : S}
    (h : ∀ n ∈ site.dependencies, π.mayAsk s (.frame (.name scope n)))
    (hr : ∀ path, π.mayAct s (.resolve path)) :
    (scope.enterSite site).Follows π
      (fun t r => ∀ child, r = some child →
        ∃ graph, child = scope.child graph ∧ π.LeadsTo t scope site graph) s := by
  unfold enterSite
  have hgate : ∀ c ∈ site.gate.conditions, π.mayAsk s (.frame (.name scope c.name)) :=
    fun c hc => h _ (Site.mem_dependencies.2 (.inr ⟨c, hc, rfl⟩))
  refine (gateHolds_follows hgate).bind fun t b ht hb => ?_
  split
  · rename_i hb'
    -- The names of the template are asked for after the gate, whose conditions stay known.
    have hinput : ∀ n ∈ site.template.inputs, ∀ u, π.later t u →
        (Plan.value (.name scope n)).Follows π (fun v a => π.Known v scope n a) u :=
      fun n hn u hu => Plan.follows_value (π.mayAsk_mono (π.trans ht hu)
        (h n (Site.mem_dependencies.2 (.inl hn))))
    refine (Plan.follows_all (Q := fun v n a => π.Known v scope n a)
      (fun hu hv => π.answered_mono hu hv) hinput).bind
      fun u values hu hvalues => ?_
    split
    · exact Plan.follows_pure fun _ hc => by cases hc
    · rename_i path hpath
      have hresolve := π.mayAct_mono (π.trans ht hu) (hr path)
      refine (Plan.follows_resolve hresolve).bind fun v r hv hr' => ?_
      split
      · rename_i graph
        refine Plan.follows_pure fun child hc => ?_
        obtain rfl : scope.child graph = child := by simpa using hc
        refine ⟨graph, rfl, (hb hb').mono (π.trans hu hv), values, path, ?_, hpath, hr'⟩
        exact hvalues.imp fun _ _ hk => π.answered_mono hv hk
      · exact Plan.follows_pure fun _ hc => by cases hc
  · exact Plan.follows_pure fun _ hc => by cases hc

theorem fromSites_follows {sites : List Site} {s : S} (h : π.Serves scope name s)
    (ha : scope.asksSites name = true) (hs : sites ⊆ scope.graph.sites) :
    (scope.fromSites name sites).Follows π (fun _ _ => True) s := by
  induction sites generalizing s with
  | nil =>
    rw [fromSites]
    exact Plan.follows_pure trivial
  | cons site sites ih =>
    rw [fromSites]
    have hsite : site ∈ scope.graph.sites := hs (by simp)
    have hrest : sites ⊆ scope.graph.sites := fun _ hx => hs (by simp [hx])
    refine (enterSite_follows (h.site ha site hsite) h.resolve).bind fun t r ht hr => ?_
    cases r with
    | none => exact ih (h.mono ht) hrest
    | some child =>
      obtain ⟨graph, rfl, hl⟩ := hr child rfl
      refine (Plan.follows_primary (h.child ha site hsite ht hl)).bind fun u v hu _ => ?_
      cases v with
      | none => exact ih (h.mono (π.trans ht hu)) hrest
      | some v => exact Plan.follows_pure trivial

theorem fromPrimary_follows {s : S} (h : π.Serves scope name s) :
    (scope.fromPrimary name).Follows π (fun _ _ => True) s := by
  unfold fromPrimary
  refine (fromRank_follows h).bind fun t v ht _ => ?_
  cases v with
  | some v => exact Plan.follows_pure trivial
  | none =>
    dsimp only
    split
    · exact fromSites_follows (h.mono ht) ‹_› (List.Subset.refl _)
    · exact Plan.follows_pure trivial

/-- What settling a name asks for: besides what the name needs in the scope, the value from proper
definitions, the name in the scope around, and its input. -/
theorem settle_follows {s : S} (h : π.Serves scope name s)
    (hp : π.mayAsk s (.primary scope name))
    (ha : ∀ g gs, scope.around = g :: gs → π.mayAsk s (.frame (.name ⟨g, gs⟩ name)))
    (hi : π.mayAct s (.input name)) :
    (scope.settle name).Follows π (fun _ _ => True) s := by
  unfold settle
  refine (Plan.follows_primary hp).bind fun t v ht _ => ?_
  cases v with
  | some v => exact Plan.follows_pure trivial
  | none =>
    refine (fromRank_follows (h.mono ht)).bind fun u v hu _ => ?_
    cases v with
    | some v => exact Plan.follows_pure trivial
    | none =>
      have htu := π.trans ht hu
      dsimp only
      split
      · exact (Plan.follows_input (π.mayAct_mono htu hi)).imp fun _ _ _ => trivial
      · rename_i g gs hg
        exact (Plan.follows_value (π.mayAsk_mono htu (ha g gs hg))).imp fun _ _ _ => trivial

end Scope

end GatedRules
