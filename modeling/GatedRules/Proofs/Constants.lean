import GatedRules.Proofs.Conditions
import GatedRules.Proofs.Hosts
import GatedRules.Proofs.Once

/-!
# Names with constant definitions

A name whose proper definition in the entry module is a literal under no gate has the value of the
literal in every execution, whatever else is evaluated before, from whichever sources, and also
where state is kept (`Execution.fetch_constant`).

The value of a frame that is in a cell is not computed again, so this is about what cells can hold.
It is shown of evaluations in general that they uphold a protocol (`Protocol.Upheld.answer`): if the
plans of goals keep to the protocol, and lead to answers that are possible by it, then in worlds
whose cells hold possible answers no others are given. Here the possible answers for constant names
are the values of their literals (`Protocol.constants`). Cells are known by texts, so it has to be
excluded that another frame fills the cell of a constant name: frames of modules at sites have texts
that begin differently (`Scope.Nested.text`), and modules look up sheltered names only, as long as
all that is noted of module paths has been compiled.
-/

namespace GatedRules

/-! ### Upholding a protocol -/

namespace EvalM

/-- An outcome upholds what is asked of worlds and of results. -/
structure Upholds {α : Type} (P : World → Prop) (Q : α → Prop) (out : Except Halt α × World) :
    Prop where
  /-- The world that is left behind is as asked. -/
  world : P out.2
  /-- So is the result, if there is one. -/
  result : ∀ {a}, out.1 = .ok a → Q a

end EvalM

/-- In a setting, a protocol is upheld by worlds of a kind. -/
structure Protocol.Upheld (π : Protocol Unit) (σ : Setting) (P : World → Prop) : Prop where
  /-- Goals keep to the protocol and lead to possible answers. -/
  follows : ∀ {goal}, π.mayAsk () goal →
    goal.plan.Follows π (fun _ r => π.answered () goal r) ()
  /-- Actions have possible results. -/
  acts : ∀ {action w}, π.mayAct () action → P w → ∀ stack,
    EvalM.Upholds P (π.acted () action) ((EvalM.act σ action).exec stack w)
  /-- Cells hold possible answers. -/
  reads : ∀ {f v w}, π.mayAsk () (.frame f) → P w → w.cells.get? f.text = some v →
    π.answered () (.frame f) v
  /-- Possible answers may be put into cells. -/
  fills : ∀ {f v w}, π.mayAsk () (.frame f) → P w → π.answered () (.frame f) v →
    P { w with cells := w.cells.insert f.text v }

namespace EvalM

variable {α β : Type} {σ : Setting} {π : Protocol Unit} {P : World → Prop} {w : World} {k : Nat}
  {stack : List String}

theorem upholds_ok {Q : α → Prop} {a : α} (hw : P w) (ha : Q a) : Upholds P Q (.ok a, w) :=
  ⟨hw, fun h => Except.ok.inj h ▸ ha⟩

theorem upholds_error {Q : α → Prop} {halt : Halt} (hw : P w) : Upholds P Q (.error halt, w) :=
  ⟨hw, fun h => by cases h⟩

theorem upholds_bind {Q : α → Prop} {R : β → Prop} {x : EvalM α} {f : α → EvalM β}
    (hx : Upholds P Q (x.exec stack w))
    (hf : ∀ a w, P w → Q a → Upholds P R ((f a).exec stack w)) :
    Upholds P R ((x >>= f).exec stack w) := by
  rw [exec_bind]
  rcases hr : x.exec stack w with ⟨halt | a, w'⟩ <;> rw [hr] at hx
  · exact upholds_error hx.world
  · exact hf a w' hx.world (hx.result rfl)

theorem upholds_run {Q : Unit → α → Prop} {x : Plan α} (h : π.Upheld σ P)
    (hx : x.Follows π Q ()) (hw : P w)
    (hanswer : ∀ goal w, π.mayAsk () goal → P w →
      Upholds P (π.answered () goal) (((handler σ).answer k goal).exec stack w)) :
    Upholds P (Q ()) ((x.run (handler σ) ((handler σ).answer k)).exec stack w) := by
  induction x generalizing w with
  | done a => exact upholds_ok hw hx
  | fail error => exact upholds_error hw
  | perform action next ih =>
    refine upholds_bind (h.acts hx.1 hw stack) fun r w' hw' hr => ?_
    exact ih r (hx.2 () r (π.refl ()) hr) hw'
  | ask goal next ih =>
    refine upholds_bind (hanswer goal w hx.1 hw) fun r w' hw' hr => ?_
    exact ih r (hx.2 () r (π.refl ()) hr) hw'

theorem upholds_visit {f : Frame} {x : EvalM Value} (h : π.Upheld σ P)
    (hf : π.mayAsk () (.frame f)) (hw : P w)
    (hx : Upholds P (π.answered () (.frame f)) (x.exec (stack ++ [f.text]) w)) :
    Upholds P (π.answered () (.frame f)) (((handler σ).visit f x).exec stack w) := by
  rw [exec_visit]
  split
  · exact upholds_error hw
  split
  · rename_i v hcell
    exact upholds_ok hw (h.reads hf hw hcell)
  · rcases hr : x.exec (stack ++ [f.text]) w with ⟨halt | v, w'⟩ <;> rw [hr] at hx
    · exact upholds_error hx.world
    · exact upholds_ok (h.fills hf hx.world (hx.result rfl)) (hx.result rfl)

/-- What is computed once has the value to which its computation leads, if its cell can hold no
other. -/
theorem exec_once {frame : String} {x : EvalM Value} {v : Value} (hs : frame ∉ stack)
    (hcell : ∀ {u}, w.cells.get? frame = some u → u = v)
    (hx : (x.exec (stack ++ [frame]) w).1 = .ok v) : ((once frame x).exec stack w).1 = .ok v := by
  rw [once, exec_enter, if_neg (by simpa using hs), exec_memo]
  cases hc : w.cells.get? frame with
  | some u => exact congrArg Except.ok (hcell hc)
  | none =>
    rcases hr : x.exec (stack ++ [frame]) w with ⟨halt | u, w'⟩ <;> rw [hr] at hx
    · cases hx
    · exact hx

end EvalM

/-- **Evaluations uphold a protocol**: from a world of the kind, a goal that may be asked for gets a
possible answer, if any, and a world of the kind is left behind. -/
theorem Protocol.Upheld.answer {σ : Setting} {π : Protocol Unit} {P : World → Prop}
    (h : π.Upheld σ P) (k : Nat) {goal : Goal} (hgoal : π.mayAsk () goal) {w : World} (hw : P w)
    (stack : List String) : EvalM.Upholds P (π.answered () goal)
      (((EvalM.handler σ).answer k goal).exec stack w) := by
  induction k generalizing goal w stack with
  | zero => exact EvalM.upholds_error hw
  | succ k ih =>
    have hrun : ∀ stack, EvalM.Upholds P (π.answered () goal)
        ((goal.plan.run (EvalM.handler σ) ((EvalM.handler σ).answer k)).exec stack w) :=
      fun stack => EvalM.upholds_run h (h.follows hgoal) hw fun _ _ hg hw => ih hg hw stack
    cases goal with
    | primary s n => exact hrun stack
    | frame f => exact EvalM.upholds_visit h hgoal hw (hrun _)

/-! ### Compiled modules at sites -/

/-- A graph has been compiled, from whichever sources. -/
def Graph.IsCompiled (g : Graph) : Prop :=
  ∃ loader path c, Loader.compile loader path = .ok c ∧ c.graph = g

theorem Graph.IsCompiled.isSlotName {g : Graph} (h : g.IsCompiled) {n : String}
    (hn : n ∈ g.lookups) : IsSlotName n := by
  obtain ⟨_, _, c, hc, rfl⟩ := h
  exact isSlotName_of_mem_lookups hc n hn

/-- What is noted of module paths for an execution, where there are modules, has been compiled. -/
def Engine.NotesCompiled (e : Engine) (id : ExecutionId) : Prop :=
  ∀ path g, (e.memo id).get? path = some (some (.resolved g)) → g.IsCompiled

namespace Engine.NotesCompiled

variable {e : Engine} {id : ExecutionId}

theorem resolvePath_fst (h : e.NotesCompiled id) {loader : Loader} {path : String} {g : Graph}
    (hr : (e.resolvePath loader id path).1 = .ok (.resolved g)) : g.IsCompiled := by
  rw [Engine.resolvePath_fst] at hr
  split at hr
  · rename_i o ho
    obtain rfl := Except.ok.inj hr
    exact h _ g ho
  · obtain ⟨c, hc, hg⟩ := compile_of_outcome hr
    exact ⟨loader, _, c, hc, hg⟩

theorem resolvePath (h : e.NotesCompiled id) (loader : Loader) (path : String) :
    (e.resolvePath loader id path).2.NotesCompiled id := by
  intro p g hp
  rw [memo_resolvePath] at hp
  split at hp
  · cases hr : (e.resolvePath loader id path).1 with
    | error error =>
      rw [hr] at hp
      cases hp
    | ok o =>
      rw [hr] at hp
      cases hp
      exact h.resolvePath_fst hr
  · exact h p g hp

end Engine.NotesCompiled

/-- A scope of the entry module or of compiled modules at sites. -/
abbrev Scope.Inside (entry : Graph) (s : Scope) : Prop :=
  s.Nested (fun _ g => g.IsCompiled) entry

namespace Scope

variable {entry g : Graph} {s : Scope}

theorem Inside.isSlotName (h : s.Inside entry) (hentry : entry.IsCompiled) {n : String}
    (hn : n ∈ s.graph.lookups) : IsSlotName n := by
  cases h with
  | entry => exact hentry.isSlotName hn
  | child _ hg => exact hg.isSlotName hn

/-- The text of a scope at a site goes on differently from that of a frame of the entry module. -/
theorem Nested.text {r : Graph → Graph → Prop} (h : s.Nested r entry) :
    s = .entry entry ∨ ∃ rest, s.text = entry.root ++ "|" ++ rest := by
  induction h with
  | entry => exact .inl rfl
  | @child s g _ _ ih =>
    right
    rw [text_child]
    obtain rfl | ⟨rest, hrest⟩ := ih
    · exact ⟨g.root, by rw [text_entry]⟩
    · exact ⟨rest ++ "|" ++ g.root, by simp only [hrest, String.append_assoc]⟩

end Scope

/-- What has the text of a frame of the entry module is a frame of the entry module. -/
theorem Frame.scope_eq_of_text {r : Graph → Graph → Prop} {entry : Graph} {f f' : Frame}
    (h : f.scope.Nested r entry) (hf' : f'.scope = .entry entry) (htext : f.text = f'.text) :
    f.scope = .entry entry := by
  obtain hscope | ⟨rest, hrest⟩ := h.text
  · exact hscope
  obtain ⟨n, hn⟩ := f.text_eq
  obtain ⟨n', hn'⟩ := f'.text_eq
  rw [hn, hn', hf', hrest, Scope.text_entry] at htext
  have hchars := congrArg String.toList htext
  simp only [String.toList_append, List.append_assoc] at hchars
  cases List.append_cancel_left hchars

/-! ### Constant names -/

/-- The proper definition of a name is a literal under no gate. -/
def Graph.Fixes (g : Graph) (n : String) (l : Literal) : Prop :=
  ∃ origin, (Scope.entry g).definition? n .primary = some ⟨.literal l, .always, origin⟩

theorem Graph.Fixes.unique {g : Graph} {n : String} {l l' : Literal} (h : g.Fixes n l)
    (h' : g.Fixes n l') : l = l' := by
  obtain ⟨origin, hd⟩ := h
  obtain ⟨origin', hd'⟩ := h'
  rw [hd] at hd'
  cases hd'
  rfl

namespace Goal

variable {entry : Graph}

/-- An answer is that of the literal, if the goal is about a constant name of the entry module. -/
def Agrees (entry : Graph) : (goal : Goal) → goal.Answer → Prop
  | .frame (.name s n), v => s = .entry entry → ∀ l, entry.Fixes n l → v = Value.ofLiteral l
  | .frame (.definition s n rank _), v =>
    s = .entry entry → rank = .primary → ∀ l, entry.Fixes n l → v = Value.ofLiteral l
  | .primary s n, r =>
    s = .entry entry → ∀ l, entry.Fixes n l → r = some (Value.ofLiteral l)

theorem agrees_of_ne {goal : Goal} (h : goal.scope ≠ .entry entry) (r : goal.Answer) :
    goal.Agrees entry r := by
  cases goal with
  | primary s n => exact fun hs => absurd hs h
  | frame f => cases f <;> exact fun hs => absurd hs h

/-- A goal about one of certain names inside of an entry module. -/
structure Inside (entry : Graph) (p : String → Prop) (goal : Goal) : Prop where
  /-- The scope is that of the entry module or of a compiled module at a site. -/
  scope : goal.scope.Inside entry
  /-- The name is one of them. -/
  name : p goal.name
  /-- A definition is one of the scope. -/
  proper : goal.Proper

end Goal

/-- Goals about certain names inside of an entry module, with certain answers. -/
def Protocol.inside (entry : Graph) (p : String → Prop)
    (answered : (goal : Goal) → goal.Answer → Prop) : Protocol Unit where
  later _ _ := True
  mayAsk _ := Goal.Inside entry p
  mayAct _ _ := True
  answered _ := answered
  acted _ action r :=
    match action, r with
    | .resolve _, outcome => ∀ g, outcome = .resolved g → g.IsCompiled
    | _, _ => True
  refl _ := trivial
  trans _ _ := trivial
  mayAsk_mono _ h := h
  mayAct_mono _ h := h
  answered_mono _ h := h
  acted_mono _ h := h

/-- Goals about sheltered names inside of an entry module, where answers for its constant names are
the values of their literals. -/
def Protocol.constants (entry : Graph) : Protocol Unit :=
  .inside entry (fun n => Text.Sheltered n.toList) (Goal.Agrees entry)

section

variable {entry : Graph} {goal : Goal} {s : Scope} {n : String} {p : String → Prop}

theorem Goal.Inside.within {f : Frame} (h : (Goal.frame f).Inside entry p)
    (hscope : f.scope = .entry entry) : f.Within (.entry entry) p := by
  cases f with
  | name s n => exact ⟨hscope, h.name⟩
  | definition s n rank d =>
    obtain rfl : s = .entry entry := hscope
    exact ⟨rfl, h.name, h.proper⟩

theorem Frame.Within.scope {f : Frame} (h : f.Within s p) : f.scope = s := by
  cases f with
  | name _ _ => exact h.1
  | definition _ _ _ _ => exact h.1

section

variable {answered : (goal : Goal) → goal.Answer → Prop}

theorem Goal.Inside.serves (h : goal.Inside entry p) (hp : ∀ n, IsSlotName n → p n)
    (hentry : entry.IsCompiled) :
    (Protocol.inside entry p answered).Serves goal.scope goal.name () where
  condition hd _ hc :=
    ⟨h.scope, hp _ <| h.scope.isSlotName hentry <|
      (Scope.defines_of_definition? hd).lookups (Definition.mem_dependencies_of_gate hc), trivial⟩
  definition hd _ _ := ⟨h.scope, h.name, hd⟩
  site _ _ hs _ hm :=
    ⟨h.scope, hp _ (h.scope.isSlotName hentry (Graph.mem_lookups_of_site hs hm)), trivial⟩
  child _ _ _ _ _ _ hl := by
    obtain ⟨_, _, -, -, ho⟩ := hl.resolves
    exact ⟨.child h.scope (ho _ rfl), h.name, trivial⟩
  resolve _ := trivial
  skip := trivial

/-- Inside of an entry module, goals ask for goals inside of it. -/
theorem Goal.Inside.plan_follows (h : goal.Inside entry p) (hp : ∀ n, IsSlotName n → p n)
    (hentry : entry.IsCompiled) :
    goal.plan.Follows (.inside entry p answered) (fun _ _ => True) () := by
  cases goal with
  | primary s n => exact Scope.fromPrimary_follows (h.serves hp hentry)
  | frame f =>
    cases f with
    | name s n =>
      refine Scope.settle_follows (h.serves hp hentry) ⟨h.scope, h.name, trivial⟩ ?_ trivial
      intro g gs hg
      obtain ⟨g', _⟩ := s
      subst hg
      exact ⟨Scope.Nested.around h.scope, h.name, trivial⟩
    | definition s n rank d =>
      have hdefines := Scope.defines_of_definition? h.proper
      refine Expr.eval_follows d.expr ⟨fun m hm => ⟨h.scope, hp m ?_, trivial⟩, trivial,
        fun _ _ => trivial⟩
      exact h.scope.isSlotName hentry
        (hdefines.lookups (Definition.mem_dependencies_of_mentions hm))

end

/-- The plans for a constant name lead to the value of its literal. -/
theorem Graph.Fixes.plan_follows {l : Literal} (h : entry.Fixes n l)
    (hn : Text.Sheltered n.toList) :
    ((Scope.entry entry).settle n).Follows (.constants entry) (fun _ v => v = .ofLiteral l) () ∧
      ((Scope.entry entry).fromPrimary n).Follows (.constants entry)
        (fun _ r => r = some (.ofLiteral l)) () := by
  obtain ⟨origin, hd⟩ := h
  constructor
  · unfold Scope.settle
    have hask : (Protocol.constants entry).mayAsk () (.primary (.entry entry) n) :=
      ⟨.entry, hn, trivial⟩
    refine (Plan.follows_primary hask).bind fun _ r _ hr => ?_
    rw [hr rfl l ⟨origin, hd⟩]
    exact Plan.follows_pure rfl
  · have hask : (Protocol.constants entry).mayAsk ()
        (.frame (.definition (.entry entry) n .primary ⟨.literal l, .always, origin⟩)) :=
      ⟨.entry, hn, hd⟩
    have hrank : ((Scope.entry entry).fromRank n .primary).Follows (.constants entry)
        (fun _ r => r = some (.ofLiteral l)) () := by
      rw [Scope.fromRank_of_always hd rfl]
      refine (Plan.follows_value hask).bind fun _ v _ hv => Plan.follows_pure ?_
      rw [hv rfl rfl l ⟨origin, hd⟩]
    refine hrank.bind fun _ r _ hr => ?_
    rw [hr]
    exact Plan.follows_pure rfl

/-- Inside of an entry module, plans lead to answers that agree with its constant names. -/
theorem Goal.Inside.plan_agrees (h : goal.Inside entry fun n => Text.Sheltered n.toList)
    (hentry : entry.IsCompiled) :
    goal.plan.Follows (.constants entry) (fun _ r => goal.Agrees entry r) () := by
  have hplan : goal.plan.Follows (.constants entry) (fun _ _ => True) () :=
    h.plan_follows (fun _ hn => hn.balanced.sheltered) hentry
  by_cases hscope : goal.scope = .entry entry
  swap
  · exact hplan.imp fun _ r _ => agrees_of_ne hscope r
  by_cases hfixes : ∃ l, entry.Fixes goal.name l
  swap
  · refine hplan.imp fun _ r _ => ?_
    cases goal with
    | primary s n => exact fun _ l hl => absurd ⟨l, hl⟩ hfixes
    | frame f =>
      cases f with
      | name s n => exact fun _ l hl => absurd ⟨l, hl⟩ hfixes
      | definition s n rank d => exact fun _ _ l hl => absurd ⟨l, hl⟩ hfixes
  obtain ⟨l, hl⟩ := hfixes
  obtain ⟨hname, hprimary⟩ := hl.plan_follows h.name
  cases goal with
  | primary s n =>
    obtain rfl : s = .entry entry := hscope
    exact hprimary.imp fun _ r hr _ l' hl' => hl'.unique hl ▸ hr
  | frame f =>
    cases f with
    | name s n =>
      obtain rfl : s = .entry entry := hscope
      exact hname.imp fun _ v hv _ l' hl' => hl'.unique hl ▸ hv
    | definition s n rank d =>
      obtain rfl : s = .entry entry := hscope
      obtain ⟨origin, hd⟩ := hl
      cases rank with
      | fallback => exact hplan.imp fun _ v _ _ hrank => nomatch hrank
      | primary =>
        obtain rfl : d = ⟨.literal l, .always, origin⟩ := Option.some.inj (h.proper.symm.trans hd)
        exact Plan.follows_pure fun _ _ l' hl' => hl'.unique ⟨origin, hd⟩ ▸ rfl

end

/-! ### Worlds and executions -/

/-- Actions leave it at compiled modules. -/
theorem Engine.NotesCompiled.acts {σ : Setting} {w : World} (h : w.engine.NotesCompiled σ.id)
    (entry : Graph) (p : String → Prop) (answered : (goal : Goal) → goal.Answer → Prop)
    (action : Action) (stack : List String) :
    EvalM.Upholds (fun w => w.engine.NotesCompiled σ.id)
      ((Protocol.inside entry p answered).acted () action) ((EvalM.act σ action).exec stack w) := by
  have hworld : (EvalM.act σ action).Preserves fun w => w.engine.NotesCompiled σ.id := by
    refine EvalM.preserves_act (fun _ _ hw => hw) (fun _ _ hw => hw) fun path _ stack w hw => ?_
    rw [EvalM.exec_resolve]
    exact hw.resolvePath σ.loader path
  refine ⟨hworld stack w h, fun {r} hr => ?_⟩
  cases action with
  | resolve path =>
    have hresult := congrArg Prod.fst (EvalM.exec_resolve σ path stack w)
    have hr : ((EvalM.resolve σ path).exec stack w).1 = .ok r := hr
    rw [hr] at hresult
    rintro g rfl
    suffices hresolved : (w.engine.resolvePath σ.loader σ.id path).1 = .ok (.resolved g) from
      h.resolvePath_fst hresolved
    cases ho : (w.engine.resolvePath σ.loader σ.id path).1 with
    | error error =>
      rw [ho] at hresult
      cases hresult
    | ok o =>
      rw [ho] at hresult
      exact congrArg Except.ok (Except.ok.inj hresult).symm
  | _ => trivial

/-- The cells of the entry module agree with its constant names, and all that is noted of module
paths has been compiled. -/
structure World.Agrees (entry : Graph) (id : ExecutionId) (w : World) : Prop where
  /-- Cells of constant names hold the values of their literals. -/
  cells : ∀ {f v}, f.Within (.entry entry) (fun n => Text.Sheltered n.toList) →
    w.cells.get? f.text = some v → (Goal.frame f).Agrees entry v
  /-- What is noted has been compiled. -/
  notes : w.engine.NotesCompiled id

namespace World.Agrees

variable {entry : Graph} {σ : Setting} {w : World}

theorem acts (hw : w.Agrees entry σ.id) (action : Action) (stack : List String) :
    EvalM.Upholds (World.Agrees entry σ.id) ((Protocol.constants entry).acted () action)
      ((EvalM.act σ action).exec stack w) := by
  have hout := hw.notes.acts entry (fun n => Text.Sheltered n.toList) (Goal.Agrees entry) action
    stack
  refine ⟨⟨fun hf hv => ?_, hout.world⟩, hout.result⟩
  rw [EvalM.cells_act] at hv
  exact hw.cells hf hv

/-- What a cell holds agrees with constant names, be its frame of the entry module or further
inside. -/
theorem reads (hw : w.Agrees entry σ.id) {f : Frame} {v : Value}
    (hv : w.cells.get? f.text = some v)
    (hf : (Goal.frame f).Inside entry fun n => Text.Sheltered n.toList) :
    (Goal.frame f).Agrees entry v := by
  by_cases hscope : (Goal.frame f).scope = .entry entry
  · exact hw.cells (hf.within hscope) hv
  · exact Goal.agrees_of_ne hscope v

theorem fills (hw : w.Agrees entry σ.id) {f : Frame} {v : Value}
    (hv : (Goal.frame f).Agrees entry v)
    (hf : (Goal.frame f).Inside entry fun n => Text.Sheltered n.toList) :
    { w with cells := w.cells.insert f.text v }.Agrees entry σ.id := by
  refine ⟨fun {f' u} hf' hu => ?_, hw.notes⟩
  dsimp only at hu
  rw [Table.get?_insert] at hu
  split at hu
  · rename_i htext
    cases hu
    have hscope : f.scope = .entry entry :=
      Frame.scope_eq_of_text hf.scope hf'.scope htext.symm
    obtain rfl := (hf.within hscope).injective (fun _ hn => hn) hf' htext.symm
    exact hv
  · exact hw.cells hf' hu

end World.Agrees

theorem Protocol.upheld_constants {entry : Graph} (hentry : entry.IsCompiled) (σ : Setting) :
    (constants entry).Upheld σ (World.Agrees entry σ.id) where
  follows h := h.plan_agrees hentry
  acts _ hw := hw.acts _
  reads hf hw hv := hw.reads hv hf
  fills hf hw hv := hw.fills hv hf

/-- Requests are for names without `#`, and the engine changes so that all that is noted for an
execution has been compiled. -/
def Turn.Fair (id : ExecutionId) : Turn → Prop
  | .request r => '#' ∉ r.name.toList
  | .change f => ∀ e : Engine, e.NotesCompiled id → (f e).NotesCompiled id

namespace Execution

variable {x : Execution} {e : Engine}

theorem inside_name (x : Execution) {n : String} (hn : Text.Sheltered n.toList) :
    (Goal.frame (.name (.entry x.graph) n)).Inside x.graph fun n => Text.Sheltered n.toList :=
  ⟨.entry, hn, trivial⟩

/-- Whatever happens in turn, cells agree with constant names. -/
theorem agrees_take {turns : List Turn} (hgraph : x.graph.IsCompiled)
    (hw : (x.world e).Agrees x.graph x.id) (hturns : ∀ turn ∈ turns, turn.Fair x.id) :
    ((x.take e turns).2.1.world (x.take e turns).2.2).Agrees x.graph x.id := by
  induction turns generalizing x e with
  | nil => exact hw
  | cons turn turns ih =>
    obtain ⟨hturn, hrest⟩ := List.forall_mem_cons.1 hturns
    cases turn with
    | change f => exact ih hgraph ⟨hw.cells, hturn e hw.notes⟩ hrest
    | request r =>
      rw [take_request]
      have hgoal := x.inside_name (Text.sheltered_of_not_mem hturn)
      have hupheld := Protocol.upheld_constants hgraph (x.setting r.loader)
      have hout := hupheld.answer r.budget hgoal hw []
      exact ih (x := x.resume _) hgraph hout.world hrest

/-- An execution starts in a world that agrees with the constant names of its graph. -/
theorem agrees_start (he : e.Numbered) (g : Graph) (inputs : Table String Value) :
    ((start e g inputs).1.world (start e g inputs).2).Agrees g (start e g inputs).1.id := by
  refine ⟨fun {f v} _ hv => ?_, fun path g' hg' => ?_⟩
  · cases hv
  · have hnote : ((start e g inputs).2.memo (start e g inputs).1.id).get? path =
        some (some (.resolved g')) := hg'
    rw [memo_start he] at hnote
    cases hnote

/-- A constant name has the value of its literal, in a world that agrees with it. -/
theorem fetchWithin_of_fixes {n : String} {l : Literal} (h : x.graph.Fixes n l)
    (hn : Text.Sheltered n.toList) (hw : (x.world e).Agrees x.graph x.id) {budget : Nat}
    (hbudget : 3 ≤ budget) (loader : Loader) :
    (x.fetchWithin budget e loader n).1 = .ok (.ofLiteral l) := by
  obtain ⟨k, rfl⟩ : ∃ k, budget = k + 3 := ⟨budget - 3, by omega⟩
  obtain ⟨origin, hd⟩ := h
  have hname : ∀ {v}, (x.world e).cells.get? ((Scope.entry x.graph).frame n) = some v →
      v = .ofLiteral l := fun hv => hw.cells (f := .name _ n) ⟨rfl, hn⟩ hv rfl l ⟨origin, hd⟩
  have hdefinition : ∀ {v}, (x.world e).cells.get?
      ((Scope.entry x.graph).definitionFrame n .primary) = some v → v = .ofLiteral l := fun hv =>
    hw.cells (f := .definition _ n .primary _) ⟨rfl, hn, hd⟩ hv rfl rfl l ⟨origin, hd⟩
  change ((EvalM.nameValue (x.setting loader) (k + 3) (.entry x.graph) n).exec [] (x.world e)).1 = _
  rw [EvalM.nameValue_of_definition? hd]
  refine EvalM.exec_once List.not_mem_nil hname (EvalM.exec_once ?_ hdefinition rfl)
  rw [List.nil_append, List.mem_singleton]
  exact (Scope.frame_ne_definitionFrame hn).symm

/-- **Constant names keep the values of their literals** in every execution of a compiled graph,
whatever it has been asked for before, and however the sources and the engine have changed
meanwhile. -/
theorem fetch_constant {g : Graph} (hg : g.IsCompiled) {n : String} {l : Literal}
    (h : g.Fixes n l) (hn : Text.Sheltered n.toList) (he : e.Numbered)
    (inputs : Table String Value) {turns : List Turn}
    (hturns : ∀ turn ∈ turns, turn.Fair e.nextId) {budget : Nat} (hbudget : 3 ≤ budget)
    (loader : Loader) :
    let now := (start e g inputs).1.take (start e g inputs).2 turns
    (now.2.1.fetchWithin budget now.2.2 loader n).1 = .ok (.ofLiteral l) := by
  intro now
  have hgraph : now.2.1.graph = g ∧ now.2.1.id = e.nextId := by
    have hkeeps := take_execution (start e g inputs).1 (start e g inputs).2 turns
    exact ⟨congrArg graph hkeeps, congrArg id hkeeps⟩
  have hw : (now.2.1.world now.2.2).Agrees g e.nextId :=
    agrees_take (x := (start e g inputs).1) hg (agrees_start he g inputs) hturns
  rw [← hgraph.1, ← hgraph.2] at hw
  exact fetchWithin_of_fixes (hgraph.1.symm ▸ h) hn hw hbudget loader

end Execution

end GatedRules
