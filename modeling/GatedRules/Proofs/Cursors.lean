import GatedRules.Proofs.Lines
import GatedRules.Proofs.Readers

/-!
# Reading with a cursor

The readers of `GatedRules.Parser` take the tokens that remain, and bounds. Here the same grammar is
read as by a program that moves a cursor over the tokens of a text, of which the last one is its
end. The program looks at what is under the cursor, moves on, and calls procedures, which call each
other and themselves (`Procedure.body`); a loop is a procedure that calls itself at its end. There
is no bound on any of this. At the end the cursor does not move on, silently, so a loop that went on
there would never end.

`Ends` says how such a program ends, if it does: with a result and the place of the cursor, or with
a fault and its place in the text; and it notes where the program looks and what it calls. There is
at most one way to end (`Ends.unique`), and there is none for a program that goes on forever.

A program `Does` what a reader answers if it ends so, from wherever the remaining tokens start. The
lemmas here are about the small programs of which procedures are made.
-/

namespace GatedRules

open Grammar

/-! ### Places -/

/-- What is under a cursor. -/
structure Cursor.Item where
  /-- The kind of the token; there is none at the end of the text. -/
  kind? : Option Kind
  /-- Where it starts in the text. -/
  position : Position

namespace Tokens

/-- The tokens of a text and, last, its end. -/
def items (ts : Tokens) : List Cursor.Item :=
  ts.tokens.map (fun t => ⟨some t.kind, t.position⟩) ++ [⟨none, ts.stop⟩]

/-- The place of the end. -/
def last (ts : Tokens) : Nat :=
  ts.tokens.length

/-- What is under the cursor; beyond the end it is the end. -/
def item? (ts : Tokens) (pos : Nat) : Option Cursor.Item :=
  ts.items[min pos (ts.items.length - 1)]?

/-- Where the cursor is after it has moved on. At the end it stays where it is. -/
def next (ts : Tokens) (pos : Nat) : Nat :=
  if pos < ts.items.length - 1 then pos + 1 else pos

/-- Where the cursor is when some tokens remain. -/
def place (ts : Tokens) (rest : List Token) : Nat :=
  ts.tokens.length - rest.length

/-- What is under the cursor when some tokens remain. -/
def front (ts : Tokens) : List Token → Cursor.Item
  | [] => ⟨none, ts.stop⟩
  | t :: _ => ⟨some t.kind, t.position⟩

variable {ts : Tokens} {t : Token} {us : List Token}

@[simp]
theorem length_items (ts : Tokens) : ts.items.length = ts.last + 1 := by
  simp [items, last]

theorem place_le (ts : Tokens) (us : List Token) : ts.place us ≤ ts.last :=
  Nat.sub_le _ _

theorem item?_place (h : us <:+ ts.tokens) : ts.item? (ts.place us) = some (ts.front us) := by
  obtain ⟨vs, hvs⟩ := h
  have hplace : ts.place us = vs.length := by
    rw [place, ← hvs, List.length_append, Nat.add_sub_cancel]
  rw [item?, length_items, Nat.add_sub_cancel, Nat.min_eq_left (ts.place_le us), hplace, items,
    ← hvs]
  cases us <;> simp [front]

theorem next_place (h : t :: us <:+ ts.tokens) : ts.next (ts.place (t :: us)) = ts.place us := by
  have hle := h.length_le
  rw [List.length_cons] at hle
  rw [next, length_items, Nat.add_sub_cancel, if_pos, place, place, List.length_cons]
  · omega
  · rw [place, last, List.length_cons]
    omega

theorem place_drop {pos : Nat} (h : pos ≤ ts.last) : ts.place (ts.tokens.drop pos) = pos := by
  rw [place, List.length_drop]
  exact Nat.sub_sub_self h

end Tokens

/-! ### Programs -/

namespace Cursor

/-- The procedures of the parser. Loops are procedures with what has been read so far. -/
inductive Procedure
  /-- Read statements up to the end, after others. -/
  | module (read : List Statement)
  /-- Read an expression up to the end. -/
  | whole
  /-- Read a statement. -/
  | statement
  /-- Read an expression. -/
  | expression
  /-- Read an expression of a layer. -/
  | layer (l : Layer)
  /-- Read operators with an operand each, after a first operand. -/
  | more (j : Join) (left : Expr)
  /-- Read a call after its opening parenthesis. -/
  | call (function : String)
  /-- Read arguments and what follows them in a call, after other arguments. -/
  | arguments (function : String) (args : List Expr)
  /-- Read dimensions of a call, after others. -/
  | groups (function : String) (args dimensions : List Expr)

/-- What a procedure reads. -/
abbrev Procedure.Result : Procedure → Type
  | module _ => List Statement
  | statement => Statement
  | _ => Expr

/-- A program that moves a cursor. -/
inductive Program (α : Type)
  /-- The result is there. -/
  | done (a : α)
  /-- Fail, with the place of the fault in the text. -/
  | fail (fault : SyntaxFault) (position : Position)
  /-- Look at what is under the cursor, and go on. -/
  | peek (next : Item → Program α)
  /-- Move on, and go on. -/
  | advance (next : Program α)
  /-- Call a procedure, and go on with what it has read. -/
  | call (p : Procedure) (next : p.Result → Program α)

namespace Program

variable {α β : Type}

/-- Go on with the result of a program. -/
def bind : Program α → (α → Program β) → Program β
  | done a, f => f a
  | fail fault position, _ => fail fault position
  | peek next, f => peek fun item => (next item).bind f
  | advance next, f => advance (next.bind f)
  | call p next, f => call p fun r => (next r).bind f

instance : Monad Program where
  pure := done
  bind := bind

/-- What is under the cursor. -/
def item : Program Item :=
  peek done

/-- Move on. -/
def step : Program Unit :=
  advance (done ())

/-- What a procedure reads. -/
def run (p : Procedure) : Program p.Result :=
  call p done

/-- Fail at the cursor. -/
def error (fault : SyntaxFault) : Program α :=
  peek fun item => fail fault item.position

/-- Fail because something else than what is under the cursor was looked for. -/
def unexpected (wanted : Wanted) : Program α :=
  peek fun item => error (.unexpected wanted item.kind?)

/-- Whether the cursor is at the end. -/
def atEnd : Program Bool := do
  return (← item).kind?.isNone

/-- Whether a keyword is under the cursor. -/
def atKeyword (k : Keyword) : Program Bool := do
  return (← item).kind?.bind Kind.keyword? = some k

/-- Move on if a keyword is under the cursor, and tell whether it was. -/
def eatKeyword (k : Keyword) : Program Bool := do
  if ← atKeyword k then
    step
    return true
  else return false

/-- Move on if a token of a kind is under the cursor, and tell whether it was. -/
def eat (kind : Kind) : Program Bool := do
  if (← item).kind? = some kind then
    step
    return true
  else return false

/-- Move on from a token of a kind, which must be under the cursor. -/
def expect (kind : Kind) (wanted : Wanted) : Program Unit := do
  if (← item).kind? = some kind then step else unexpected wanted

/-! ### The grammar -/

/-- Read a binding after its keyword. -/
def binding (line : Nat) : Program Statement := do
  match (← item).kind? with
  | some (.ident name) =>
    if (Keyword.ofWord? name).isSome then unexpected .slotName
    else
      step
      expect .assign .assign
      let e ← run .expression
      let isDefault ← eatKeyword .defaultWord
      expect .semicolon .semicolon
      return .binding name e isDefault line
  | _ => unexpected .slotName

/-- Read the condition of an include, if it has one. -/
def condition : Program (Option Expr) := do
  if ← eatKeyword .whereWord then
    let e ← run .expression
    return some e
  else return none

/-- Read an include after its keyword. -/
def inclusion (line : Nat) : Program Statement := do
  match (← item).kind? with
  | some (.string raw) =>
    match Template.parse raw with
    | .error fault => error (.template raw fault)
    | .ok target =>
      step
      let condition ← condition
      expect .semicolon .semicolon
      return .inclusion ⟨target, condition, line⟩
  | _ => unexpected .includePath

/-- Read a test for null after its operand, if there is one. -/
def nullTest (e : Expr) : Program Expr := do
  if ← eatKeyword .isWord then
    let negated ← eatKeyword .notWord
    if ← eatKeyword .nullWord then return .isNull e negated else unexpected .nullWord
  else return e

/-- Read what stands by itself. -/
def primary : Program Expr := do
  match (← item).kind? with
  | some (.number x) =>
    step
    return .literal (.number x)
  | some (.string s) =>
    step
    return .literal (.string s)
  | some .leftParen =>
    step
    let e ← run .expression
    expect .rightParen .closeParen
    return e
  | some (.ident word) =>
    match Keyword.ofWord? word with
    | some .nullWord =>
      step
      return .literal .null
    | some .trueWord =>
      step
      return .literal (.bool true)
    | some .falseWord =>
      step
      return .literal (.bool false)
    | some _ => unexpected .expression
    | none =>
      step
      if ← eat .leftParen then run (.call word) else return .name word
  | _ => unexpected .expression

end Program

open Program in
/-- What a procedure does. -/
def Procedure.body : (p : Procedure) → Program p.Result
  | module read => do
    if ← atEnd then return read
    else
      let s ← run .statement
      run (.module (read ++ [s]))
  | whole => do
    let e ← run .expression
    if ← atEnd then return e else unexpected .endOfExpression
  | statement => do
    let line := (← item).position.line
    if ← eatKeyword .letWord then binding line
    else if ← eatKeyword .includeWord then inclusion line
    else unexpected .statement
  | expression => run (.layer (.join .or))
  | layer (.join j) => do
    let left ← run (.layer j.operand)
    run (.more j left)
  | layer .negation => do
    if ← eatKeyword .notWord then
      let e ← run (.layer .negation)
      return .unary .not e
    else run (.layer .comparison)
  | layer .comparison => do
    let left ← run (.layer (.join .sum))
    match (← item).kind?.bind Parser.compareOp? with
    | none => nullTest left
    | some op =>
      step
      let right ← run (.layer (.join .sum))
      nullTest (.binary op left right)
  | layer .unary => do
    if ← eat .minus then
      let e ← run (.layer .unary)
      return .unary .neg e
    else run (.layer .primary)
  | layer .primary => primary
  | more j left => do
    match (← item).kind?.bind j.op? with
    | none => return left
    | some op =>
      step
      let right ← run (.layer j.operand)
      run (.more j (.binary op left right))
  | call f => do
    if ← eat .rightParen then return .call f [] [] else run (.arguments f [])
  | arguments f args => do
    if ← eatKeyword .byWord then run (.groups f args [])
    else
      let e ← run .expression
      if ← eat .rightParen then return .call f (args ++ [e]) []
      else if ← atKeyword .byWord then run (.arguments f (args ++ [e]))
      else
        expect .comma .commaOrClose
        run (.arguments f (args ++ [e]))
  | groups f args dimensions => do
    let e ← run .expression
    if ← eat .comma then run (.groups f args (dimensions ++ [e]))
    else
      expect .rightParen .closeParen
      return .call f args (dimensions ++ [e])

/-! ### How programs end -/

/-- How a program ends. -/
inductive Outcome (α : Type)
  /-- With a result and the place of the cursor. -/
  | returned (a : α) (pos : Nat)
  /-- With a fault and its place in the text. -/
  | failed (fault : SyntaxFault) (position : Position)

/-- What is noted of a program. -/
inductive Event
  /-- It has looked at what is under the cursor. -/
  | looked (pos : Nat)
  /-- It has called a procedure. -/
  | called (p : Procedure) (pos : Nat)

/-- Where the cursor is. -/
def Event.pos : Event → Nat
  | looked pos => pos
  | called _ pos => pos

/-- Whether a statement is to be read. -/
def Event.isStatement : Event → Bool
  | called .statement _ => true
  | _ => false

/-- How a program ends from a place of the cursor, and what is noted of it. -/
inductive Ends (ts : Tokens) : {α : Type} → Program α → Nat → List Event → Outcome α → Prop
  /-- The result is there. -/
  | done {α : Type} {a : α} {pos : Nat} : Ends ts (.done a) pos [] (.returned a pos)
  /-- It fails. -/
  | fail {α : Type} {fault : SyntaxFault} {position : Position} {pos : Nat} :
    Ends ts (.fail fault position : Program α) pos [] (.failed fault position)
  /-- It looks at what is under the cursor. -/
  | peek {α : Type} {next : Item → Program α} {item : Item} {pos : Nat} {log : List Event}
    {out : Outcome α} : ts.item? pos = some item → Ends ts (next item) pos log out →
    Ends ts (.peek next) pos (.looked pos :: log) out
  /-- It moves on. -/
  | advance {α : Type} {next : Program α} {pos : Nat} {log : List Event} {out : Outcome α} :
    Ends ts next (ts.next pos) log out → Ends ts (.advance next) pos (.looked pos :: log) out
  /-- It goes on with what a procedure has read. -/
  | returned {α : Type} {p : Procedure} {next : p.Result → Program α} {a : p.Result}
    {pos pos' : Nat} {log log' : List Event} {out : Outcome α} :
    Ends ts p.body pos log (.returned a pos') → Ends ts (next a) pos' log' out →
    Ends ts (.call p next) pos (.called p pos :: (log ++ log')) out
  /-- A procedure fails. -/
  | failed {α : Type} {p : Procedure} {next : p.Result → Program α} {fault : SyntaxFault}
    {position : Position} {pos : Nat} {log : List Event} :
    Ends ts p.body pos log (.failed fault position) →
    Ends ts (.call p next) pos (.called p pos :: log) (.failed fault position)

variable {ts : Tokens} {α β : Type} {x : Program α} {f : α → Program β} {pos pos' : Nat}
  {log log' : List Event} {a : α} {fault : SyntaxFault} {position : Position}

/-- There is one way to end at most. -/
theorem Ends.unique {out out' : Outcome α} (h : Ends ts x pos log out)
    (h' : Ends ts x pos log' out') : log' = log ∧ out' = out := by
  induction h generalizing log' with
  | done =>
    cases h'
    exact ⟨rfl, rfl⟩
  | fail =>
    cases h'
    exact ⟨rfl, rfl⟩
  | peek hitem _ ih =>
    cases h' with
    | peek hitem' h' =>
      obtain rfl := Option.some.inj (hitem.symm.trans hitem')
      obtain ⟨rfl, rfl⟩ := ih h'
      exact ⟨rfl, rfl⟩
  | advance _ ih =>
    cases h' with
    | advance h' =>
      obtain ⟨rfl, rfl⟩ := ih h'
      exact ⟨rfl, rfl⟩
  | returned _ _ ihp ih =>
    cases h' with
    | returned hp' h' =>
      obtain ⟨rfl, hout⟩ := ihp hp'
      cases hout
      obtain ⟨rfl, rfl⟩ := ih h'
      exact ⟨rfl, rfl⟩
    | failed hp' =>
      obtain ⟨-, hout⟩ := ihp hp'
      cases hout
  | failed _ ihp =>
    cases h' with
    | returned hp' h' =>
      obtain ⟨-, hout⟩ := ihp hp'
      cases hout
    | failed hp' =>
      obtain ⟨rfl, hout⟩ := ihp hp'
      cases hout
      exact ⟨rfl, rfl⟩

/-- A program that goes on with the result of another one. -/
theorem Ends.bind {out : Outcome β} (hx : Ends ts x pos log (.returned a pos'))
    (hf : Ends ts (f a) pos' log' out) : Ends ts (x >>= f) pos (log ++ log') out := by
  generalize hout : Outcome.returned a pos' = first at hx
  induction hx with
  | done =>
    cases hout
    exact hf
  | fail => cases hout
  | peek hitem _ ih => exact .peek hitem (ih hf hout)
  | advance _ ih => exact .advance (ih hf hout)
  | @returned _ p next _ _ _ _ _ _ hp _ _ ih =>
    change Ends ts (.call p fun r => next r >>= f) _ (.called p _ :: (_ ++ _ ++ log')) out
    rw [List.append_assoc]
    exact .returned hp (ih hf hout)
  | failed => cases hout

/-- A program that goes on with the result of one that fails. -/
theorem Ends.bind_failed (hx : Ends ts x pos log (.failed fault position)) :
    Ends ts (x >>= f) pos log (.failed fault position) := by
  generalize hout : Outcome.failed fault position = first at hx
  induction hx with
  | done => cases hout
  | fail =>
    cases hout
    exact .fail
  | peek hitem _ ih => exact .peek hitem (ih hout)
  | advance _ ih => exact .advance (ih hout)
  | returned hp _ _ ih => exact .returned hp (ih hout)
  | failed hp =>
    cases hout
    exact .failed hp

/-- A call ends as the body of the procedure does. -/
theorem Ends.run {p : Procedure} {out : Outcome p.Result} (h : Ends ts p.body pos log out) :
    Ends ts (Program.run p) pos (.called p pos :: log) out := by
  cases out with
  | returned a pos' =>
    have hdone : Ends ts (.call p .done) pos (.called p pos :: (log ++ [])) (.returned a pos') :=
      .returned h .done
    rw [List.append_nil] at hdone
    exact hdone
  | failed fault position => exact .failed h

/-! ### Programs and readers -/

open GatedRules.Parser

/-- How a program ends that does what a reader answers. -/
def outcome (ts : Tokens) : Parsed α → Outcome α
  | .ok (a, rest) => .returned a (ts.place rest)
  | .error stuck => .failed stuck.fault (ts.front stuck.rest).position

/-- Where some tokens remain, a program does what a reader answers. The cursor never leaves the
tokens and their end, and no statement is read on the way. -/
structure Does (ts : Tokens) (x : Program α) (us : List Token) (y : Parsed α) : Prop where
  /-- What remains then is the rest of what remained before. -/
  suffix : ∀ a rest, y = .ok (a, rest) → rest <:+ us
  /-- The program ends so. -/
  ends : us <:+ ts.tokens → ∃ log, Ends ts x (ts.place us) log (outcome ts y) ∧
    ∀ e ∈ log, e.pos ≤ ts.last ∧ e.isStatement = false

namespace Does

variable {t : Token} {us rest : List Token} {stuck : Stuck} {y : Parsed β} {wanted : Wanted}
  {kind : Kind} {k : Keyword}

protected theorem pure (a : α) (us : List Token) : Does ts (pure a) us (.ok (a, us)) where
  suffix a rest h := by
    cases h
    exact List.suffix_refl us
  ends _ := ⟨[], .done, nofun⟩

/-- Going on with the result of a program, or failing as it does. -/
theorem bind {x : Program α} {z : Parsed α} (hx : Does ts x us z)
    (hok : ∀ a rest, z = .ok (a, rest) → rest <:+ us → Does ts (f a) rest y)
    (hstuck : ∀ stuck, z = .error stuck → y = .error stuck) : Does ts (x >>= f) us y where
  suffix b rest' hy := by
    rcases hz : z with stuck | ⟨a, rest⟩
    · rw [hstuck stuck hz] at hy
      cases hy
    · have hrest := hx.suffix a rest hz
      exact ((hok a rest hz hrest).suffix b rest' hy).trans hrest
  ends hus := by
    obtain ⟨log, hends, hlog⟩ := hx.ends hus
    rcases hz : z with stuck | ⟨a, rest⟩
    · rw [hz] at hends
      rw [hstuck stuck hz]
      exact ⟨log, hends.bind_failed, hlog⟩
    · have hrest := hx.suffix a rest hz
      obtain ⟨log', hends', hlog'⟩ := (hok a rest hz hrest).ends (hrest.trans hus)
      rw [hz] at hends
      exact ⟨log ++ log', hends.bind hends', List.forall_mem_append.2 ⟨hlog, hlog'⟩⟩

/-- Going on with the result of a program. -/
theorem andThen {x : Program α} (hx : Does ts x us (.ok (a, rest))) (hf : Does ts (f a) rest y) :
    Does ts (x >>= f) us y := by
  refine hx.bind (fun b rest' h _ => ?_) nofun
  cases h
  exact hf

theorem look {next : Item → Program β} (h : Does ts (next (ts.front us)) us y) :
    Does ts (.peek next) us y where
  suffix := h.suffix
  ends hus := by
    obtain ⟨log, hends, hlog⟩ := h.ends hus
    exact ⟨_, .peek (Tokens.item?_place hus) hends,
      List.forall_mem_cons.2 ⟨⟨ts.place_le us, rfl⟩, hlog⟩⟩

/-- A procedure other than that for statements does what its body does. -/
theorem run {p : Procedure} {y : Parsed p.Result} (h : Does ts p.body us y)
    (hp : p ≠ .statement) : Does ts (Program.run p) us y where
  suffix := h.suffix
  ends hus := by
    obtain ⟨log, hends, hlog⟩ := h.ends hus
    have hcalled : (Event.called p (ts.place us)).isStatement = false := by
      cases p <;> first | rfl | exact absurd rfl hp
    exact ⟨_, hends.run, List.forall_mem_cons.2 ⟨⟨ts.place_le us, hcalled⟩, hlog⟩⟩

/-- What a call of a procedure does, its body does. -/
theorem body {p : Procedure} {y : Parsed p.Result} (h : Does ts (Program.run p) us y) :
    Does ts p.body us y where
  suffix := h.suffix
  ends hus := by
    obtain ⟨log, hends, hlog⟩ := h.ends hus
    generalize hout : outcome ts y = out at hends ⊢
    cases hends with
    | returned hp hdone =>
      cases hdone
      exact ⟨_, hp, fun e he => hlog e (by simp [he])⟩
    | failed hp => exact ⟨_, hp, fun e he => hlog e (by simp [he])⟩

protected theorem item (us : List Token) : Does ts Program.item us (.ok (ts.front us, us)) :=
  look (.pure _ us)

protected theorem step (t : Token) (us : List Token) :
    Does ts Program.step (t :: us) (.ok ((), us)) where
  suffix a rest h := by
    cases h
    exact List.suffix_cons t us
  ends hus := by
    have hdone : Ends ts (.done ()) (ts.next (ts.place (t :: us))) []
        (.returned () (ts.place us)) := by
      rw [Tokens.next_place hus]
      exact .done
    exact ⟨_, .advance hdone, List.forall_mem_singleton.2 ⟨ts.place_le _, rfl⟩⟩

protected theorem error (fault : SyntaxFault) (us : List Token) :
    Does ts (Program.error fault : Program α) us (.error ⟨us, fault⟩) :=
  look ⟨nofun, fun _ => ⟨[], .fail, nofun⟩⟩

protected theorem unexpected (wanted : Wanted) (us : List Token) :
    Does ts (Program.unexpected wanted : Program α) us (Parser.unexpected wanted us) := by
  have hkind : us.head?.map Token.kind = (ts.front us).kind? := by cases us <;> rfl
  rw [Parser.unexpected, hkind]
  exact look (Does.error _ us)

protected theorem atEnd (us : List Token) : Does ts Program.atEnd us (.ok (us.isEmpty, us)) := by
  have hend : (ts.front us).kind?.isNone = us.isEmpty := by cases us <;> rfl
  rw [← hend]
  exact (Does.item us).andThen (.pure _ us)

protected theorem atKeyword (k : Keyword) (us : List Token) :
    Does ts (Program.atKeyword k) us (.ok ((after? k us).isSome, us)) := by
  have hkeyword : decide ((ts.front us).kind?.bind Kind.keyword? = some k) =
      (after? k us).isSome := by
    cases us with
    | nil => rfl
    | cons t us =>
      rw [after?]
      split <;> simp_all [Tokens.front]
  rw [← hkeyword]
  exact (Does.item us).andThen (.pure _ us)

/-- One of two programs, depending on whether a keyword comes next. -/
theorem ifAtKeyword {p q : Program β}
    (hyes : (after? k us).isSome → Does ts p us y) (hno : after? k us = none → Does ts q us y) :
    Does ts (Program.atKeyword k >>= fun b => if b = true then p else q) us y := by
  refine (Does.atKeyword k us).andThen ?_
  cases h : after? k us with
  | none => exact hno h
  | some rest => exact hyes (h ▸ rfl)

/-- A keyword is eaten if it comes next. -/
protected theorem eatKeyword (k : Keyword) (us : List Token) :
    Does ts (Program.eatKeyword k) us (.ok ((after? k us).isSome, (after? k us).getD us)) := by
  refine (Does.atKeyword k us).andThen ?_
  cases h : after? k us with
  | none => exact .pure false us
  | some rest =>
    obtain ⟨t, rfl, -⟩ := after?_eq_some h
    exact (Does.step t rest).andThen (.pure true rest)

/-- One of two programs, depending on whether a keyword is eaten. -/
theorem ifEatKeyword {p q : Program β}
    (hyes : ∀ rest, after? k us = some rest → Does ts p rest y)
    (hno : after? k us = none → Does ts q us y) :
    Does ts (Program.eatKeyword k >>= fun b => if b = true then p else q) us y := by
  refine (Does.eatKeyword k us).andThen ?_
  cases h : after? k us with
  | none => exact hno h
  | some rest => exact hyes rest h

/-- A token of a kind is eaten if it comes next. -/
protected theorem eat (kind : Kind) (us : List Token) :
    Does ts (Program.eat kind) us (.ok ((next? kind us).isSome, (next? kind us).getD us)) := by
  refine (Does.item us).andThen ?_
  cases us with
  | nil => exact .pure false []
  | cons t us =>
    rw [next?]
    by_cases hkind : t.kind = kind
    · have hfront : (ts.front (t :: us)).kind? = some kind := congrArg some hkind
      rw [if_pos hkind, if_pos hfront]
      exact (Does.step t us).andThen (.pure true us)
    · have hfront : ¬ (ts.front (t :: us)).kind? = some kind := fun h => hkind (Option.some.inj h)
      rw [if_neg hkind, if_neg hfront]
      exact .pure false _

/-- One of two programs, depending on whether a token of a kind is eaten. -/
theorem ifEat {p q : Program β} (hyes : ∀ rest, next? kind us = some rest → Does ts p rest y)
    (hno : next? kind us = none → Does ts q us y) :
    Does ts (Program.eat kind >>= fun b => if b = true then p else q) us y := by
  refine (Does.eat kind us).andThen ?_
  cases h : next? kind us with
  | none => exact hno h
  | some rest => exact hyes rest h

protected theorem expect (kind : Kind) (wanted : Wanted) (us : List Token) :
    Does ts (Program.expect kind wanted) us
      ((Parser.expect kind wanted us).map fun rest => ((), rest)) := by
  refine (Does.item us).andThen ?_
  cases us with
  | nil => exact Does.unexpected wanted []
  | cons t us =>
    rw [Parser.expect]
    by_cases hkind : t.kind = kind
    · have hfront : (ts.front (t :: us)).kind? = some kind := congrArg some hkind
      rw [if_pos hkind, if_pos hfront]
      exact .step t us
    · have hfront : ¬ (ts.front (t :: us)).kind? = some kind := fun h => hkind (Option.some.inj h)
      rw [if_neg hkind, if_neg hfront]
      exact Does.unexpected wanted _

/-- Going on after a token that must come next. -/
theorem afterExpect {f : Unit → Program β}
    (hok : ∀ rest, Parser.expect kind wanted us = .ok rest → Does ts (f ()) rest y)
    (hstuck : ∀ stuck, Parser.expect kind wanted us = .error stuck → y = .error stuck) :
    Does ts (Program.expect kind wanted >>= f) us y := by
  have hexpect : Does ts (Program.expect kind wanted) us _ := Does.expect kind wanted us
  cases hx : Parser.expect kind wanted us with
  | error stuck =>
    rw [hx] at hexpect
    exact hexpect.bind nofun fun stuck' h => hstuck stuck' (hx.trans (by cases h; rfl))
  | ok rest =>
    rw [hx] at hexpect
    exact hexpect.andThen (hok rest hx)

end Does

end Cursor

end GatedRules
