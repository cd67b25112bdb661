import GatedRules.Proofs.Complaints
import GatedRules.Proofs.Places
import GatedRules.Proofs.Positions
import GatedRules.Proofs.Recognition

/-!
# Places in sources

What messages and graphs say about places goes back to positions of tokens. The words that open
statements occur nowhere else, so the statements of a module are one to one with them, in order, and
each has the line of its word (`Grammar.Derives.opened`). An error has the position of the token
that its message names, unless the text has ended (`Blames`). Lines of sites, and of includes that
are refused, are those of the statements. And the positions of tokens are their places, up to the
first token with a line break in it (`source_places`).
-/

namespace GatedRules

/-! ### Statements -/

/-- The word with which a statement starts. -/
def Statement.keyword : Statement → Keyword
  | binding .. => .letWord
  | inclusion _ => .includeWord

/-- The line on which a statement starts. -/
def Statement.line : Statement → Nat
  | binding _ _ _ line => line
  | inclusion directive => directive.line

/-- Whether a token is a word with which statements start. -/
def Kind.opens (kind : Kind) : Bool :=
  kind.keyword? = some .letWord || kind.keyword? = some .includeWord

namespace Grammar

/-- Whether a terminal is a word with which statements start. -/
def Terminal.opens : Terminal → Bool
  | .word .letWord | .word .includeWord => true
  | _ => false

theorem opens_terminal (kind : Kind) : (terminal kind).opens = kind.opens := by
  unfold terminal Kind.opens
  cases kind.keyword? with
  | none => rfl
  | some k => cases k <;> rfl

/-- None of the terminals is a word with which statements start. -/
def Quiet (xs : List Terminal) : Prop :=
  ∀ x ∈ xs, x.opens = false

theorem quiet_append {xs ys : List Terminal} : Quiet (xs ++ ys) ↔ Quiet xs ∧ Quiet ys :=
  List.forall_mem_append

theorem quiet_cons {x : Terminal} {xs : List Terminal} :
    Quiet (x :: xs) ↔ x.opens = false ∧ Quiet xs :=
  List.forall_mem_cons

theorem quiet_nil : Quiet [] :=
  nofun

theorem opens_operator (op : BinaryOp) : (operator op).opens = false := by
  cases op <;> rfl

theorem opens_constant (value : Literal) : (constant value).opens = false := by
  rcases value with _ | (_ | _) | _ | _ <;> rfl

theorem quiet_testTerminals (test : Option Bool) : Quiet (testTerminals test) := by
  unfold Quiet
  rcases test with _ | _ | _ <;> decide

/-- No statement starts within an expression. -/
theorem Tree.quiet {c : Category} (t : Tree c) : Quiet t.terminals := by
  induction t with
  | chain first rest ihfirst ihrest => exact quiet_append.2 ⟨ihfirst, ihrest⟩
  | stop => exact quiet_nil
  | more op _ operand rest ihoperand ihrest =>
    exact quiet_cons.2 ⟨opens_operator op, quiet_append.2 ⟨ihoperand, ihrest⟩⟩
  | not operand ih => exact quiet_cons.2 ⟨rfl, ih⟩
  | affirm operand ih => exact ih
  | sum left test ih => exact quiet_append.2 ⟨ih, quiet_testTerminals test⟩
  | compare op _ left right test ihleft ihright =>
    exact quiet_append.2 ⟨ihleft, quiet_cons.2
      ⟨opens_operator op, quiet_append.2 ⟨ihright, quiet_testTerminals test⟩⟩⟩
  | neg operand ih => exact quiet_cons.2 ⟨rfl, ih⟩
  | bare operand ih => exact ih
  | constant value => exact quiet_cons.2 ⟨opens_constant value, quiet_nil⟩
  | name n _ => exact quiet_cons.2 ⟨rfl, quiet_nil⟩
  | call f _ arguments ih =>
    exact quiet_cons.2 ⟨rfl, quiet_cons.2 ⟨rfl, quiet_append.2
      ⟨ih, quiet_cons.2 ⟨rfl, quiet_nil⟩⟩⟩⟩
  | parens inner ih =>
    exact quiet_cons.2 ⟨rfl, quiet_append.2 ⟨ih, quiet_cons.2 ⟨rfl, quiet_nil⟩⟩⟩
  | last e ih => exact ih
  | cons e rest ihe ihrest => exact quiet_append.2 ⟨ihe, quiet_cons.2 ⟨rfl, ihrest⟩⟩
  | empty => exact quiet_nil
  | args es ih => exact ih
  | groups gs ih => exact quiet_cons.2 ⟨rfl, ih⟩
  | both es comma gs ihes ihgs =>
    have hcomma : Quiet (if comma then [.plain .comma] else []) := by
      cases comma
      · exact quiet_nil
      · exact quiet_cons.2 ⟨rfl, quiet_nil⟩
    exact quiet_append.2 ⟨quiet_append.2 ⟨ihes, hcomma⟩, quiet_cons.2 ⟨rfl, ihgs⟩⟩

/-- A statement starts with its word, and no other one starts within it. -/
theorem StatementTree.opened (tree : StatementTree) (line : Nat) : ∃ xs,
    tree.terminals = .word (tree.value line).keyword :: xs ∧ Quiet xs ∧
      (tree.value line).line = line := by
  have hsemicolon : Quiet [.plain .semicolon] := quiet_cons.2 ⟨rfl, quiet_nil⟩
  cases tree with
  | binding name h expr isDefault =>
    refine ⟨_, rfl, ?_, rfl⟩
    have hdefault : Quiet (defaultTerminals isDefault) := by
      cases isDefault
      · exact quiet_nil
      · exact quiet_cons.2 ⟨rfl, quiet_nil⟩
    exact quiet_cons.2 ⟨rfl, quiet_cons.2 ⟨rfl, quiet_append.2
      ⟨quiet_append.2 ⟨expr.quiet, hdefault⟩, hsemicolon⟩⟩⟩
  | inclusion raw target h condition =>
    refine ⟨_, rfl, ?_, rfl⟩
    have hcondition : Quiet (conditionTerminals condition) := by
      cases condition with
      | none => exact quiet_nil
      | some e => exact quiet_cons.2 ⟨rfl, e.quiet⟩
    exact quiet_cons.2 ⟨rfl, quiet_append.2 ⟨hcondition, hsemicolon⟩⟩

/-- **Statements are one to one with the words that open them**, in order, and each is on the line
of its word. -/
theorem Derives.opened {trees : List StatementTree} {ts : List Token} {ss : List Statement}
    (h : Derives trees ts ss) :
    List.Forall₂ (fun t s => t.kind.keyword? = some s.keyword ∧ s.line = t.position.line)
      (ts.filter fun t => t.kind.opens) ss := by
  induction h with
  | nil => exact .nil
  | @cons tree trees t used rest ss htree _ ih =>
    obtain ⟨xs, hxs, hquiet, hline⟩ := tree.opened t.position.line
    obtain ⟨hhead, rfl⟩ := List.cons.inj (htree.trans hxs)
    change terminal t.kind = _ at hhead
    have hkeyword := terminal_eq_word.1 hhead
    have hopens : t.kind.opens = true := by
      rw [← opens_terminal, hhead]
      cases tree <;> rfl
    have hused : used.filter (fun u => u.kind.opens) = [] := by
      refine List.filter_eq_nil_iff.2 fun u hu => ?_
      rw [← opens_terminal, hquiet _ (List.mem_map_of_mem hu)]
      exact Bool.false_ne_true
    rw [List.filter_cons_of_pos (p := fun t : Token => t.kind.opens) hopens, List.filter_append,
      hused, List.nil_append]
    exact .cons ⟨hkeyword, hline⟩ ih

end Grammar

/-- An element that is kept by a filter is behind those that are kept before it. -/
theorem getElem?_filter {α : Type} {p : α → Bool} {as : List α} {i : Nat} {a : α}
    (h : as[i]? = some a) (ha : p a = true) :
    (as.filter p)[(as.take i).countP p]? = some a := by
  induction as generalizing i with
  | nil => cases h
  | cons b as ih =>
    cases i with
    | zero =>
      cases h
      rw [List.filter_cons_of_pos ha]
      rfl
    | succ i =>
      have hrest := ih h
      rw [List.take_succ_cons]
      cases hb : p b with
      | true => rwa [List.filter_cons_of_pos hb, List.countP_cons_of_pos hb]
      | false =>
        have hb := Bool.eq_false_iff.1 hb
        rwa [List.filter_cons_of_neg hb, List.countP_cons_of_neg hb]

/-- The statements of a text are those that the marks open, in order, each on the line of its mark
as long as no earlier token holds a line break. -/
structure Opened (marks : List Mark) (ss : List Statement) : Prop where
  /-- There are as many statements as there are words that open them. -/
  length : ss.length = marks.countP fun m => m.kind.opens
  /-- At every such word there is its statement. -/
  statement : ∀ i m, marks[i]? = some m → m.kind.opens = true →
    ∃ s, ss[(marks.take i).countP fun m => m.kind.opens]? = some s ∧
      m.kind.keyword? = some s.keyword ∧
      (Calm (marks.take i) → s.line = (Position.after m.before).line)

theorem exists_mark {marks : List Mark} {tokens : List Token}
    (hkinds : tokens.map Token.kind = marks.map Mark.kind) {i : Nat} {t : Token}
    (ht : tokens[i]? = some t) : ∃ m, marks[i]? = some m ∧ m.kind = t.kind := by
  have hat := congrArg (·[i]?) hkinds
  simp only [List.getElem?_map, ht, Option.map_some] at hat
  exact Option.map_eq_some_iff.1 hat.symm

theorem exists_token {marks : List Mark} {tokens : List Token}
    (hkinds : tokens.map Token.kind = marks.map Mark.kind) {i : Nat} {m : Mark}
    (hm : marks[i]? = some m) : ∃ t, tokens[i]? = some t ∧ t.kind = m.kind := by
  have hat := congrArg (·[i]?) hkinds
  simp only [List.getElem?_map, hm, Option.map_some] at hat
  exact Option.map_eq_some_iff.1 hat

theorem opened_of_derives {marks : List Mark} {tokens : List Token}
    (hkinds : tokens.map Token.kind = marks.map Mark.kind) (hplaced : Placed marks tokens)
    {trees : List Grammar.StatementTree} {ss : List Statement}
    (h : Grammar.Derives trees tokens ss) : Opened marks ss := by
  have hcount : ∀ i, (tokens.take i).countP (fun t => t.kind.opens) =
      (marks.take i).countP fun m => m.kind.opens := fun i => by
    have htake := congrArg (List.countP Kind.opens) (congrArg (List.take i) hkinds)
    rwa [← List.map_take, ← List.map_take, List.countP_map, List.countP_map] at htake
  have hopened := h.opened
  constructor
  · rw [← hopened.length_eq, ← List.countP_eq_length_filter]
    have hall := congrArg (List.countP Kind.opens) hkinds
    rwa [List.countP_map, List.countP_map] at hall
  · intro i m hm hopens
    obtain ⟨t, ht, hkind⟩ := exists_token hkinds hm
    have hfilter := getElem?_filter ht (p := fun t => t.kind.opens) (hkind ▸ hopens)
    rw [hcount] at hfilter
    obtain ⟨hlt, hget⟩ := List.getElem?_eq_some_iff.1 hfilter
    obtain ⟨hkeyword, hline⟩ := hopened.get hlt (hopened.length_eq ▸ hlt)
    simp only [List.get_eq_getElem, hget] at hkeyword hline
    refine ⟨_, List.getElem?_eq_getElem (hopened.length_eq ▸ hlt), hkind ▸ hkeyword,
      fun hcalm => ?_⟩
    rw [← hplaced i m t hm ht hcalm]
    exact hline

/-! ### Scanned texts -/

/-- What the scanner answers for a text is what the text is taken apart into. -/
structure Located (path source : String) (marks : List Mark)
    (stop : Option (List Char × SyntaxFault)) : Prop where
  /-- The tokens are those of the marks, and at their places. -/
  tokens : ∀ scanned, Tokens.scan path source = .ok scanned →
    stop = none ∧ scanned.tokens.map Token.kind = marks.map Mark.kind ∧ Placed marks scanned.tokens
  /-- What is no token is at its place. -/
  fault : ∀ error, Tokens.scan path source = .error error →
    ∃ before, stop = some (before, error.fault) ∧
      (Calm marks → error.position = Position.after before)

theorem located_of_lays {path source : String} {marks : List Mark}
    {stop : Option (List Char × SyntaxFault)}
    (h : Lays (Position.At ⟨1, 1⟩ [] source.toList) marks stop (scanFrom ⟨1, 1⟩ source.toList)) :
    Located path source marks stop := by
  have hat := Position.at_start source.toList
  generalize hanswer : scanFrom ⟨1, 1⟩ source.toList = answer at h
  cases h with
  | tokens hkinds hplaced =>
    constructor
    · intro scanned hscan
      rw [Tokens.scan, hanswer] at hscan
      cases hscan
      exact ⟨rfl, hkinds, hplaced hat⟩
    · intro error hscan
      rw [Tokens.scan, hanswer] at hscan
      cases hscan
  | fault hposition =>
    constructor
    · intro scanned hscan
      rw [Tokens.scan, hanswer] at hscan
      cases hscan
    · intro error hscan
      rw [Tokens.scan, hanswer] at hscan
      cases hscan
      exact ⟨_, rfl, hposition hat⟩

theorem derives_of_parse {path source : String} {ss : List Statement}
    (h : Statement.parse path source = .ok ss) : ∃ scanned trees,
      Tokens.scan path source = .ok scanned ∧ Grammar.Derives trees scanned.tokens ss := by
  obtain ⟨scanned, hscan, hread⟩ := bind_eq_ok.1 h
  obtain ⟨ss', trees, hok, htrees⟩ | ⟨stuck, herror, -⟩ :=
    Parser.statementsWithin_cases scanned.tokens.length scanned.tokens
  · rw [Parser.statements, hok] at hread
    exact ⟨scanned, trees, hscan, Except.ok.inj hread ▸ htrees⟩
  · rw [Parser.statements, herror] at hread
    cases hread

/-! ### Errors -/

/-- A fault names a token as what has been found, or is about the text of a string. -/
def SyntaxFault.Names (fault : SyntaxFault) (kind : Kind) : Prop :=
  (∃ wanted, fault = .unexpected wanted (some kind)) ∨
    ∃ raw cause, kind = .string raw ∧ fault = .template raw cause

/-- An error is at the place of what it is about, as long as no token before that holds a line
break; or something is missing at the end of the text. -/
inductive Blames (marks : List Mark) (stop : Option (List Char × SyntaxFault))
    (error : SyntaxError) : Prop
  /-- Something is no token. -/
  | text {before : List Char} : stop = some (before, error.fault) →
    (Calm marks → error.position = Position.after before) → Blames marks stop error
  /-- A token is not what was looked for. -/
  | token {i : Nat} {m : Mark} : stop = none → marks[i]? = some m → error.fault.Names m.kind →
    (Calm (marks.take i) → error.position = Position.after m.before) → Blames marks stop error
  /-- The text ends too early. -/
  | ending {wanted : Wanted} : stop = none → error.fault = .unexpected wanted none →
    Blames marks stop error

/-- An error is one of the scanner, or a reader is stuck. -/
theorem Parser.run_eq_error {α : Type} {reader : List Token → Except Stuck α}
    {path source : String} {error : SyntaxError} (h : run reader path source = .error error) :
    Tokens.scan path source = .error error ∨
      ∃ scanned stuck, Tokens.scan path source = .ok scanned ∧
        reader scanned.tokens = .error stuck ∧ error = stuck.toError path scanned.stop := by
  unfold run at h
  cases hscan : Tokens.scan path source with
  | error error' =>
    rw [hscan] at h
    cases h
    exact .inl rfl
  | ok scanned =>
    rw [hscan] at h
    simp only [bind, Except.bind] at h
    cases hread : reader scanned.tokens with
    | ok a =>
      rw [hread] at h
      cases h
    | error stuck =>
      rw [hread] at h
      cases h
      exact .inr ⟨scanned, stuck, rfl, hread, rfl⟩

/-- A reader that is stuck has not left its tokens. -/
def Parser.Within {α : Type} (reader : List Token → Except Stuck α) : Prop :=
  ∀ ts stuck, reader ts = .error stuck → stuck.rest <:+ ts

theorem Parser.within_statements : Within statements := by
  intro ts stuck hread
  obtain ⟨ss, trees, hread', -⟩ | ⟨stuck', hread', hwithin⟩ := statementsWithin_cases ts.length ts
  · exact absurd (hread'.symm.trans hread) nofun
  · obtain rfl := Except.error.inj (hread'.symm.trans hread)
    exact hwithin

theorem Parser.within_wholeExpression : Within wholeExpression := by
  intro ts stuck hread
  obtain ⟨t, hread', -⟩ | ⟨stuck', hread', hwithin⟩ := wholeExpression_cases ts
  · exact absurd (hread'.symm.trans hread) nofun
  · obtain rfl := Except.error.inj (hread'.symm.trans hread)
    exact hwithin

/-- The error of a reader that is precise and does not leave its tokens. -/
theorem Located.blames {path source : String} {marks : List Mark}
    {stop : Option (List Char × SyntaxFault)} (h : Located path source marks stop) {α : Type}
    {reader : List Token → Except Parser.Stuck α} (hprecise : ∀ ts, Parser.Precise (reader ts))
    (hwithin : Parser.Within reader) {error : SyntaxError}
    (hrun : Parser.run reader path source = .error error) : Blames marks stop error := by
  obtain hscan | ⟨scanned, stuck, hscan, hread, rfl⟩ := Parser.run_eq_error hrun
  · obtain ⟨before, hstop, hposition⟩ := h.fault _ hscan
    exact .text hstop hposition
  obtain ⟨rfl, hkinds, hplaced⟩ := h.tokens scanned hscan
  obtain ⟨used, hused⟩ := hwithin _ _ hread
  have htoken : ∀ t ts, stuck.rest = t :: ts → stuck.fault.Names t.kind →
      Blames marks none (stuck.toError path scanned.stop) := fun t ts hrest hnames => by
    have ht : scanned.tokens[used.length]? = some t := by
      rw [← hused, hrest]
      simp
    obtain ⟨m, hm, hkind⟩ := exists_mark hkinds ht
    refine .token rfl hm (hkind ▸ hnames) fun hcalm => ?_
    rw [← hplaced _ m t hm ht hcalm, Parser.Stuck.toError, hrest]
    rfl
  obtain ⟨wanted, hfault⟩ | ⟨t, ts, raw, cause, hrest, hraw, hfault⟩ := hprecise _ _ hread
  · cases hrest : stuck.rest with
    | nil => exact .ending rfl (hfault.trans (by rw [hrest]; rfl))
    | cons t ts =>
      rw [hrest] at hfault
      exact htoken t ts hrest (.inl ⟨wanted, hfault⟩)
  · exact htoken t ts hrest (.inr ⟨raw, cause, hraw, hfault⟩)

/-! ### Compiled modules -/

theorem path_of_parse_error {path source : String} {error : SyntaxError}
    (h : Statement.parse path source = .error error) : error.path = path := by
  obtain hscan | ⟨scanned, stuck, -, -, rfl⟩ := Parser.run_eq_error h
  · unfold Tokens.scan at hscan
    split at hscan
    · cases hscan
    · cases hscan
      rfl
  · rfl

namespace Loader

variable {loader : Loader} {entry : String}

/-- A loader has a module at a path, in which an include is written. -/
def Writes (loader : Loader) (path : String) (directive : Include) : Prop :=
  ∃ source ss, loader.fetch path = .ok source ∧ Statement.parse path source = .ok ss ∧
    .inclusion directive ∈ ss

theorem Writes.mem {path source : String} {directive : Include} (h : loader.Writes path directive)
    (hsource : loader.fetch path = .ok source) :
    ∃ ss, Statement.parse path source = .ok ss ∧ .inclusion directive ∈ ss := by
  obtain ⟨source', ss, hfetch, hparse, hmem⟩ := h
  obtain rfl := Except.ok.inj (hfetch.symm.trans hsource)
  exact ⟨ss, hparse, hmem⟩

/-- A site is an include of its module. -/
theorem writes_site {c : Compiled} (h : loader.compile entry = .ok c) {s : Site}
    (hs : s ∈ c.graph.sites) : ∃ directive, loader.Writes s.origin directive ∧
      s.template = directive.target ∧ s.line = directive.line := by
  obtain ⟨os, w, henters, hfinds, hbuild, -, -⟩ := finds_of_compile h
  obtain ⟨-, -, -, hsites, -⟩ := Draft.of_build hbuild
  rw [hsites, hfinds.draft.sites] at hs
  obtain ⟨o, ho, hsite⟩ := List.mem_filterMap.1 hs
  cases o with
  | site s' =>
    cases hsite
    obtain ⟨chain, directive, rest, mid, name, harrives, -, heq⟩ := henters.placed _ ho
    obtain ⟨source, module, hfetch, hparse, hsuffix⟩ := harrives.of_module
    exact ⟨directive, ⟨source, module, hfetch, hparse, hsuffix.subset List.mem_cons_self⟩,
      congrArg Site.template heq, congrArg Site.line heq⟩
  | _ => cases hsite

/-- An include that is refused is an include of its module. -/
theorem writes_invalidGate {template origin : String} {line : Nat}
    (h : loader.compile entry = .error (.invalidGate template origin line)) :
    ∃ directive, loader.Writes origin directive ∧ template = directive.target.text ∧
      line = directive.line := by
  have hload {target : String} {includedFrom : Option String} {w w' : Walk} :
      ExceptT.run (Walk.load loader target includedFrom) w ≠
        (.error (.invalidGate template origin line), w') := by
    intro h
    obtain ⟨-, he⟩ | ⟨cause, he⟩ | ⟨-, cause, -, -, he⟩ := Walk.error_of_load h <;> cases he
  obtain ⟨w, hroot⟩ | ⟨chain, origin', gate, s, rest, w, hs, hfault⟩ :=
    exists_fault_of_compile h (by simp)
  · exact absurd hroot hload
  · cases hfault with
    | @site directive =>
      obtain ⟨includes, os, harrives, -⟩ := hs.arrives
      obtain ⟨source, module, hfetch, hparse, hsuffix⟩ := harrives.of_module
      exact ⟨directive, ⟨source, module, hfetch, hparse, hsuffix.subset List.mem_cons_self⟩,
        rfl, rfl⟩
    | load _ _ _ h => exact absurd h hload

/-- The error of a compilation is that of the module that cannot be read. -/
theorem parse_of_malformed {error : SyntaxError} {source : String}
    (h : loader.compile entry = .error (.malformed error))
    (hsource : loader.fetch error.path = .ok source) :
    Statement.parse error.path source = .error error := by
  have hload {target : String} {includedFrom : Option String} {w w' : Walk}
      (h : ExceptT.run (Walk.load loader target includedFrom) w =
        (.error (.malformed error), w')) : Statement.parse error.path source = .error error := by
    obtain ⟨-, he⟩ | ⟨cause, he⟩ | ⟨source', cause, hfetch, hparse, he⟩ := Walk.error_of_load h
    · cases he
    · cases he
    · cases he
      obtain rfl := path_of_parse_error hparse
      obtain rfl := Except.ok.inj (hfetch.symm.trans hsource)
      exact hparse
  obtain ⟨w, hroot⟩ | ⟨chain, origin, gate, s, rest, w, hs, hfault⟩ :=
    exists_fault_of_compile h (by simp)
  · exact hload hroot
  · cases hfault with
    | load _ _ _ h => exact hload h

end Loader

/-- **Positions are places.** Any text is taken apart into tokens; those that the scanner gives are
the same, and each has its place, as long as no token before it holds a line break. So do the
statements of a module, which are one to one with the words that open them, and so do errors, unless
something is missing at the end of the text. In a compilation, the line of a site or of an include
that is refused is that of its statement, and the error of a module that cannot be read is the one
that the module has by itself. -/
theorem source_places (path source : String) : ∃ marks stop,
    Cuts [] source.toList marks stop ∧ Located path source marks stop ∧
    (∀ ss, Statement.parse path source = .ok ss → Opened marks ss) ∧
    (∀ error, Statement.parse path source = .error error ∨ Expr.parse path source = .error error →
      Blames marks stop error) ∧
    ∀ (loader : Loader) (entry : String), loader.fetch path = .ok source →
      (∀ c, loader.compile entry = .ok c → ∀ s ∈ c.graph.sites, s.origin = path →
        ∃ ss directive, Statement.parse path source = .ok ss ∧ .inclusion directive ∈ ss ∧
          s.template = directive.target ∧ s.line = directive.line) ∧
      (∀ template line, loader.compile entry = .error (.invalidGate template path line) →
        ∃ ss directive, Statement.parse path source = .ok ss ∧ .inclusion directive ∈ ss ∧
          template = directive.target.text ∧ line = directive.line) ∧
      ∀ error, loader.compile entry = .error (.malformed error) → error.path = path →
        Statement.parse path source = .error error := by
  obtain ⟨marks, stop, hcuts, hlays⟩ := scanFrom_cuts ⟨1, 1⟩ [] source.toList
  have hlocated : Located path source marks stop := located_of_lays hlays
  refine ⟨marks, stop, hcuts, hlocated, fun ss hparse => ?_, ?_, fun loader entry hsource => ?_⟩
  · obtain ⟨scanned, trees, hscan, htrees⟩ := derives_of_parse hparse
    obtain ⟨-, hkinds, hplaced⟩ := hlocated.tokens scanned hscan
    exact opened_of_derives hkinds hplaced htrees
  · rintro error (herror | herror)
    · exact hlocated.blames Parser.precise_statements Parser.within_statements herror
    · exact hlocated.blames Parser.precise_wholeExpression Parser.within_wholeExpression herror
  refine ⟨fun c hc s hs horigin => ?_, fun template line herror => ?_, fun error herror hpath => ?_⟩
  · obtain ⟨directive, hwrites, htemplate, hline⟩ := Loader.writes_site hc hs
    obtain ⟨ss, hparse, hmem⟩ := (horigin ▸ hwrites).mem hsource
    exact ⟨ss, directive, hparse, hmem, htemplate, hline⟩
  · obtain ⟨directive, hwrites, htemplate, hline⟩ := Loader.writes_invalidGate herror
    obtain ⟨ss, hparse, hmem⟩ := hwrites.mem hsource
    exact ⟨ss, directive, hparse, hmem, htemplate, hline⟩
  · subst hpath
    exact Loader.parse_of_malformed herror hsource

/-- A string with an escaped line break, and a name on the second line. -/
def brokenString : String :=
  "\"a\\\nb\" x"

/-- What comes after an escaped line break is not where the scanner says: the name is on line two.
-/
theorem escaped_break_moves_what_follows :
    Cuts [] brokenString.toList
      [⟨[], ['"', 'a', '\\', '\n', 'b', '"'], .string "a\nb"⟩,
        ⟨['"', 'a', '\\', '\n', 'b', '"', ' '], ['x'], .ident "x"⟩] none ∧
    Position.after ['"', 'a', '\\', '\n', 'b', '"', ' '] = ⟨2, 4⟩ ∧
    Tokens.scan "main" brokenString =
      .ok ⟨[⟨.string "a\nb", ⟨1, 1⟩⟩, ⟨.ident "x", ⟨1, 8⟩⟩], ⟨1, 9⟩⟩ := by
  have hscan : (Tokens.scan "main" brokenString).toOption =
      some ⟨[⟨.string "a\nb", ⟨1, 1⟩⟩, ⟨.ident "x", ⟨1, 8⟩⟩], ⟨1, 9⟩⟩ := by
    decide +kernel
  have hstring : lexeme '"' ['a', '\\', '\n', 'b', '"', ' ', 'x'] =
      .ok (.string "a\nb", [' ', 'x']) := rfl
  have hname : lexeme 'x' [] = .ok (.ident "x", []) := rfl
  exact ⟨@Cuts.token _ ['a', '\\', '\n', 'b', '"'] _ _ _ _ _ hstring
    (.blank (by decide) (@Cuts.token _ [] _ _ _ _ _ hname .done)), by decide,
    eq_ok_of_toOption hscan⟩

end GatedRules
