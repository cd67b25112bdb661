import GatedRules.Proofs.Balance
import GatedRules.Proofs.Doubles
import GatedRules.Proofs.Fillings
import GatedRules.Proofs.Tallies

/-!
# Integers are kept apart, if doubles do

Integers are compared, counted and written into paths by way of the doubles that are nearest to
them. So as long as these differ, integers of sixty-four bits are not mistaken for each other: they
are compared as integers, they have different texts, a slot that counts distinct values counts each
of them, and a template makes different paths of them (`integers_kept_apart`). Up to `2 ^ 53` they
always differ; beyond, integers that are rounded to one double are taken for one another
(`integers_taken_for_one_another`).
-/

namespace GatedRules

open Decimal

/-! ### Texts of integers in paths -/

namespace Decimal

theorem not_isSlash_of_isNumeral {c : Char} (h : IsNumeral c) : Path.isSlash c = false := by
  rw [Bool.eq_false_iff]
  intro hc
  have hslash : c = '/' ∨ c = '\\' := by simpa [Path.isSlash] using hc
  obtain rfl | rfl := hslash <;> exact absurd h (by unfold IsNumeral; decide)

theorem not_isBlank_of_isNumeral {c : Char} (h : IsNumeral c) : Text.isBlank c = false := by
  obtain hdigit | hc := h
  · obtain ⟨hlow, hhigh⟩ := toNat_of_isDigit hdigit
    unfold Text.isBlank
    simp
    omega
  · simp only [List.mem_cons, List.not_mem_nil, or_false] at hc
    rcases hc with rfl | rfl | rfl | rfl | rfl | rfl | rfl <;> decide

/-- The text of a finite double is a component of a path. -/
theorem isComponent_sourceChars {x : Float} {negative : Bool} {m : Nat} {e : Int}
    (hx : Binary.ofFloat x = .finite negative m e) : Path.IsComponent (sourceChars x) := by
  have hhead : ∃ c cs, sourceChars x = c :: cs ∧ c ≠ '.' := by
    obtain ⟨y, hy, ⟨-, hxy⟩ | ⟨-, hxy⟩⟩ := exists_unsigned hx
    · exact ⟨'-', _, hxy, by decide⟩
    · obtain ⟨c, cs, hcs, hc⟩ := (readsBack_of_ofFloat hy).isDigit_head
      refine ⟨c, cs, hxy.trans hcs, ?_⟩
      rintro rfl
      cases hc
  obtain ⟨c, cs, hcs, hc⟩ := hhead
  refine ⟨?_, ?_, fun c hc => not_isSlash_of_isNumeral (isNumeral_of_mem_sourceChars hc),
    fun c hc => not_isBlank_of_isNumeral (isNumeral_of_mem_sourceChars hc)⟩
  · rw [hcs]
    exact List.cons_ne_nil _ _
  · rw [hcs]
    rintro ⟨⟩
    exact hc rfl

end Decimal

namespace Value

variable {a b : Int}

/-- Integers have one text if they are rounded to one double, and only then. -/
theorem pathText?_int_eq_iff (ha : FitsWord a) (hb : FitsWord b) :
    pathText? (int a) = pathText? (int b) ↔ ofInt a = ofInt b := by
  rw [pathText?, pathText?, Option.some_inj, sourceText, sourceText, String.ofList_inj]
  exact ⟨ofInt_eq_of_sourceChars ha hb, congrArg sourceChars⟩

/-- Integers that are not rounded to one double are compared as integers. -/
theorem compare_int (ha : FitsWord a) (hb : FitsWord b) (hne : ofInt a ≠ ofInt b) :
    compare .eq (int a) (int b) = .ok (bool false) ∧
      compare .lt (int a) (int b) = .ok (bool (a < b)) ∧
      compare .gt (int a) (int b) = .ok (bool (b < a)) := by
  have hab : a ≠ b := fun h => hne (congrArg ofInt h)
  have horder : order? (int a) (int b) = some (Ord.compare a b) := floatOrder_ofInt ha hb hne
  unfold compare
  simp only [isNull, Bool.or_self, Bool.false_eq_true, if_false, horder]
  obtain h | rfl | h := lt_trichotomy a b
  · rw [compare_lt_iff_lt.2 h, decide_eq_true h, decide_eq_false h.not_gt]
    exact ⟨rfl, rfl, rfl⟩
  · exact absurd rfl hab
  · rw [compare_gt_iff_gt.2 h, decide_eq_true h, decide_eq_false h.not_gt]
    exact ⟨rfl, rfl, rfl⟩

/-- Integers are found equal if they are rounded to one double, and only then. -/
theorem compare_int_eq_iff (ha : FitsWord a) (hb : FitsWord b) :
    compare .eq (int a) (int b) = .ok (bool true) ↔ ofInt a = ofInt b := by
  constructor
  · intro heq
    by_contra hne
    rw [(compare_int ha hb hne).1] at heq
    cases heq
  · intro hsame
    have horder : order? (int a) (int b) = some .eq := by
      have hself : order? (int b) (int b) = some (Ord.compare (intRank b) (intRank b)) :=
        floatOrder_intRank hb hb
      rw [← compare_eq_iff_eq.2 (rfl : intRank b = intRank b), ← hself]
      exact congrArg (floatOrder · (ofInt b)) hsame
    rw [compare, horder]
    rfl

end Value

/-- Integers of which no two are rounded to one double are told apart when they are counted. -/
theorem injOn_member {values : Set Value} (hint : ∀ u ∈ values, ∃ n, FitsWord n ∧ u = .int n)
    (hdoubles : ∀ a b, .int a ∈ values → .int b ∈ values → ofInt a = ofInt b → a = b) :
    values.InjOn Value.member := by
  intro u hu v hv h
  obtain ⟨a, ha, rfl⟩ := hint u hu
  obtain ⟨b, hb, rfl⟩ := hint v hv
  rw [hdoubles a b hu hv ((Value.pathText?_int_eq_iff ha hb).1 (congrArg some h))]

/-- **Integers are kept apart if they are not rounded to one double**, which does not happen up to
`2 ^ 53`. They are found equal, and have one text, just if they are; otherwise they are compared as
integers. Whatever a host serves, the value of a slot that counts distinct values is null, or it is
the number of distinct integers that have been seen to be counted for the slot in the group of the
last call, if nothing was counted there before. And a template that takes a name makes different
paths of two integers for it. -/
theorem integers_kept_apart (loader : Loader) (h : Host) (steps : List (String × Host.Command))
    (a b : Int) (ha : FitsWord a) (hb : FitsWord b) :
    (a.natAbs ≤ 2 ^ 53 → b.natAbs ≤ 2 ^ 53 → a ≠ b → ofInt a ≠ ofInt b) ∧
    (Value.compare .eq (.int a) (.int b) = .ok (.bool true) ↔ ofInt a = ofInt b) ∧
    (Value.pathText? (.int a) = Value.pathText? (.int b) ↔ ofInt a = ofInt b) ∧
    (ofInt a ≠ ofInt b →
      Value.compare .eq (.int a) (.int b) = .ok (.bool false) ∧
      Value.compare .lt (.int a) (.int b) = .ok (.bool (a < b)) ∧
      Value.compare .gt (.int a) (.int b) = .ok (.bool (b < a))) ∧
    (∀ (before after : List Sight) (scope : Scope) (slot : String) (rank : Rank)
        (definition : Definition) (args groups : List Expr) (v : Value),
      h.watch loader steps = before ++ .ends (.definition scope slot rank definition) v :: after →
      definition.expr = .call Function.countUnique.name args groups → v ≠ .null →
      ∃ earlier frames u gs, before = earlier ++ [.acts frames (.call slot (.countUnique u gs))] ∧
        (h.engine.store.entry? (.ofCall Function.countUnique.name slot gs) = none →
          Sight.GroupedByJson before →
          (∀ u ∈ Sight.counted before slot gs, ∃ i, FitsWord i ∧ u = .int i) →
          (∀ i j, .int i ∈ Sight.counted before slot gs → .int j ∈ Sight.counted before slot gs →
            ofInt i = ofInt j → i = j) →
          v = .int (Sight.counted before slot gs).ncard)) ∧
    (ofInt a ≠ ofInt b → ∀ (site : Site) (n : String) (bound bound' : String → Option Value)
        (path path' : String),
      n ∈ site.template.inputs → bound n = some (.int a) → bound' n = some (.int b) →
      (∀ m ≠ n, bound' m = bound m) → Engine.render site bound = .ok path →
      Engine.render site bound' = .ok path' → path ≠ path') := by
  refine ⟨fun hle hle' hne heq => hne (ofInt_inj hle hle' heq), Value.compare_int_eq_iff ha hb,
    Value.pathText?_int_eq_iff ha hb, Value.compare_int ha hb, ?_, fun hne => ?_⟩
  · intro before after scope slot rank definition args groups v hlog hexpr hv
    obtain ⟨earlier, frames, u, gs, hbefore, hcount⟩ :=
      (h.accounted_watch loader steps).told hlog _ _ _ _ _ _ rfl hexpr hv
    refine ⟨earlier, frames, u, gs, hbefore, fun hnew hjson hint hdoubles => ?_⟩
    have hlast : .acts frames (.call slot (.countUnique u gs)) ∈ before := by simp [hbefore]
    have hgs : ∀ g ∈ gs, g.Finite := hjson hlast
    rw [hcount, Store.countMembers_replay hnew hjson hgs,
      (injOn_member hint hdoubles).ncard_image]
  · rintro site n bound bound' path _ hn hv hv' hsame hpath hpath' rfl
    obtain ⟨_, _, hx, -⟩ := ofFloat_ofInt ha
    obtain ⟨_, _, hy, -⟩ := ofFloat_ofInt hb
    have htext := Engine.render_inj hn hv hv' hsame rfl rfl
      (by rw [sourceText, String.toList_ofList]; exact isComponent_sourceChars hx)
      (by rw [sourceText, String.toList_ofList]; exact isComponent_sourceChars hy) hpath hpath'
    exact hne ((Value.pathText?_int_eq_iff ha hb).1 (congrArg some htext))

/-- A page that counts its visitors, and the module of a visitor beside it. -/
def visitedPage : Loader :=
  (Bundle.ofList [
    ("main", "LET Visitors := count_unique(Id BY Page); INCLUDE \"users/${Id}\";")]).loader

/-- Visitors come to the page one after the other. -/
def visiting (g : Graph) (ids : List Int) : List (String × Host.Command) :=
  ids.flatMap fun id => [
    ("visit", .start g (.ofList [("Id", .int id), ("Page", .string "home")])),
    ("visit", .fetch 20 "Visitors")]

/-- Whether the definition that counts visitors gives a value. -/
def Sight.givesVisitors (v : Value) : Sight → Bool
  | ends (.definition _ slot _ d) u =>
    slot = "Visitors" && u = v &&
      d.expr = .call Function.countUnique.name [.name "Id"] [.name "Page"]
  | _ => false

/-- Whether nothing but one of some integers is counted, and that for the page. -/
def Sight.countsVisitors (ids : List Int) : Sight → Bool
  | acts _ (.call _ (.countUnique (.int n) gs)) => ids.contains n && gs = [.string "home"]
  | acts _ (.call _ _) => false
  | _ => true

theorem Sight.eq_of_givesVisitors {v : Value} {sight : Sight} (h : sight.givesVisitors v = true) :
    ∃ scope rank definition, sight = .ends (.definition scope "Visitors" rank definition) v ∧
      definition.expr = .call Function.countUnique.name [.name "Id"] [.name "Page"] := by
  unfold givesVisitors at h
  split at h
  · rename_i scope slot rank definition u
    simp only [Bool.and_eq_true, decide_eq_true_eq] at h
    obtain ⟨⟨rfl, rfl⟩, hexpr⟩ := h
    exact ⟨scope, rank, definition, rfl, hexpr⟩
  · cases h

theorem Sight.eq_of_countsVisitors {ids : List Int} {frames : List Frame} {slot : String}
    {c : StatefulCall} (h : (acts frames (.call slot c)).countsVisitors ids = true) :
    ∃ n ∈ ids, c = .countUnique (.int n) [.string "home"] := by
  unfold countsVisitors at h
  split at h
  · rename_i n gs hacts
    cases hacts
    simp only [Bool.and_eq_true, List.contains_iff_mem, decide_eq_true_eq] at h
    obtain ⟨hn, rfl⟩ := h
    exact ⟨n, hn, rfl⟩
  · cases h
  · rename_i hother
    exact absurd rfl (hother _ _ _)

theorem Sight.counted_visitors {ids : List Int} {log : List Sight}
    (h : ∀ sight ∈ log, sight.countsVisitors ids = true) :
    GroupedByJson log ∧ ∀ slot gs, ∀ u ∈ counted log slot gs, ∃ n ∈ ids, u = .int n := by
  constructor
  · intro frames slot c hcall g hg
    obtain ⟨n, -, rfl⟩ := eq_of_countsVisitors (h _ hcall)
    obtain rfl := List.mem_singleton.1 hg
    exact .string _
  · rintro slot gs u ⟨frames, hcall⟩
    obtain ⟨n, hn, hcount⟩ := eq_of_countsVisitors (h _ hcall)
    cases hcount
    exact ⟨n, hn, rfl⟩

/-- The module of every visitor has a path. -/
theorem exists_render_visited {site : Site}
    (htemplate : site.template = ⟨[.literal "users/", .input "Id"]⟩) (id : Int) :
    ∃ path, Engine.render site (Table.ofList [("Id", .int id)]).get? = .ok path := by
  rw [Engine.render, htemplate]
  exact ⟨_, rfl⟩

theorem visitors_kept_apart : ∃ c, visitedPage.compile "main" = .ok c ∧
    (∃ before after scope rank definition gs,
      (Host.idle .start).watch visitedPage (visiting c.graph [7, 9007199254740991, 7]) =
        before ++ .ends (.definition scope "Visitors" rank definition) (.int 2) :: after ∧
      (Sight.counted before "Visitors" gs).ncard = 2) ∧
    Value.compare .lt (.int 9007199254740991) (.int 9007199254740992) = .ok (.bool true) ∧
    ∃ site ∈ c.graph.sites, ∃ path path',
      Engine.render site (Table.ofList [("Id", .int 9007199254740991)]).get? = .ok path ∧
      Engine.render site (Table.ofList [("Id", .int 9007199254740992)]).get? = .ok path' ∧
      path ≠ path' := by
  have heval : (visitedPage.compile "main").toOption.map (fun c =>
      let log := (Host.idle .start).watch visitedPage (visiting c.graph [7, 9007199254740991, 7])
      (log.any (Sight.givesVisitors (.int 2)),
        log.all (Sight.countsVisitors [7, 9007199254740991]),
        c.graph.sites.map fun site => site.template)) =
      some (true, true, [⟨[.literal "users/", .input "Id"]⟩]) := by
    decide +kernel
  obtain ⟨c, hc, heval⟩ := exists_ok_of_map heval
  simp only [Prod.mk.injEq] at heval
  obtain ⟨hgives, hcounts, hsites⟩ := heval
  have hbound : ∀ n ∈ [(7 : Int), 9007199254740991], n.natAbs ≤ 2 ^ 53 := by decide
  have hfits : ∀ {n : Int}, n.natAbs ≤ 2 ^ 53 → FitsWord n := fun hn => ⟨by omega, by omega⟩
  obtain ⟨hdoubles, -, -, hcompare, htally, hrender⟩ :=
    integers_kept_apart visitedPage (.idle .start) (visiting c.graph [7, 9007199254740991, 7])
      9007199254740991 9007199254740992 (hfits (by decide)) (hfits (by decide))
  have hlast := hdoubles (by decide) (by decide) (by decide)
  refine ⟨c, hc, ?_, (hcompare hlast).2.1, ?_⟩
  · obtain ⟨sight, hsight, hgives⟩ := List.any_eq_true.1 hgives
    obtain ⟨scope, rank, definition, rfl, hexpr⟩ := Sight.eq_of_givesVisitors hgives
    obtain ⟨before, after, hlog⟩ := List.append_of_mem hsight
    have hbefore : ∀ sight ∈ before, sight.countsVisitors [7, 9007199254740991] = true :=
      fun sight hsight =>
        List.all_eq_true.1 hcounts sight (hlog ▸ List.mem_append_left _ hsight)
    obtain ⟨hjson, hcounted⟩ := Sight.counted_visitors hbefore
    obtain ⟨-, -, -, gs, -, hcount⟩ :=
      htally before after scope _ rank definition _ _ _ hlog hexpr (by decide)
    refine ⟨before, after, scope, rank, definition, gs, hlog, ?_⟩
    have htwo := hcount rfl hjson ?_ ?_
    · exact_mod_cast (Value.int.inj htwo).symm
    · intro u hu
      obtain ⟨n, hn, rfl⟩ := hcounted _ _ u hu
      exact ⟨n, hfits (hbound n hn), rfl⟩
    · intro i j hi hj hsame
      obtain ⟨_, hn, heq⟩ := hcounted _ _ _ hi
      obtain ⟨_, hm, heq'⟩ := hcounted _ _ _ hj
      cases heq
      cases heq'
      exact ofInt_inj (hbound _ hn) (hbound _ hm) hsame
  · obtain ⟨site, hsite, htemplate⟩ := List.map_eq_singleton_iff.1 hsites
    have hget : ∀ (id : Int) (m : String), m ≠ "Id" →
        (Table.ofList [("Id", Value.int id)]).get? m = none := fun id m hm =>
      (Table.get?_insert_of_ne .empty _ hm).trans (Table.get?_empty m)
    obtain ⟨path, hpath⟩ := exists_render_visited htemplate 9007199254740991
    obtain ⟨path', hpath'⟩ := exists_render_visited htemplate 9007199254740992
    refine ⟨site, by simp [hsite], path, path', hpath, hpath', ?_⟩
    refine hrender hlast site "Id" _ _ path path' ?_ rfl rfl
      (fun m hm => by rw [hget _ m hm, hget _ m hm]) hpath hpath'
    rw [htemplate]
    decide

/-- The value that a host answers, if it answers with one. -/
def Host.Reply.value? : Reply → Option Value
  | value (.ok v) => some v
  | _ => none

/-- Beyond `2 ^ 53` two integers may be taken for one another: they are found equal and have one
text, so they are counted once and lead to one path. -/
theorem integers_taken_for_one_another :
    let a : Int := 9007199254740993
    let b : Int := 9007199254740992
    a ≠ b ∧ FitsWord a ∧ FitsWord b ∧
      Value.compare .eq (.int a) (.int b) = .ok (.bool true) ∧
      Value.compare .gt (.int a) (.int b) = .ok (.bool false) ∧
      Value.pathText? (.int a) = Value.pathText? (.int b) ∧
      ∃ c, visitedPage.compile "main" = .ok c ∧
        ((Host.idle .start).answers visitedPage "visit" (visiting c.graph [a, b])).filterMap
          Host.Reply.value? = [.int 1, .int 1] ∧
        c.graph.sites.map (fun site =>
          (Engine.render site (Table.ofList [("Id", .int a)]).get?).toOption) =
            [some "users/9007199254740992"] ∧
        c.graph.sites.map (fun site =>
          (Engine.render site (Table.ofList [("Id", .int b)]).get?).toOption) =
            [some "users/9007199254740992"] := by
  intro a b
  have heq : (Value.compare .eq (.int a) (.int b)).toOption = some (.bool true) := by
    decide +kernel
  have hgt : (Value.compare .gt (.int a) (.int b)).toOption = some (.bool false) := by
    decide +kernel
  have heval : (visitedPage.compile "main").toOption.map (fun c =>
      (((Host.idle .start).answers visitedPage "visit" (visiting c.graph [a, b])).filterMap
          Host.Reply.value?,
        c.graph.sites.map fun site =>
          (Engine.render site (Table.ofList [("Id", .int a)]).get?).toOption,
        c.graph.sites.map fun site =>
          (Engine.render site (Table.ofList [("Id", .int b)]).get?).toOption)) =
      some ([.int 1, .int 1], [some "users/9007199254740992"],
        [some "users/9007199254740992"]) := by
    decide +kernel
  obtain ⟨c, hc, heval⟩ := exists_ok_of_map heval
  simp only [Prod.mk.injEq] at heval
  exact ⟨by decide, ⟨by decide, by decide⟩, ⟨by decide, by decide⟩, eq_ok_of_toOption heq,
    eq_ok_of_toOption hgt, by decide +kernel, c, hc, heval⟩

end GatedRules
