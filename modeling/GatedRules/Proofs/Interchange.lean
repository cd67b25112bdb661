import GatedRules.Module.Json
import GatedRules.Proofs.GateSlots
import GatedRules.Proofs.Notation

/-!
# Statements read back from JSON

Statements are written as JSON values, and what is written is read as the same statements, also when
the fields of objects come back in another order (`Statement.ofJsonList?_of_reorders`). This is an
induction on expressions. Every form has a tag of its own, and below a tag every field has a key of
its own, so nothing that a name or a text spells can be taken for anything else; a constant is known
by the sort of its JSON value, which no two kinds of constants share (`Literal.ofJson?_of_perm`).

Statements whose numbers are finite have JSON values whose numbers are. So whatever writes such
values as texts and reads them back serves to store modules (`Statement.reads_back`).
-/

namespace GatedRules

/-! ### The order of fields -/

namespace Value

/-- Two values are the same but for the order of fields. -/
inductive Reorders : Value → Value → Prop
  /-- Null. -/
  | null : Reorders .null .null
  /-- The same truth value. -/
  | bool (b : Bool) : Reorders (.bool b) (.bool b)
  /-- The same integer. -/
  | int (n : Int) : Reorders (.int n) (.int n)
  /-- The same float. -/
  | float (x : Float) : Reorders (.float x) (.float x)
  /-- The same text. -/
  | string (s : String) : Reorders (.string s) (.string s)
  /-- Sequences of such values. -/
  | array {items items' : List Value} :
    List.Forall₂ Reorders items items' → Reorders (.array items) (.array items')
  /-- Such values under the same keys, which come in any order. -/
  | object {fields inner fields' : List (String × Value)} :
    fields.map Prod.fst = inner.map Prod.fst →
    List.Forall₂ Reorders (fields.map Prod.snd) (inner.map Prod.snd) →
    inner.Perm fields' → Reorders (.object fields) (.object fields')

variable {v w : Value} {key : String} {fields fields' : List (String × Value)}

/-- Fields that differ only in their values are found under the same keys. -/
theorem field?_of_forall₂ (hkeys : fields.map Prod.fst = fields'.map Prod.fst)
    (hvalues : List.Forall₂ Reorders (fields.map Prod.snd) (fields'.map Prod.snd))
    (h : (Value.object fields).field? key = some v) :
    ∃ v', (Value.object fields').field? key = some v' ∧ v.Reorders v' := by
  induction fields generalizing fields' with
  | nil => cases h
  | cons f fields ih =>
    cases fields' with
    | nil => cases hkeys
    | cons f' fields' =>
      obtain ⟨hkey, hkeys⟩ := List.cons.inj hkeys
      obtain ⟨hvalue, hvalues⟩ := List.forall₂_cons.1 hvalues
      by_cases hf : f.1 = key
      · have hv : f.2 = v := by simpa [field?, hf] using h
        exact ⟨f'.2, by simp [field?, ← hkey, hf], hv ▸ hvalue⟩
      · have hrest : (Value.object fields).field? key = some v := by simpa [field?, hf] using h
        obtain ⟨v', hv', hr⟩ := ih hkeys hvalues hrest
        exact ⟨v', by simpa [field?, ← hkey, hf] using hv', hr⟩

/-- A field is found in any order of fields. -/
theorem field?_of_perm (h : fields.Perm fields') (hnodup : (fields.map Prod.fst).Nodup)
    (key : String) : (Value.object fields').field? key = (Value.object fields).field? key := by
  have hnodup' : (fields'.map Prod.fst).Nodup := (h.map Prod.fst).nodup_iff.1 hnodup
  change Table.get? ⟨fields', hnodup'⟩ key = Table.get? ⟨fields, hnodup⟩ key
  ext v
  rw [Table.get?_eq_some_iff, Table.get?_eq_some_iff]
  exact h.mem_iff.symm

/-- What is under a key stays there. -/
theorem Reorders.under (h : (Value.object fields).Reorders w)
    (hnodup : (fields.map Prod.fst).Nodup) (key : String) (v : Value)
    (hv : (Value.object fields).field? key = some v) :
    ∃ v', w.field? key = some v' ∧ v.Reorders v' := by
  cases h with
  | object hkeys hvalues hperm =>
    rw [hkeys] at hnodup
    obtain ⟨v', hv', hr⟩ := field?_of_forall₂ hkeys hvalues hv
    rw [← field?_of_perm hperm hnodup] at hv'
    exact ⟨v', hv', hr⟩

theorem Reorders.eq_string {s : String} (h : (Value.string s).Reorders w) : w = .string s := by
  cases h
  rfl

theorem Reorders.eq_array {items : List Value} (h : (Value.array items).Reorders w) :
    ∃ items', w = .array items' ∧ List.Forall₂ Reorders items items' := by
  cases h with
  | array hitems => exact ⟨_, rfl, hitems⟩

theorem nat?_natCast (n : Nat) : (Value.int n).nat? = some n :=
  rfl

/-- A value under a tag stays there. -/
theorem Reorders.tagged {tag : String} {body : Value} (h : (tagged tag body).Reorders v) :
    ∃ body', v = .object [(tag, body')] ∧ body.Reorders body' := by
  cases h with
  | @object _ inner fields' hkeys hvalues hperm =>
    rcases inner with _ | ⟨⟨key, body'⟩, _ | _⟩
    · cases hkeys
    · obtain rfl : tag = key := by simpa using hkeys
      obtain rfl := List.singleton_perm.1 hperm
      exact ⟨body', rfl, (List.forall₂_cons.1 hvalues).1⟩
    · simp at hkeys

end Value

/-! ### Constants and operators -/

/-- The readers of constants, one for each kind. -/
def Literal.readers : List (Value → Option Literal) :=
  [fun v => if v.isNull then some null else none,
    fun v => v.bool?.map bool,
    fun v => v.toFloat?.map number,
    fun v => v.string?.map string]

/-- No kind of constants is read in the place of another: the readers may be tried in any order. -/
theorem Literal.ofJson?_of_perm {order : List (Value → Option Literal)}
    (h : order.Perm readers) (v : Value) : order.findSome? (fun read => read v) = ofJson? v := by
  have hreaders : (∀ read ∈ readers, read v = none ∨ read v = ofJson? v) ∧
      ∃ read ∈ readers, read v = ofJson? v := by
    cases v <;> simp [readers, ofJson?, Value.isNull, Value.bool?, Value.toFloat?, Value.string?]
  obtain ⟨hevery, read, hread, heq⟩ := hreaders
  cases hfirst : order.findSome? (fun read => read v) with
  | some l =>
    obtain ⟨read', hmem, hl⟩ := List.exists_of_findSome?_eq_some hfirst
    obtain hnone | heq' := hevery read' (h.mem_iff.1 hmem)
    · rw [hl] at hnone
      cases hnone
    · rw [← hl, heq']
  | none =>
    rw [← heq]
    exact (List.findSome?_eq_none_iff.1 hfirst read (h.mem_iff.2 hread)).symm

theorem Literal.ofJson?_of_reorders {l : Literal} {v : Value} (h : l.toJson.Reorders v) :
    ofJson? v = some l := by
  cases l <;> cases h <;> rfl

theorem UnaryOp.ofTag?_tag (op : UnaryOp) : ofTag? op.tag = some op := by
  cases op <;> decide

theorem BinaryOp.ofTag?_tag (op : BinaryOp) : ofTag? op.tag = some op := by
  cases op <;> decide

/-! ### Expressions -/

namespace Expr

open Value

/-- The JSON value of an expression is not null, which stands for a condition that is not there. -/
theorem exists_tagged (e : Expr) : ∃ tag body, e.toJson = tagged tag body := by
  cases e <;> exact ⟨_, _, by rw [toJson]⟩

theorem ofField?_of_field? {key : String} {body v : Value} (h : body.field? key = some v) :
    ofField? key body = ofJson? v := by
  rw [ofField?]
  split
  · rename_i hnone
    rw [h] at hnone
    cases hnone
  · rename_i w hw
    rw [h] at hw
    cases hw
    rfl

theorem ofItems?_of_field? {key : String} {body : Value} {items : List Value}
    (h : body.field? key = some (.array items)) : ofItems? key body = ofJsonAll? items := by
  rw [ofItems?]
  split
  · rename_i hnone
    rw [h] at hnone
    cases hnone
  · rename_i w hw
    rw [h] at hw
    cases hw
    rfl

mutual

/-- **An expression reads back** from its JSON value, in any order of fields. -/
theorem ofJson?_of_reorders : ∀ {e : Expr} {v : Value}, e.toJson.Reorders v → ofJson? v = some e
  | literal l, _, h => by
    obtain ⟨body, rfl, hbody⟩ := Reorders.tagged h
    rw [ofJson?, if_pos rfl, Literal.ofJson?_of_reorders hbody]
    rfl
  | name n, _, h => by
    obtain ⟨body, rfl, hbody⟩ := Reorders.tagged h
    obtain rfl := hbody.eq_string
    rw [ofJson?, if_neg (by decide), if_pos rfl]
    rfl
  | unary op e, _, h => by
    obtain ⟨body, rfl, hbody⟩ := Reorders.tagged h
    have hfields := hbody.under (by simp)
    obtain ⟨_, hop, hr⟩ := hfields "op" (.string op.tag) rfl
    obtain rfl := hr.eq_string
    obtain ⟨_, he, hr⟩ := hfields "expr" e.toJson rfl
    rw [ofJson?, if_neg (by decide), if_neg (by decide), if_pos rfl, hop,
      ofField?_of_field? he, ofJson?_of_reorders hr]
    simp [string?, UnaryOp.ofTag?_tag]
  | binary op l r, _, h => by
    obtain ⟨body, rfl, hbody⟩ := Reorders.tagged h
    have hfields := hbody.under (by simp)
    obtain ⟨_, hop, hr⟩ := hfields "op" (.string op.tag) rfl
    obtain rfl := hr.eq_string
    obtain ⟨_, hleft, hl⟩ := hfields "left" l.toJson rfl
    obtain ⟨_, hright, hr⟩ := hfields "right" r.toJson rfl
    rw [ofJson?, if_neg (by decide), if_neg (by decide), if_neg (by decide), if_pos rfl, hop,
      ofField?_of_field? hleft, ofField?_of_field? hright, ofJson?_of_reorders hl,
      ofJson?_of_reorders hr]
    simp [string?, BinaryOp.ofTag?_tag]
  | isNull e negated, _, h => by
    obtain ⟨body, rfl, hbody⟩ := Reorders.tagged h
    have hfields := hbody.under (by simp)
    obtain ⟨_, hnegated, hr⟩ := hfields "negated" (.bool negated) rfl
    cases hr
    obtain ⟨_, he, hr⟩ := hfields "expr" e.toJson rfl
    rw [ofJson?, if_neg (by decide), if_neg (by decide), if_neg (by decide), if_neg (by decide),
      if_pos rfl, hnegated, ofField?_of_field? he, ofJson?_of_reorders hr]
    rfl
  | call function args groups, _, h => by
    obtain ⟨body, rfl, hbody⟩ := Reorders.tagged h
    have hfields := hbody.under (by simp)
    obtain ⟨_, hfunction, hr⟩ := hfields "func" (.string function) rfl
    obtain rfl := hr.eq_string
    obtain ⟨_, hargs, hr⟩ := hfields "args" (.array (toJsonAll args)) rfl
    obtain ⟨items, rfl, ha⟩ := hr.eq_array
    obtain ⟨_, hgroups, hr⟩ := hfields "by" (.array (toJsonAll groups)) rfl
    obtain ⟨items', rfl, hg⟩ := hr.eq_array
    rw [ofJson?, if_neg (by decide), if_neg (by decide), if_neg (by decide), if_neg (by decide),
      if_neg (by decide), if_pos rfl, hfunction, ofItems?_of_field? hargs,
      ofItems?_of_field? hgroups, ofJsonAll?_of_reorders ha, ofJsonAll?_of_reorders hg]
    rfl

theorem ofJsonAll?_of_reorders : ∀ {es : List Expr} {vs : List Value},
    List.Forall₂ Reorders (toJsonAll es) vs → ofJsonAll? vs = some es
  | [], _, h => by
    obtain rfl := List.forall₂_nil_left_iff.1 h
    rw [ofJsonAll?]
  | e :: es, vs, h => by
    cases h with
    | cons he hes =>
      rw [ofJsonAll?, ofJson?_of_reorders he, ofJsonAll?_of_reorders hes]
      rfl

end

end Expr

/-! ### Statements -/

open Value

theorem Segment.ofJson?_of_reorders {segment : Segment} {v : Value}
    (h : segment.toJson.Reorders v) : ofJson? v = some segment := by
  cases segment with
  | literal text =>
    obtain ⟨body, rfl, hbody⟩ := Reorders.tagged h
    obtain rfl := hbody.eq_string
    rw [ofJson?, if_pos rfl]
  | input name =>
    obtain ⟨body, rfl, hbody⟩ := Reorders.tagged h
    obtain rfl := hbody.eq_string
    rw [ofJson?, if_neg (by decide), if_pos rfl]

/-- Items that read back one by one read back together. -/
theorem mapM_of_forall₂ {α : Type} {write : α → Value} {read : Value → Option α}
    (hread : ∀ {a v}, (write a).Reorders v → read v = some a) {as : List α} {vs : List Value}
    (h : List.Forall₂ Reorders (as.map write) vs) : vs.mapM read = some as := by
  induction as generalizing vs with
  | nil =>
    obtain rfl := List.forall₂_nil_left_iff.1 h
    rfl
  | cons a as ih =>
    cases h with
    | cons ha has => rw [List.mapM_cons, hread ha, ih has]; rfl

theorem Template.ofJson?_of_reorders {t : Template} {v : Value} (h : t.toJson.Reorders v) :
    ofJson? v = some t := by
  obtain ⟨body, rfl, hbody⟩ := Reorders.tagged h
  obtain ⟨items, rfl, hitems⟩ := hbody.eq_array
  have hsegments := mapM_of_forall₂ Segment.ofJson?_of_reorders hitems
  change (do return ⟨← items.mapM Segment.ofJson?⟩ : Option Template) = some t
  rw [hsegments]
  rfl

namespace Statement

theorem ofJson?_of_reorders {s : Statement} {v : Value} (h : s.toJson.Reorders v) :
    ofJson? v = some s := by
  cases s with
  | binding name expr isDefault line =>
    obtain ⟨body, rfl, hbody⟩ := Reorders.tagged h
    have hfields := hbody.under (by simp)
    obtain ⟨_, hname, hr⟩ := hfields "name" (.string name) rfl
    obtain rfl := hr.eq_string
    obtain ⟨_, hexpr, he⟩ := hfields "expr" expr.toJson rfl
    obtain ⟨_, hdefault, hr⟩ := hfields "is_default" (.bool isDefault) rfl
    cases hr
    obtain ⟨_, hline, hr⟩ := hfields "line" (.int line) rfl
    cases hr
    simp [ofJson?, hline, hname, hdefault, Expr.ofField?_of_field? hexpr,
      Expr.ofJson?_of_reorders he, nat?_natCast, string?, bool?]
  | inclusion directive =>
    obtain ⟨target, condition, line⟩ := directive
    obtain ⟨body, rfl, hbody⟩ := Reorders.tagged h
    have hfields := hbody.under (by simp)
    obtain ⟨_, htarget, ht⟩ := hfields "target" target.toJson rfl
    obtain ⟨gate, hgate, hr⟩ :=
      hfields "gate" ((condition.map Expr.toJson).getD .null) rfl
    obtain ⟨_, hline, hl⟩ := hfields "line" (.int line) rfl
    cases hl
    cases condition with
    | none =>
      cases hr
      simp [ofJson?, hline, htarget, hgate, Template.ofJson?_of_reorders ht, nat?_natCast]
    | some e =>
      obtain ⟨tag, body', htagged⟩ := e.exists_tagged
      have he := Expr.ofJson?_of_reorders hr
      rw [Option.map_some, Option.getD_some, htagged] at hr
      obtain ⟨body'', rfl, -⟩ := Reorders.tagged hr
      simp [ofJson?, hline, htarget, hgate, Template.ofJson?_of_reorders ht, nat?_natCast, he]

/-- The JSON value of the statements of a module. -/
def listToJson (ss : List Statement) : Value :=
  .array (ss.map toJson)

/-- The statements of a module from their JSON value. -/
def ofJsonList? (v : Value) : Option (List Statement) :=
  v.items?.bind fun items => items.mapM ofJson?

theorem jsonText_eq (ss : List Statement) : jsonText ss = (listToJson ss).compact :=
  rfl

theorem readJson?_eq (text : String) : readJson? text = (Value.read? text).bind ofJsonList? := by
  unfold readJson? ofJsonList?
  cases Value.read? text with
  | none => rfl
  | some v => cases h : v.items? <;> simp [h]

/-- The statements of a module read back from their JSON value, in any order of fields. -/
theorem ofJsonList?_of_reorders {ss : List Statement} {v : Value}
    (h : (listToJson ss).Reorders v) : ofJsonList? v = some ss := by
  obtain ⟨items, rfl, hitems⟩ := h.eq_array
  exact mapM_of_forall₂ ofJson?_of_reorders hitems

end Statement

/-! ### The order in which fields are read -/

namespace Value

mutual

/-- The value whose fields are in the order of their keys, as the reader of JSON text leaves them.
-/
def sorted : Value → Value
  | array items => array (sortedItems items)
  | object fields => ofFields (sortedFields fields)
  | v => v

/-- The same for a sequence of values. -/
def sortedItems : List Value → List Value
  | [] => []
  | v :: vs => v.sorted :: sortedItems vs

/-- The same for a sequence of fields. -/
def sortedFields : List (String × Value) → List (String × Value)
  | [] => []
  | (k, v) :: fields => (k, v.sorted) :: sortedFields fields

end

/-- No object has two fields of one key. -/
inductive Keyed : Value → Prop
  /-- Null. -/
  | null : Keyed .null
  /-- Truth values. -/
  | bool (b : Bool) : Keyed (.bool b)
  /-- Integers. -/
  | int (n : Int) : Keyed (.int n)
  /-- Floats. -/
  | float (x : Float) : Keyed (.float x)
  /-- Strings. -/
  | string (s : String) : Keyed (.string s)
  /-- Arrays of such values. -/
  | array {items : List Value} : (∀ v ∈ items, v.Keyed) → Keyed (.array items)
  /-- Objects of such values under different keys. -/
  | object {fields : List (String × Value)} : (fields.map Prod.fst).Nodup →
    (∀ f ∈ fields, f.2.Keyed) → Keyed (.object fields)

theorem sortedItems_eq_map (items : List Value) : sortedItems items = items.map sorted := by
  induction items with
  | nil => rfl
  | cons v vs ih => rw [sortedItems, ih, List.map_cons]

theorem sortedFields_eq_map (fields : List (String × Value)) :
    sortedFields fields = fields.map fun f => (f.1, f.2.sorted) := by
  induction fields with
  | nil => rfl
  | cons f fields ih => rw [sortedFields, ih, List.map_cons]

/-- A field of a new key is put among the others. -/
theorem insertField_perm {key : String} (v : Value) {fields : List (String × Value)}
    (h : key ∉ fields.map Prod.fst) : (insertField key v fields).Perm ((key, v) :: fields) := by
  induction fields with
  | nil => exact .refl _
  | cons f fields ih =>
    obtain ⟨hf, hfields⟩ := not_or.1 (mt List.mem_cons.2 h)
    rw [insertField]
    split
    · exact .refl _
    · exact ((ih hfields).cons f).trans (.swap _ _ _)

/-- Fields of different keys are put in order, and none is lost. -/
theorem ofFields_perm {fields : List (String × Value)} (h : (fields.map Prod.fst).Nodup) :
    fields.Perm (fields.foldl (fun sorted f => insertField f.1 f.2 sorted) []) := by
  have hfold : ∀ (fields sorted : List (String × Value)),
      ((fields ++ sorted).map Prod.fst).Nodup →
      (fields ++ sorted).Perm
        (fields.foldl (fun sorted f => insertField f.1 f.2 sorted) sorted) := by
    intro fields
    induction fields with
    | nil => exact fun sorted _ => .refl _
    | cons f fields ih =>
      intro sorted hnodup
      have hmiddle : (f :: (fields ++ sorted)).Perm (fields ++ f :: sorted) :=
        List.perm_middle.symm
      have hnodup' : ((fields ++ f :: sorted).map Prod.fst).Nodup :=
        (hmiddle.map Prod.fst).nodup_iff.1 hnodup
      have hnew : f.1 ∉ sorted.map Prod.fst := by
        intro hmem
        have hmem' : f.1 ∈ (fields ++ sorted).map Prod.fst := by
          rw [List.map_append]
          exact List.mem_append_right _ hmem
        exact (List.nodup_cons.1 hnodup).1 hmem'
      have hinsert := insertField_perm f.2 hnew
      have hperm : (fields ++ f :: sorted).Perm (fields ++ insertField f.1 f.2 sorted) :=
        hinsert.symm.append_left fields
      exact hmiddle.trans (hperm.trans (ih _ ((hperm.map Prod.fst).nodup_iff.1 hnodup')))
  have hall := hfold fields [] (by rwa [List.append_nil])
  rwa [List.append_nil] at hall

theorem Keyed.reorders_refl {v : Value} (h : v.Keyed) : v.Reorders v := by
  induction h with
  | null => exact .null
  | bool b => exact .bool b
  | int n => exact .int n
  | float x => exact .float x
  | string s => exact .string s
  | array _ ih => exact .array (List.forall₂_same.2 ih)
  | object _ _ ih =>
    refine .object rfl ?_ (.refl _)
    rw [List.forall₂_map_left_iff, List.forall₂_map_right_iff]
    exact List.forall₂_same.2 ih

/-- Sorting the fields reorders them. -/
theorem Keyed.reorders_sorted {v : Value} (h : v.Keyed) : v.Reorders v.sorted := by
  induction h with
  | null => exact .null
  | bool b => exact .bool b
  | int n => exact .int n
  | float x => exact .float x
  | string s => exact .string s
  | array _ ih =>
    rw [sorted, sortedItems_eq_map]
    exact .array (List.forall₂_map_right_iff.2 (List.forall₂_same.2 ih))
  | @object fields hnodup _ ih =>
    rw [sorted, sortedFields_eq_map]
    have hkeys : fields.map Prod.fst = (fields.map fun f => (f.1, f.2.sorted)).map Prod.fst := by
      rw [List.map_map]
      rfl
    refine .object hkeys ?_ (ofFields_perm (hkeys ▸ hnodup))
    rw [List.map_map, List.forall₂_map_left_iff, List.forall₂_map_right_iff]
    exact List.forall₂_same.2 ih

end Value

/-! ### What written values are made of -/

/-- A property of values passes to arrays, and to objects with different keys; all values that are
neither nor floats have it. -/
structure Value.Composed (P : Value → Prop) : Prop where
  /-- Null has it. -/
  null : P .null
  /-- Truth values have it. -/
  bool : ∀ b, P (.bool b)
  /-- Integers have it. -/
  int : ∀ n, P (.int n)
  /-- Texts have it. -/
  string : ∀ s, P (.string s)
  /-- It passes to arrays. -/
  array : ∀ {items : List Value}, (∀ v ∈ items, P v) → P (.array items)
  /-- It passes to objects. -/
  object : ∀ {fields : List (String × Value)}, (fields.map Prod.fst).Nodup →
    (∀ f ∈ fields, P f.2) → P (.object fields)

theorem Value.composed_keyed : Composed Keyed :=
  ⟨.null, .bool, .int, .string, .array, .object⟩

theorem Value.composed_finite : Composed Finite :=
  ⟨.null, .bool, .int, .string, .array, fun _ h => .object h⟩

section

variable {P : Value → Prop}

theorem Value.Composed.tagged (hP : Composed P) {tag : String} {body : Value} (h : P body) :
    P (Value.tagged tag body) :=
  hP.object (by simp) (by simpa using h)

namespace Expr

mutual

/-- The JSON value of an expression has the property if its numbers have. -/
theorem composed_toJson (hP : Value.Composed P) : ∀ e : Expr,
    (∀ x, literal (.number x) ∈ e.parts → P (.float x)) → P e.toJson
  | literal l, h => by
    rw [toJson]
    refine hP.tagged ?_
    cases l with
    | null => exact hP.null
    | bool b => exact hP.bool b
    | number x => exact h x (mem_parts_self _)
    | string s => exact hP.string s
  | name n, _ => by
    rw [toJson]
    exact hP.tagged (hP.string n)
  | unary op e, h => by
    rw [toJson]
    have he := composed_toJson hP e fun x hx => h x (by simp [parts, hx])
    exact hP.tagged (hP.object (by simp) (by simp [hP.string, he]))
  | binary op l r, h => by
    rw [toJson]
    have hl := composed_toJson hP l fun x hx => h x (by simp [parts, hx])
    have hr := composed_toJson hP r fun x hx => h x (by simp [parts, hx])
    exact hP.tagged (hP.object (by simp) (by simp [hP.string, hl, hr]))
  | isNull e negated, h => by
    rw [toJson]
    have he := composed_toJson hP e fun x hx => h x (by simp [parts, hx])
    exact hP.tagged (hP.object (by simp) (by simp [hP.bool, he]))
  | call function args groups, h => by
    rw [toJson]
    have hargs := hP.array (composed_toJsonAll hP args fun x hx => h x (by simp [parts, hx]))
    have hgroups := hP.array (composed_toJsonAll hP groups fun x hx => h x (by simp [parts, hx]))
    exact hP.tagged (hP.object (by simp) (by simp [hP.string, hargs, hgroups]))

theorem composed_toJsonAll (hP : Value.Composed P) : ∀ es : List Expr,
    (∀ x, literal (.number x) ∈ partsAll es → P (.float x)) → ∀ v ∈ toJsonAll es, P v
  | [], _ => by simp [toJsonAll]
  | e :: es, h => by
    rw [toJsonAll, List.forall_mem_cons]
    exact ⟨composed_toJson hP e fun x hx => h x (by simp [partsAll, hx]),
      composed_toJsonAll hP es fun x hx => h x (by simp [partsAll, hx])⟩

end

end Expr

namespace Statement

theorem composed_toJson (hP : Value.Composed P) {s : Statement}
    (h : ∀ e ∈ s.expressions, ∀ x, .literal (.number x) ∈ e.parts → P (.float x)) :
    P s.toJson := by
  cases s with
  | binding name expr isDefault line =>
    have he := expr.composed_toJson hP (h expr (by simp [expressions]))
    exact hP.tagged (hP.object (by simp) (by simp [hP.string, hP.bool, hP.int, he]))
  | inclusion directive =>
    obtain ⟨⟨segments⟩, condition, line⟩ := directive
    have htarget : P (Template.toJson ⟨segments⟩) := by
      refine hP.tagged (hP.array fun v hv => ?_)
      obtain ⟨segment, -, rfl⟩ := List.mem_map.1 hv
      cases segment <;> exact hP.tagged (hP.string _)
    have hgate : P ((condition.map Expr.toJson).getD .null) := by
      cases condition with
      | none => exact hP.null
      | some e => exact e.composed_toJson hP (h e (by simp [expressions]))
    exact hP.tagged (hP.object (by simp) (by simp [hP.int, htarget, hgate]))

theorem composed_listToJson (hP : Value.Composed P) {ss : List Statement}
    (h : ∀ s ∈ ss, ∀ e ∈ s.expressions, ∀ x, .literal (.number x) ∈ e.parts → P (.float x)) :
    P (listToJson ss) := by
  refine hP.array fun v hv => ?_
  obtain ⟨s, hs, rfl⟩ := List.mem_map.1 hv
  exact composed_toJson hP (h s hs)

end Statement

end

namespace Statement

theorem keyed_listToJson (ss : List Statement) : (listToJson ss).Keyed :=
  composed_listToJson composed_keyed fun _ _ _ _ x _ => .float x

/-- What is read of a written module, if the fields of objects come in the order of their keys. -/
theorem reorders_sorted (ss : List Statement) :
    (listToJson ss).Reorders (listToJson ss).sorted :=
  (keyed_listToJson ss).reorders_sorted

/-- **Statements read back** from their JSON value, in any order of fields, and no other statements
have a JSON value that differs from it but for the order of fields; constants are read back whatever
kind is tried first. If all numbers are finite, so are those of the JSON value; and whatever then
writes this value as a text and reads it back, but for the order of fields, serves to store the
statements. -/
theorem reads_back (ss : List Statement) :
    (∀ v, (listToJson ss).Reorders v → ofJsonList? v = some ss) ∧
    (∀ ss', (listToJson ss').Reorders (listToJson ss) → ss' = ss) ∧
    (∀ order : List (Value → Option Literal), order.Perm Literal.readers → ∀ v,
      order.findSome? (fun read => read v) = Literal.ofJson? v) ∧
    ((∀ s ∈ ss, ∀ e ∈ s.expressions, e.Finite) → (listToJson ss).Finite ∧
      ∀ (write : Value → String) (read? : String → Option Value),
        ((listToJson ss).Finite →
          ∃ v, read? (write (listToJson ss)) = some v ∧ (listToJson ss).Reorders v) →
        (read? (write (listToJson ss))).bind ofJsonList? = some ss) := by
  have hself : ofJsonList? (listToJson ss) = some ss :=
    ofJsonList?_of_reorders (keyed_listToJson ss).reorders_refl
  refine ⟨fun v h => ofJsonList?_of_reorders h, fun ss' h => ?_,
    fun order h v => Literal.ofJson?_of_perm h v, fun hfinite => ?_⟩
  · have hother := ofJsonList?_of_reorders h
    exact Option.some.inj (hother.symm.trans hself)
  · have hvalue : (listToJson ss).Finite :=
      composed_listToJson composed_finite fun s hs e he x hx => .float (hfinite s hs e he x hx)
    refine ⟨hvalue, fun write read? hjson => ?_⟩
    obtain ⟨v, hv, hr⟩ := hjson hvalue
    rw [hv]
    exact ofJsonList?_of_reorders hr

/-- Statements with names that are spelled like tags, and constants of all kinds. -/
def likeTags : List Statement :=
  [.binding "Literal" (.literal (.string "Call")) false 1,
    .binding "Name" (.literal .null) true 2,
    .binding "Call" (.call "Literal" [.literal (.bool true)] []) false 3,
    .inclusion ⟨⟨[.literal "Input/", .input "Name"]⟩, none, 4⟩,
    .inclusion ⟨.literal "a",
      some (.binary .gt (.call "count" [] [.name "Call"]) (.literal (.number 1.5))), 5⟩]

/-- A module with these statements, read back from its text, with fields in the order of their keys,
and with constants taken for texts first. -/
theorem likeTags_reads_back :
    (parse "main" ("LET Literal := \"Call\";\nLET Name := null DEFAULT;\n" ++
      "LET Call := Literal(true);\nINCLUDE \"Input/${Name}\";\n" ++
      "INCLUDE \"a\" WHERE count(BY Call) > 1.5;")).toOption = some likeTags ∧
    readJson? (jsonText likeTags) = some likeTags ∧
    ofJsonList? (listToJson likeTags).sorted = some likeTags ∧
    Literal.readers.reverse.findSome? (fun read => read .null) = some .null := by
  have hfinite : ∀ s ∈ likeTags, ∀ e ∈ s.expressions, e.Finite := by
    have hnumber : Float.isFinite 1.5 = true := by decide +kernel
    simpa [likeTags, expressions, Expr.Finite, Expr.parts, Expr.partsAll] using hnumber
  have hread : Value.read? (listToJson likeTags).compact = some (listToJson likeTags).sorted := by
    unfold Value.read? Value.compact
    rw [String.toList_ofList]
    decide +kernel
  obtain ⟨hreorders, -, horder, hstored⟩ := reads_back likeTags
  obtain ⟨-, hany⟩ := hstored hfinite
  refine ⟨by decide +kernel, ?_, hreorders _ (reorders_sorted likeTags),
    horder _ (List.reverse_perm _) .null⟩
  rw [readJson?_eq, jsonText_eq]
  exact hany Value.compact Value.read? fun _ => ⟨_, hread, reorders_sorted likeTags⟩

end Statement

end GatedRules
