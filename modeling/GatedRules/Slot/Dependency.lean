import GatedRules.Slot.Definition
import GatedRules.Table

/-!
# Dependencies between slots

A slot depends on the names that its definitions mention and on those that their gates name. Two
questions about this relation are decided here.

* `findCycle` looks for a cycle by a depth-first search in the order of the slots. It answers with
  the first cycle that the search closes: the slots from the repeated one to the end of the current
  path, and the repeated one again.
* `boundNames` is the set of names from which a site may take its target or its gate, directly or
  through other slots. No module that is included at a site can define such a name for the site.
-/

namespace GatedRules

namespace Dependency

/-- The names on which a name depends. A name that is no slot depends on nothing. -/
def successors (slots : Table String Slot) (name : String) : List String :=
  ((slots.get? name).map Slot.dependencies).getD []

/-! ### Cycles -/

/-- Take one name on which the last slot of `path` depends; `below` searches below a slot that is
neither in progress nor finished. -/
def advance (slots : Table String Slot) (path : List String)
    (below : List String → String → Except (List String) (List String)) (done : List String)
    (next : String) : Except (List String) (List String) :=
  if !slots.contains next then .ok done
  else
    match path.idxOf? next with
    | some i => .error (path.drop i ++ [next])
    | none => if done.contains next then .ok done else below done next

/-- Search below a slot, which is entered with the slots of `path` in progress and those of `done`
finished. The answer is the list of finished slots, or the cycle that was met. The number bounds the
length of the path; the number of slots is a bound that is never met. -/
def visit (slots : Table String Slot) :
    Nat → List String → List String → String → Except (List String) (List String)
  | 0, _, done, _ => .ok done
  | n + 1, path, done, name =>
    let path := path ++ [name]
    match (successors slots name).foldlM (advance slots path (visit slots n path)) done with
    | .error cycle => .error cycle
    | .ok done => .ok (name :: done)

/-- The first cycle that a depth-first search in the order of the slots meets. -/
def findCycle (slots : Table String Slot) : Option (List String) :=
  let search := slots.keys.foldlM (fun done name =>
    if done.contains name then .ok done else visit slots slots.size [] done name) []
  match search with
  | .ok _ => none
  | .error cycle => some cycle

/-! ### Names that sites depend on -/

/-- How many names those among a list can still add, that are not among the names seen. -/
def outstanding (slots : Table String Slot) (seen : List String) : List String → Nat
  | [] => 0
  | k :: names =>
    (if seen.contains k then 0 else (successors slots k).length) + outstanding slots seen names

theorem outstanding_cons_le (slots : Table String Slot) (seen names : List String)
    (name : String) : outstanding slots (name :: seen) names ≤ outstanding slots seen names := by
  induction names with
  | nil => exact Nat.le_refl 0
  | cons k names ih =>
    refine Nat.add_le_add ?_ ih
    rw [List.contains_cons]
    cases seen.contains k with
    | true => simp
    | false => split <;> simp

/-- A name that is seen from now on can add nothing any more. -/
theorem outstanding_cons_add_le (slots : Table String Slot) {seen names : List String}
    {name : String} (hn : name ∈ names) (hs : ¬ seen.contains name = true) :
    outstanding slots (name :: seen) names + (successors slots name).length ≤
      outstanding slots seen names := by
  induction names with
  | nil => cases hn
  | cons k names ih =>
    have hle := outstanding_cons_le slots seen names name
    rw [outstanding, outstanding]
    by_cases hk : k = name
    · subst hk
      rw [if_pos (by simp), if_neg hs]
      omega
    · have hrest := ih ((List.mem_cons.1 hn).resolve_left (Ne.symm hk))
      have hsame : (name :: seen).contains k = seen.contains k := by simp [hk]
      rw [hsame]
      omega

/-- Add to the names seen those that are pending and all on which they depend. -/
def close (slots : Table String Slot) : List String → List String → List String
  | [], seen => seen
  | name :: pending, seen =>
    if seen.contains name then close slots pending seen
    else
      match _h : slots.get? name with
      | none => close slots pending (name :: seen)
      | some slot => close slots (slot.dependencies ++ pending) (name :: seen)
termination_by pending seen => pending.length + outstanding slots seen slots.keys
decreasing_by
  · simp
  · have hle := outstanding_cons_le slots seen slots.keys name
    simp only [List.length_cons]
    omega
  · have hname : name ∈ slots.keys := by rw [← Table.isSome_get?_iff, _h]; rfl
    have hdependencies : successors slots name = slot.dependencies := by rw [successors, _h]; rfl
    have hle := outstanding_cons_add_le slots hname ‹¬seen.contains name = true›
    rw [hdependencies] at hle
    simp only [List.length_cons, List.length_append]
    omega

/-- The names on which sites depend, directly or through other slots. -/
def boundNames (slots : Table String Slot) (sites : List Site) : List String :=
  close slots (sites.flatMap Site.dependencies) []

end Dependency

end GatedRules
