import GatedRules.Proofs.Directories
import GatedRules.Proofs.MissingModules
import GatedRules.Proofs.Nesting
import Mathlib.Data.List.TakeWhile

/-!
# Normal forms of paths

The canonical spelling of a path is made of the components of the path. It has the same components
again, unless trimming cuts something off: blank characters count at the ends of the whole path
only, and if empty components or components `.` stand there, they are dropped after that. So the
canonical spelling is its own canonical spelling exactly if its outer components have no blank
characters outside (`Path.canonical_canonical_iff`).

For the paths of which this is true, the key under which a module is known to walks and to
executions is the one under which a bundle holds it (`keys_of_trimmed_paths`). The path `/ a` is
none of them (`blank_key_is_lost`): its module is known as ` a`, and asking for ` a` is asking
for `a`.
-/

namespace GatedRules

/-! ### Texts that are trimmed -/

namespace Text

/-- A text neither begins nor ends with a blank character. -/
def IsTrimmed (cs : List Char) : Prop :=
  (∀ c ∈ cs.head?, isBlank c = false) ∧ ∀ c ∈ cs.getLast?, isBlank c = false

theorem trim_sublist (cs : List Char) : (trim cs).Sublist cs := by
  have hends : (trim cs).reverse.Sublist (cs.dropWhile isBlank).reverse := by
    rw [trim, List.reverse_reverse]
    exact List.dropWhile_sublist _
  exact (List.reverse_sublist.1 hends).trans (List.dropWhile_sublist _)

theorem dropWhile_eq_self_iff_head? {p : Char → Bool} {cs : List Char} :
    cs.dropWhile p = cs ↔ ∀ c ∈ cs.head?, p c = false := by
  rw [List.dropWhile_eq_self_iff]
  cases cs <;> simp

/-- Trimming changes nothing if there is nothing to trim, and only then. -/
theorem trim_eq_self_iff {cs : List Char} : trim cs = cs ↔ IsTrimmed cs := by
  have hbegins : trim cs = cs → cs.dropWhile isBlank = cs := by
    intro h
    have hlength : cs.length ≤ (cs.dropWhile isBlank).length := by
      calc cs.length = (trim cs).length := by rw [h]
        _ ≤ (cs.dropWhile isBlank).reverse.length := by
          rw [trim, List.length_reverse]
          exact (List.dropWhile_sublist _).length_le
        _ = (cs.dropWhile isBlank).length := List.length_reverse
    exact (List.dropWhile_sublist _).eq_of_length_le hlength
  rw [IsTrimmed, ← dropWhile_eq_self_iff_head?, ← List.head?_reverse, ← dropWhile_eq_self_iff_head?]
  constructor
  · intro h
    refine ⟨hbegins h, ?_⟩
    rw [trim, hbegins h] at h
    exact List.reverse_eq_iff.1 h
  · rintro ⟨hbegin, hend⟩
    rw [trim, hbegin, hend, List.reverse_reverse]

theorem length_joined_append (separator cs ds : List Char) (texts : List (List Char)) :
    (joined separator ((cs ++ ds) :: texts)).length =
      cs.length + (joined separator (ds :: texts)).length := by
  cases texts with
  | nil => simp [joined]
  | cons es texts => simp [joined]

theorem split_ne_nil (p : Char → Bool) (cs : List Char) : split p cs ≠ [] := by
  cases cs with
  | nil => exact List.cons_ne_nil _ _
  | cons c cs =>
    rw [split]
    split
    · exact List.cons_ne_nil _ _
    · split <;> exact List.cons_ne_nil _ _

/-- The pieces of a text, joined again, are as long as the text. -/
theorem length_joined_split (separator : Char) (p : Char → Bool) (cs : List Char) :
    (joined [separator] (split p cs)).length = cs.length := by
  induction cs with
  | nil => rfl
  | cons c cs ih =>
    rw [split]
    split
    · cases hs : split p cs with
      | nil => exact absurd hs (split_ne_nil p cs)
      | cons piece rest =>
        rw [hs] at ih
        simp [joined, ih]
    · split
      · rename_i hs
        exact absurd hs (split_ne_nil p cs)
      · rename_i piece rest hs
        rw [hs] at ih
        have hlength := length_joined_append [separator] [c] piece rest
        rw [List.length_singleton, ih] at hlength
        simpa [Nat.add_comm] using hlength

/-- Leaving texts out makes the whole no longer. -/
theorem length_joined_le {separator : List Char} {texts texts' : List (List Char)}
    (h : texts.Sublist texts') :
    (joined separator texts).length ≤ (joined separator texts').length := by
  have hcons : ∀ (cs : List Char) (texts : List (List Char)),
      (joined separator texts).length ≤ (joined separator (cs :: texts)).length := by
    intro cs texts
    cases texts with
    | nil => simp [joined]
    | cons ds texts => simp only [joined, List.length_append]; omega
  induction h with
  | slnil => exact Nat.le_refl _
  | cons cs _ ih => exact ih.trans (hcons cs _)
  | @cons_cons texts texts' cs h ih =>
    cases texts with
    | nil => cases texts' <;> simp [joined]
    | cons ds texts =>
      cases texts' with
      | nil => cases h
      | cons es texts' =>
        simp only [joined, List.length_append] at ih ⊢
        omega

end Text

/-! ### Paths that are normal -/

namespace Path

open Text

theorem length_canonicalChars_le (cs : List Char) :
    (canonicalChars cs).length ≤ (trim cs).length :=
  (length_joined_le List.filter_sublist).trans_eq (length_joined_split '/' isSlash (trim cs))

/-- A component holds something other than a slash. -/
theorem of_mem_components {cs piece : List Char} (h : piece ∈ components cs) :
    piece ≠ [] ∧ piece ≠ ['.'] ∧ ∀ c ∈ piece, isSlash c = false := by
  obtain ⟨hpiece, hcounts⟩ := List.mem_filter.1 h
  obtain ⟨hne, hdot⟩ : piece ≠ [] ∧ piece ≠ ['.'] := by simpa using hcounts
  refine ⟨hne, hdot, fun c hc => Bool.eq_false_iff.2 fun hslash => ?_⟩
  exact not_mem_of_mem_split hpiece hslash hc

/-- A spelling that is trimmed already has the components of which it is made. -/
theorem components_canonicalChars {cs : List Char}
    (h : trim (canonicalChars cs) = canonicalChars cs) :
    components (canonicalChars cs) = components cs := by
  have hpieces : split isSlash (canonicalChars cs) =
      if components cs = [] then [[]] else components cs := by
    split
    · rename_i hnone
      rw [canonicalChars, hnone]
      rfl
    · rename_i hsome
      have hslash : isSlash '/' = true := rfl
      exact split_joined hslash hsome fun piece hpiece => (of_mem_components hpiece).2.2
  rw [components, h, hpieces]
  split
  · rename_i hnone
    rw [hnone]
    rfl
  · refine List.filter_eq_self.2 fun piece hpiece => ?_
    obtain ⟨hne, hdot, -⟩ := of_mem_components hpiece
    simp [hne, hdot]

/-- A spelling is canonical for itself if it is trimmed, and only then. -/
theorem canonicalChars_canonicalChars_iff {cs : List Char} :
    canonicalChars (canonicalChars cs) = canonicalChars cs ↔ IsTrimmed (canonicalChars cs) := by
  rw [← trim_eq_self_iff]
  constructor
  · intro h
    have hlength := length_canonicalChars_le (canonicalChars cs)
    rw [h] at hlength
    exact (trim_sublist _).eq_of_length_le hlength
  · intro h
    rw [canonicalChars, components_canonicalChars h, ← canonicalChars]

theorem head?_joined {separator piece : List Char} {texts : List (List Char)} (h : piece ≠ []) :
    (joined separator (piece :: texts)).head? = piece.head? := by
  obtain ⟨c, cs, rfl⟩ := List.exists_cons_of_ne_nil h
  cases texts <;> rfl

theorem getLast?_joined {separator piece : List Char} {texts : List (List Char)} (h : piece ≠ []) :
    (joined separator (texts ++ [piece])).getLast? = piece.getLast? := by
  cases texts with
  | nil => rfl
  | cons cs texts =>
    rw [joined_concat (List.cons_ne_nil cs texts), List.getLast?_append_of_ne_nil _ h]

/-- The first component of a path does not begin with a blank character, and the last one does not
end with one. -/
def Trimmed (path : String) : Prop :=
  (∀ piece ∈ (components path.toList).head?, ∀ c ∈ piece.head?, isBlank c = false) ∧
    ∀ piece ∈ (components path.toList).getLast?, ∀ c ∈ piece.getLast?, isBlank c = false

theorem trimmed_iff {path : String} : Trimmed path ↔ IsTrimmed (canonicalChars path.toList) := by
  have hne : ∀ piece ∈ components path.toList, piece ≠ [] := fun piece hpiece =>
    (of_mem_components hpiece).1
  refine and_congr ?_ ?_
  · unfold canonicalChars
    cases hc : components path.toList with
    | nil => simp [joined]
    | cons piece rest =>
      rw [hc] at hne
      rw [head?_joined (hne piece List.mem_cons_self)]
      simp
  · unfold canonicalChars
    rcases List.eq_nil_or_concat (components path.toList) with hc | ⟨rest, piece, hc⟩
    · simp [hc, joined]
    · rw [hc] at hne ⊢
      rw [List.concat_eq_append] at hne ⊢
      rw [getLast?_joined (hne piece (by simp))]
      simp

/-- The canonical spelling of a path is its own canonical spelling exactly if there are no blank
characters outside at the outer components. -/
theorem canonical_canonical_iff {path : String} :
    canonical (canonical path) = canonical path ↔ Trimmed path := by
  rw [trimmed_iff, ← canonicalChars_canonicalChars_iff]
  simp only [canonical, String.toList_ofList, String.ofList_inj]

end Path

/-! ### Keys of modules -/

/-- The module from which a bundle answers for a path: the key under which it is held, and its
source. -/
def Bundle.module? (b : Bundle) (path : String) : Option (String × String) :=
  (b.modules.get? (Path.canonical path)).map (Path.canonical path, ·)

namespace Bundle

variable {b : Bundle} {path source : String}

theorem key_of_module? {m : String × String} (h : b.module? path = some m) :
    m.1 = Path.canonical path := by
  obtain ⟨source, -, rfl⟩ := Option.map_eq_some_iff.1 h
  rfl

/-- What is put in at a path is found under the canonical spelling if this is normal. -/
theorem fetch_insert_of_trimmed (b : Bundle) (source : String) (h : Path.Trimmed path) :
    (b.insert path source).fetch (Path.canonical path) = .ok source := by
  rw [fetch_eq_ok_iff, Path.canonical_canonical_iff.2 h]
  exact Table.get?_insert_self ..

/-- Otherwise, what is found there is what was found before. -/
theorem fetch_insert_of_not_trimmed (b : Bundle) (source : String) (h : ¬ Path.Trimmed path) :
    (b.insert path source).fetch (Path.canonical path) = b.fetch (Path.canonical path) := by
  have hkey : Path.canonical (Path.canonical path) ≠ Path.canonical path := fun he =>
    h (Path.canonical_canonical_iff.1 he)
  have hget : (b.insert path source).modules.get? (Path.canonical (Path.canonical path)) =
      b.modules.get? (Path.canonical (Path.canonical path)) := Table.get?_insert_of_ne _ _ hkey
  rw [fetch, hget, fetch]

/-- No module is held under a normal key exactly if it cannot be fetched. -/
theorem compile_eq_missing_iff (h : Path.Trimmed path) :
    b.loader.compile (Path.canonical path) = .error (.notFound (Path.canonical path) none) ↔
      Path.canonical path ∉ b.modules.keys := by
  have hkey := Path.canonical_canonical_iff.2 h
  have hiff := @Loader.compile_eq_missing_iff b.loader (Path.canonical path)
  rw [hkey] at hiff
  rw [hiff, ← not_contains_iff, contains, hkey, ← Table.contains_iff_mem_keys, Bool.not_eq_true]

end Bundle

/-- An include that leads back to a module on the chain ends the walk with a cycle, if both are
known under normal keys: no module of a bundle has two of them. -/
theorem Walk.Stands.cycle_of_module? {b : Bundle} {path origin text p : String}
    {chain : List String} {gate : Gate} {directive : Include} {rest : List Statement} {w : Walk}
    (hs : Walk.Stands b.loader (Path.canonical path) chain origin gate
      (.inclusion directive :: rest) w)
    (htext : directive.target.render w.draft.literal? = .ok text) (h : Path.Trimmed text)
    (hmem : p ∈ chain ++ [origin]) (hp : Path.canonical p = p)
    (hsame : b.module? p = b.module? (Path.canonical text)) :
    p = Path.canonical text ∧ ∃ cycle, b.loader.compile path = .error (.cycle cycle) := by
  obtain ⟨source, hsource⟩ := hs.fetch p hmem
  have hheld : b.module? p = some (p, source) := by
    rw [Bundle.module?, Bundle.fetch_eq_ok_iff.1 hsource, hp]
    rfl
  have hkey : p = Path.canonical text :=
    (Bundle.key_of_module? (hsame ▸ hheld)).trans (Path.canonical_canonical_iff.2 h)
  have htarget : directive.target.target w.draft.literal? = .fixed p := by
    rw [Template.target, htext, hkey]
  obtain ⟨i, hi⟩ : ∃ i, (chain ++ [origin]).idxOf? p = some i := by
    rw [← Option.isSome_iff_exists, List.isSome_idxOf?]
    exact hmem
  exact ⟨hkey, _, Loader.compile_of_return hs htarget hi⟩

open Engine in
/-- **Where canonical spellings are normal, they are the keys of modules.** They are normal exactly
for the paths whose outer components have no blank characters outside. What a bundle is given at
such a path, it answers for the canonical spelling; for any other path it answers as if nothing had
been put in. Two such paths for which it answers from one module have one canonical spelling, so an
include that leads back to a module on the chain is a cycle; and an execution keeps what becomes of
such a path under the root of its graph, under which the bundle holds the module, and it is absent
exactly if there is none. -/
theorem keys_of_trimmed_paths (b : Bundle) :
    (∀ path, Path.canonical (Path.canonical path) = Path.canonical path ↔ Path.Trimmed path) ∧
    (∀ path source,
      (Path.Trimmed path → (b.insert path source).fetch (Path.canonical path) = .ok source) ∧
      (¬ Path.Trimmed path →
        (b.insert path source).fetch (Path.canonical path) = b.fetch (Path.canonical path))) ∧
    (∀ text text' m, Path.Trimmed text → Path.Trimmed text' →
      b.module? (Path.canonical text) = some m → b.module? (Path.canonical text') = some m →
      Path.canonical text = Path.canonical text') ∧
    (∀ path chain origin gate directive rest w text p,
      Walk.Stands b.loader (Path.canonical path) chain origin gate
        (.inclusion directive :: rest) w →
      directive.target.render w.draft.literal? = .ok text → Path.Trimmed text →
      p ∈ chain ++ [origin] → Path.canonical p = p →
      b.module? p = b.module? (Path.canonical text) →
      p = Path.canonical text ∧ ∃ cycle, b.loader.compile path = .error (.cycle cycle)) ∧
    ∀ (e : Engine) (id : ExecutionId) (path : String), Path.Trimmed path →
      (∀ o, (e.memo id).get? (Path.canonical path) ≠ some (some o)) →
      ((e.resolvePath b.loader id path).2.memo id).get? (Path.canonical path) =
        some (e.resolvePath b.loader id path).1.toOption ∧
      ((e.resolvePath b.loader id path).1 = .ok (.absent (Path.canonical path)) ↔
        Path.canonical path ∉ b.modules.keys) ∧
      ∀ g, (e.resolvePath b.loader id path).1 = .ok (.resolved g) →
        g.root = Path.canonical path ∧ Path.canonical path ∈ b.modules.keys := by
  refine ⟨fun path => Path.canonical_canonical_iff, fun path source =>
    ⟨b.fetch_insert_of_trimmed source, b.fetch_insert_of_not_trimmed source⟩, ?_, ?_, ?_⟩
  · intro text text' m h h' hm hm'
    rw [← Path.canonical_canonical_iff.2 h, ← Path.canonical_canonical_iff.2 h',
      ← Bundle.key_of_module? hm, ← Bundle.key_of_module? hm']
  · intro path chain origin gate directive rest w text p hs htext h hmem hp hsame
    exact hs.cycle_of_module? htext h hmem hp hsame
  · intro e id path h hnew
    have hkey := Path.canonical_canonical_iff.2 h
    have hanswer : (e.resolvePath b.loader id path).1 =
        outcome b.loader (Path.canonical path) := by
      rw [resolvePath_fst]
      split
      · rename_i o ho
        exact absurd ho (hnew o)
      · rfl
    refine ⟨by rw [memo_resolvePath, if_pos rfl], ?_, fun g hg => ?_⟩
    · rw [hanswer, outcome_eq_absent_iff, Bundle.compile_eq_missing_iff h]
      exact and_iff_right rfl
    · obtain ⟨c, hc, rfl⟩ := outcome_eq_resolved_iff.1 (hanswer ▸ hg)
      obtain ⟨hroot, hheld⟩ := root_of_compile hc
      rw [hkey] at hroot
      rw [hroot, hkey] at hheld
      exact ⟨hroot, hheld⟩

/-- The source of a module that includes itself under another spelling. -/
def mirrorSource : String :=
  "INCLUDE \"hall\\\\.\\\\mirror\";"

/-- The module, put in under a third spelling. -/
def mirror : Bundle :=
  Bundle.empty.insert "./hall//mirror " mirrorSource

theorem mirror_known_by_one_key :
    mirror.fetch (Path.canonical "./hall//mirror ") = .ok mirrorSource ∧
    Path.canonical "./hall//mirror " = Path.canonical "hall\\.\\mirror" ∧
    (∃ cycle, mirror.loader.compile "hall/mirror" = .error (.cycle cycle)) ∧
    (Engine.start.resolvePath mirror.loader 0 " hall/").1 = .ok (.absent "hall") := by
  obtain ⟨hnormal, hinsert, hsame, hcycle, hanswers⟩ := keys_of_trimmed_paths mirror
  have hspelled : Path.Trimmed "./hall//mirror " := (hnormal _).1 (by decide +kernel)
  have hspelled' : Path.Trimmed "hall\\.\\mirror" := (hnormal _).1 (by decide +kernel)
  refine ⟨((keys_of_trimmed_paths .empty).2.1 _ mirrorSource).1 hspelled, ?_, ?_, ?_⟩
  · exact hsame _ _ ("hall/mirror", mirrorSource) hspelled hspelled' (by decide +kernel)
      (by decide +kernel)
  · have hcompile : mirror.loader.compile "hall/mirror" =
        .error (.cycle ["hall/mirror", "hall/mirror"]) :=
      Loader.compile_of_error? (by decide +kernel)
    obtain ⟨chain, origin, gate, directive, rest, w, target, i, hs, ht, hi, hclosed⟩ :=
      Loader.exists_return hcompile
    obtain ⟨text, htext, rfl⟩ := Template.exists_render ht
    have hkey : "hall/mirror" = Path.canonical text := by
      simpa using congrArg List.getLast? hclosed
    have hmem : Path.canonical text ∈ chain ++ [origin] := by
      rw [← List.isSome_idxOf?, hi]
      rfl
    have htrimmed : Path.Trimmed text := (hnormal _).1 (by rw [← hkey]; decide +kernel)
    exact (hcycle _ _ _ _ _ _ _ _ _ hs htext htrimmed hmem ((hnormal _).2 htrimmed) rfl).2
  · have htrimmed : Path.Trimmed " hall/" := (hnormal _).1 (by decide +kernel)
    have hhall : Path.canonical " hall/" = "hall" := by decide +kernel
    have hgone : Path.canonical " hall/" ∉ mirror.modules.keys := by decide +kernel
    obtain ⟨-, habsent, -⟩ := hanswers Engine.start 0 " hall/" htrimmed
      (by simp [Engine.memo, Engine.start, Engine.startWith])
    rw [habsent.2 hgone, hhall]

/-- A blank character that a slash sets apart is kept by one canonical spelling and dropped by the
next. So a module with such a path cannot be fetched under its own key, and include targets that
lead to one module have two keys. -/
theorem blank_key_is_lost :
    Path.canonical "/ a" = " a" ∧ Path.canonical (Path.canonical "/ a") = "a" ∧
    (Bundle.empty.insert "/ a" "LET A := 1;").fetch (Path.canonical "/ a") =
      .error (.notFound " a") ∧
    (Bundle.empty.insert "a" "LET A := 1;").module? (Path.canonical "/ a") =
      (Bundle.empty.insert "a" "LET A := 1;").module? (Path.canonical "a") ∧
    (Bundle.empty.insert "a" "LET A := 1;").module? (Path.canonical "a") =
      some ("a", "LET A := 1;") ∧
    Path.canonical "/ a" ≠ Path.canonical "a" := by
  refine ⟨by decide +kernel, by decide +kernel, ?_, by decide +kernel, by decide +kernel,
    by decide +kernel⟩
  have hnot : ¬ Path.Trimmed "/ a" := fun h =>
    absurd (Path.canonical_canonical_iff.2 h) (by decide +kernel)
  have hkey : Path.canonical "/ a" = " a" := by decide +kernel
  rw [Bundle.fetch_insert_of_not_trimmed _ _ hnot, hkey]
  rfl

end GatedRules
