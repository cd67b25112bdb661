import GatedRules.Proofs.Agreement
import GatedRules.Proofs.Cycles
import GatedRules.Proofs.Places

/-!
# Cycles of includes

However includes are arranged, a walk over them ends, and it ends with an error if modules include
each other in a circle (`Loader.walk_decides_cycles`). What counts as an include from one module to
another is `Walk.Includes`: at some time, the walk has come to an include in the one module whose
target is known there and is the other module.

The error for a cycle names one, since on the chain to a place every module includes the next
(`Walk.Stands.isChain`), and a walk fails so only where an include leads back to the chain. In a
walk that succeeds there is no cycle. For suppose that there is one, and take the include on it to
which the walk comes last. Then the targets of the others are still known, and still the same; so
the reference walk, which enters a module at every include, would go round and round from there
(`Walks.not_transGen`).
-/

namespace GatedRules

open Occurrences Relation

/-- After what has occurred, the module `origin` has an include whose target is known: it leads to
the module `target`. -/
def Loader.Leads (loader : Loader) (os : List Occurrence) (origin target : String) : Prop :=
  ∃ source module directive text, loader.fetch origin = .ok source ∧
    Statement.parse origin source = .ok module ∧ .inclusion directive ∈ module ∧
    directive.target.render (literal? os) = .ok text ∧ Path.canonical text = target

variable {loader : Loader} {root path origin target : String} {gate : Gate} {ss : List Statement}
  {directive : Include} {text : String} {os os' known : List Occurrence}

/-- Where an include leads once, it leads later too. -/
theorem Loader.Leads.mono (h : loader.Leads os origin target) (hos : os <+: os') :
    loader.Leads os' origin target := by
  obtain ⟨source, module, directive, text, hf, hp, hd, ht, hcanonical⟩ := h
  refine ⟨source, module, directive, text, hf, hp, hd, ?_, hcanonical⟩
  exact Template.render_of_known (fun _ _ _ => literal?_of_isPrefix hos) ht

theorem Arrives.leads {includes : List Include}
    (h : Arrives loader root includes origin gate (.inclusion directive :: ss) os)
    (ht : directive.target.render (literal? os) = .ok text) :
    loader.Leads os origin (Path.canonical text) := by
  obtain ⟨source, module, hf, hp, hsuffix⟩ := h.of_module
  exact ⟨source, module, directive, text, hf, hp, hsuffix.subset List.mem_cons_self, ht, rfl⟩

/-- The reference walk cannot pass an include that leads to a module from which known includes lead
back to it. -/
theorem Walks.not_transGen (h : Walks loader origin gate ss os os') (hknown : known <+: os)
    (hd : .inclusion directive ∈ ss) (ht : directive.target.render (literal? known) = .ok text) :
    ¬ TransGen (loader.Leads known) (Path.canonical text) (Path.canonical text) := by
  have hrender {os : List Occurrence} (hos : known <+: os) {d : Include} {text : String}
      (hd : d.target.render (literal? known) = .ok text) :
      d.target.render (literal? os) = .ok text :=
    Template.render_of_known (fun _ _ _ => literal?_of_isPrefix hos) hd
  induction h generalizing directive text with
  | nil => cases hd
  | binding _ ih =>
    obtain hd | hd := List.mem_cons.1 hd
    · cases hd
    · exact ih (hknown.trans (List.prefix_append _ _)) hd ht
  | enter ht' hf hp hin _ ihin ihrest =>
    obtain hd | hd := List.mem_cons.1 hd
    · cases hd
      obtain rfl := Except.ok.inj ((hrender hknown ht).symm.trans ht')
      intro hcycle
      -- The module has an include that leads on, along the cycle, and the walk comes to it.
      obtain ⟨next, hstep, hback⟩ := TransGen.head'_iff.1 hcycle
      have hcycle' : TransGen (loader.Leads known) next next := TransGen.tail' hback hstep
      obtain ⟨source', module', d, text', hf', hp', hmem, htext, rfl⟩ := hstep
      obtain rfl := Except.ok.inj (hf.symm.trans hf')
      obtain rfl := Except.ok.inj (hp.symm.trans hp')
      refine ihin ?_ hmem htext hcycle'
      rw [List.append_assoc]
      exact hknown.trans (List.prefix_append _ _)
    · refine ihrest (hknown.trans ?_) hd ht
      have hprefix := hin.isPrefix
      rw [List.append_assoc] at hprefix
      exact (List.prefix_append _ _).trans hprefix
  | site ht' _ _ ih =>
    obtain hd | hd := List.mem_cons.1 hd
    · cases hd
      rw [hrender hknown ht] at ht'
      cases ht'
    · exact ih (hknown.trans (List.prefix_append _ _)) hd ht

namespace Walk

/-- A path of includes in a walk that succeeds has one that comes last, when all of them are known:
those before lead to it, and those after it lead to the end. -/
theorem exists_last {whole : List Occurrence} (hwhole : Enters loader root .always [] whole)
    {p q : String} (h : TransGen (Includes loader root) p q) :
    ∃ includes origin gate directive rest os text,
      Arrives loader root includes origin gate (.inclusion directive :: rest) os ∧
      directive.target.render (literal? os) = .ok text ∧
      ReflTransGen (loader.Leads os) p origin ∧
      ReflTransGen (loader.Leads os) (Path.canonical text) q := by
  have hplace {origin target : String} (h : Includes loader root origin target) :
      ∃ includes gate directive rest os text,
        Arrives loader root includes origin gate (.inclusion directive :: rest) os ∧
        directive.target.render (literal? os) = .ok text ∧ Path.canonical text = target := by
    obtain ⟨chain, gate, directive, rest, w, hs, ht⟩ := h
    obtain ⟨includes, os, harrives, hfinds, -, -⟩ := hs.arrives
    obtain ⟨text, htext, hcanonical⟩ := hfinds.target_eq_fixed ht
    exact ⟨includes, gate, directive, rest, os, text, harrives, htext, hcanonical⟩
  induction h with
  | single hpq =>
    obtain ⟨includes, gate, directive, rest, os, text, harrives, ht, rfl⟩ := hplace hpq
    exact ⟨includes, _, gate, directive, rest, os, text, harrives, ht, .refl, .refl⟩
  | tail _ hqr ih =>
    obtain ⟨includes, origin, gate, directive, rest, os, text, harrives, ht, hto, hfrom⟩ := ih
    obtain ⟨includes', gate', directive', rest', os', text', harrives', ht', rfl⟩ := hplace hqr
    -- What has occurred at one of the two places is the beginning of what has at the other.
    obtain ⟨end₁, hw, hend₁⟩ := harrives.walks hwhole
    obtain ⟨end₂, hw', hend₂⟩ := harrives'.walks hwhole
    have hprefix : os <+: os' ∨ os' <+: os :=
      List.prefix_or_prefix_of_prefix (hw.isPrefix.trans hend₁) (hw'.isPrefix.trans hend₂)
    rcases hprefix with hlater | hearlier
    · refine ⟨includes', _, gate', directive', rest', os', text', harrives', ht', ?_, .refl⟩
      have hmono : ∀ a b, loader.Leads os a b → loader.Leads os' a b := fun a b h => h.mono hlater
      exact (hto.lift id hmono).trans
        (.head ((harrives.leads ht).mono hlater) (hfrom.lift id hmono))
    · refine ⟨includes, origin, gate, directive, rest, os, text, harrives, ht, hto, ?_⟩
      exact hfrom.tail ((harrives'.leads ht').mono hearlier)

/-- In a walk that succeeds, no module includes itself, directly or through others. -/
theorem not_transGen_includes {whole : List Occurrence}
    (hwhole : Enters loader root .always [] whole) (p : String) :
    ¬ TransGen (Includes loader root) p p := by
  intro hcycle
  obtain ⟨includes, origin, gate, directive, rest, os, text, harrives, ht, hto, hfrom⟩ :=
    exists_last hwhole hcycle
  obtain ⟨os', hw, -⟩ := harrives.walks hwhole
  refine hw.not_transGen List.prefix_rfl List.mem_cons_self ht ?_
  exact TransGen.tail' (hfrom.trans hto) (harrives.leads ht)

end Walk

/-- **A walk over includes ends, and decides cycles.** With a larger bound on the depth, it is the
same. If it fails with a cycle, this is one: it has at least two entries, ends where it starts, has
no other module twice, and each of its modules includes the next. If a module compiles, none of the
modules includes itself, directly or through others. -/
theorem Loader.walk_decides_cycles (loader : Loader) (path : String) :
    (∀ n, loader.depth ≤ n →
      ExceptT.run (Walk.resolve loader n (Path.canonical path) .always [] none) Walk.start =
        loader.walk (Path.canonical path)) ∧
    (∀ cycle, loader.compile path = .error (.cycle cycle) →
      2 ≤ cycle.length ∧ cycle.head? = cycle.getLast? ∧ cycle.dropLast.Nodup ∧
        cycle.IsChain (Walk.Includes loader (Path.canonical path))) ∧
    ∀ c, loader.compile path = .ok c →
      ∀ p, ¬ TransGen (Walk.Includes loader (Path.canonical path)) p p := by
  refine ⟨fun n hn => (loader.walk_eq_of_depth hn _).symm, fun cycle h => ?_, fun c h => ?_⟩
  · obtain ⟨chain, origin, gate, directive, rest, w, target, i, hs, ht, hi, rfl⟩ :=
      Loader.exists_return h
    exact Dependency.closes_of_idxOf? hs.nodup hs.isChain ⟨_, _, _, _, _, hs, ht⟩ hi
  · obtain ⟨os, w, henters, -⟩ := finds_of_compile h
    exact Walk.not_transGen_includes henters

/-- Two entry modules that include a third one twice. A target that takes a literal leads from the
first into a cycle, and from the second past it. -/
def carousel : Loader :=
  (Bundle.ofList [
    ("main", "LET A := \"b\"; INCLUDE \"shared\"; INCLUDE \"horse/${A}\";"),
    ("side", "LET A := \"d\"; INCLUDE \"shared\"; INCLUDE \"horse/${A}\";"),
    ("horse/b", "INCLUDE \"shared\" WHERE A = \"b\"; INCLUDE \"horse/c\";"),
    ("horse/c", "INCLUDE \"horse//${A}\";"),
    ("horse/d", "INCLUDE \"shared\";"),
    ("shared", "INCLUDE \"${U}\";")]).loader

theorem carousel_turns :
    carousel.compile "main" = .error (.cycle ["horse/b", "horse/c", "horse/b"]) ∧
    ["horse/b", "horse/c", "horse/b"].IsChain (Walk.Includes carousel (Path.canonical "main")) ∧
    (∃ c, carousel.compile "side" = .ok c ∧ c.modules = ["side", "shared", "horse/d"]) ∧
    ∀ p, ¬ TransGen (Walk.Includes carousel (Path.canonical "side")) p p := by
  have hcycle : carousel.compile "main" = .error (.cycle ["horse/b", "horse/c", "horse/b"]) :=
    Loader.compile_of_error? (by decide +kernel)
  have hside : (carousel.compile "side").toOption.map Compiled.modules =
      some ["side", "shared", "horse/d"] := by
    decide +kernel
  obtain ⟨c, hc, hmodules⟩ := exists_ok_of_map hside
  obtain ⟨-, -, -, hchain⟩ := (Loader.walk_decides_cycles carousel "main").2.1 _ hcycle
  exact ⟨hcycle, hchain, ⟨c, hc, hmodules⟩, (Loader.walk_decides_cycles carousel "side").2.2 c hc⟩

end GatedRules
