import GatedRules.Proofs.Agreement
import GatedRules.Proofs.Directories

/-!
# Modules below a root

A loader over a directory tree finds modules below its root only. The components of a path are names
of files and directories: they hold no slashes of either kind, and none of them is empty or `.`.
Those that are `..` are refused before anything is read. So what the pieces of a path lead to, from
a root, is what they name at the place of the root (`Directory.inside_of_locate`), and two trees
that are alike below a root cannot be told apart by any path, whoever has written it
(`Directory.loads_stay_below`).
-/

namespace GatedRules

/-- The names in a path hold no slashes, and stand for something. -/
theorem Path.of_mem_names {path name : String} (h : name ∈ names path) :
    name ≠ "" ∧ name ≠ "." ∧ '/' ∉ name.toList ∧ '\\' ∉ name.toList := by
  obtain ⟨piece, hpiece, rfl⟩ := List.mem_map.1 h
  obtain ⟨hempty, hdot⟩ := Directory.ne_of_mem_components hpiece
  have hslash : ∀ c, isSlash c = true → c ∉ (String.ofList piece).toList := fun c hc => by
    rw [String.toList_ofList]
    exact Text.not_mem_of_mem_split (List.mem_filter.1 hpiece).1 hc
  exact ⟨hempty, hdot, hslash '/' rfl, hslash '\\' rfl⟩

namespace Directory

variable {d d' : Directory} {root : List String} {path : String}

/-- The pieces of a module path are its names; the path without names is the root itself, with a
slash at its end. -/
theorem modulePieces_eq (path : String) :
    modulePieces path = if Path.names path = [] then [""] else Path.names path := by
  split
  · rename_i hnone
    exact modulePieces_of_empty (List.map_eq_nil_iff.1 hnone)
  · rename_i hsome
    exact modulePieces_of_components fun hempty => hsome (List.map_eq_nil_iff.2 hempty)

/-- The beginning of a path that the system takes is such a path. -/
theorem Fits.of_append {pieces : List String} (h : Fits (root ++ pieces)) (hroot : root ≠ [""]) :
    Fits root := by
  have hlength : ∀ n, root.foldr (fun piece n => piece.utf8ByteSize + 1 + n) 0 ≤
      root.foldr (fun piece n => piece.utf8ByteSize + 1 + n) n := by
    intro n
    clear h hroot
    induction root with
    | nil => exact Nat.zero_le n
    | cons piece root ih => exact Nat.add_le_add_left ih _
  refine ⟨hroot, fun piece hpiece => h.nul piece (List.mem_append_left _ hpiece), ?_,
    fun piece hpiece => h.names piece (List.mem_append_left _ hpiece)⟩
  have hwhole := h.length
  rw [List.foldr_append] at hwhole
  exact Nat.le_trans (hlength _) hwhole

/-- Where pieces without `..` lead to a place in the tree, their root leads to a place there, from
which the names in the pieces lead on. -/
theorem inside_of_locate {pieces file : List String}
    (h : d.locate (root ++ pieces) = .ok (.inside file)) (hup : ".." ∉ pieces) :
    ∃ base, d.locate root = .ok (.inside base) ∧ file = base ++ named pieces := by
  have hfits := fits_of_locate h
  rw [hfits.locate] at h
  have hhead := head?_of_walk h
  rw [walk_of_head? hhead, List.foldlM_append] at h
  obtain ⟨spot, hspot, hrest⟩ := bind_eq_ok.1 h
  obtain ⟨base, rfl, hfile⟩ := inside_of_foldlM hrest hup
  refine ⟨base, ?_, hfile⟩
  cases root with
  | nil =>
    cases hspot
    rfl
  | cons first root =>
    have hfirst : first ≠ "" := fun he => hhead (congrArg some he)
    have hroot : first :: root ≠ [""] := fun he => hfirst (List.cons.inj he).1
    have hbegin : (first :: root).head? ≠ some "" := fun he => hfirst (Option.some.inj he)
    rw [(hfits.of_append hroot).locate, walk_of_head? hbegin, hspot]

/-- Where a module path leads to a place in the tree, this is the place of its names. -/
theorem inside_of_locate_modulePieces {file : List String}
    (h : d.locate (root ++ modulePieces path) = .ok (.inside file))
    (hup : ".." ∉ Path.names path) :
    ∃ base, d.locate root = .ok (.inside base) ∧ file = base ++ Path.names path := by
  obtain ⟨base, hroot, rfl⟩ :=
    inside_of_locate h fun hmem => hup (up_mem_modulePieces.1 hmem)
  exact ⟨base, hroot, congrArg (base ++ ·) (named_modulePieces path)⟩

/-- A path that does not lead back, and that the system takes, is followed from the root. -/
theorem fetch_of_fits (hup : ".." ∉ Path.names path) (hfits : Fits (root ++ modulePieces path)) :
    d.fetch root path =
      LoadError.ofFile path ((d.walk (root ++ modulePieces path)).bind d.readSpot) := by
  rw [fetch_of_ahead hup, openFile_eq, hfits.locate]

/-- A module is the text of a file below the root. -/
theorem exists_file_of_fetch {source : String} (h : d.fetch root path = .ok source) :
    ".." ∉ Path.names path ∧ ∃ base, d.locate root = .ok (.inside base) ∧
      d.files.get? (base ++ Path.names path) = some source := by
  have hup : ".." ∉ Path.names path := by
    intro hup
    rw [fetch_of_up hup] at h
    cases h
  rw [fetch_of_ahead hup] at h
  have hopen : (d.locate (root ++ modulePieces path) >>= d.readSpot) = .ok source :=
    (openFile_eq d _).symm.trans (LoadError.eq_ok_of_ofFile h)
  obtain ⟨spot, hspot, hread⟩ := bind_eq_ok.1 hopen
  refine ⟨hup, ?_⟩
  cases spot with
  | outside => cases hread
  | inside file =>
    obtain ⟨base, hroot, rfl⟩ := inside_of_locate_modulePieces hspot hup
    exact ⟨base, hroot, read_eq_ok_iff.1 hread⟩

/-! ### Trees that are alike below a root -/

/-- Every place above a place is a directory. -/
def Reached (d : Directory) (path : List String) : Prop :=
  ∀ above, above <+: path → above ≠ path → d.fault? above = none

theorem Reached.of_prefix {above path : List String} (h : d.Reached path) (hpre : above <+: path) :
    d.Reached above := by
  intro higher hhigher hne
  refine h higher (hhigher.trans hpre) ?_
  rintro rfl
  exact hne (hhigher.eq_of_length_le hpre.length_le)

/-- There are no files above a place that is reached. -/
theorem Reached.not_mem_keys {above path : List String} (h : d.Reached path) (hpre : above <+: path)
    (hne : above ≠ path) : above ∉ d.files.keys := by
  intro hfile
  obtain ⟨text, htext⟩ := Option.isSome_iff_exists.1 (Table.isSome_get?_iff.2 hfile)
  have hnone := h above hpre hne
  rw [fault?, read_eq_ok_iff.2 htext] at hnone
  cases hnone

theorem Reached.step {path path' : List String} {piece : String} (h : d.Reached path)
    (hstep : d.step (.inside path) piece = .ok (.inside path')) : d.Reached path' := by
  unfold Directory.step Spot.follow at hstep
  dsimp only at hstep
  split at hstep
  · cases hstep
  rename_i hnone
  split at hstep
  · cases hstep
    exact h
  split at hstep
  · split at hstep
    · cases hstep
    · cases hstep
    · rename_i heq
      cases heq
      cases hstep
      exact h.of_prefix (List.dropLast_prefix path)
  split at hstep
  · cases hstep
  · cases hstep
    -- Above the new place there are the old one and what is above this.
    intro above hpre hne
    rcases List.prefix_concat_iff.1 hpre with rfl | hpre
    · exact absurd rfl hne
    by_cases heq : above = path
    · exact heq ▸ hnone
    · exact h above hpre heq

theorem Reached.foldlM {pieces path path' : List String} (h : d.Reached path)
    (hwalk : pieces.foldlM d.step (.inside path) = .ok (.inside path')) : d.Reached path' := by
  induction pieces generalizing path with
  | nil =>
    cases hwalk
    exact h
  | cons piece pieces ih =>
    rw [List.foldlM_cons] at hwalk
    obtain ⟨spot, hstep, hrest⟩ := bind_eq_ok.1 hwalk
    cases spot with
    | outside => cases outside_of_foldlM hrest
    | inside next => exact ih (h.step hstep) hrest

/-- Where a root leads to in the tree, it has gone on step by step from the top. -/
theorem foldlM_of_locate {base : List String} (h : d.locate root = .ok (.inside base)) :
    root.foldlM d.step (.inside []) = .ok (.inside base) := by
  rw [(fits_of_locate h).locate] at h
  rwa [← walk_of_head? (head?_of_walk h)]

theorem reached_of_locate {base : List String} (h : d.locate root = .ok (.inside base)) :
    d.Reached base := by
  have htop : d.Reached [] := fun above hpre hne => absurd (List.prefix_nil.1 hpre) hne
  exact htop.foldlM (foldlM_of_locate h)

/-- Two trees are alike below a root: it leads to the same place, and the files there are the same.
-/
structure Alike (d d' : Directory) (root base : List String) : Prop where
  /-- The root leads to a place. -/
  leads : d.locate root = .ok (.inside base)
  /-- It leads to the same place in the other tree. -/
  leads' : d'.locate root = .ok (.inside base)
  /-- The files there are the same. -/
  below : ∀ names, d'.files.get? (base ++ names) = d.files.get? (base ++ names)

namespace Alike

variable {base : List String}

/-- Above the root, and below it, there are files at the same places. -/
theorem mem_keys_iff (h : d.Alike d' root base) {file : List String}
    (hfile : file <+: base ∨ base <+: file) : file ∈ d'.files.keys ↔ file ∈ d.files.keys := by
  have hbelow : ∀ names, base ++ names ∈ d'.files.keys ↔ base ++ names ∈ d.files.keys := by
    intro names
    rw [← Table.isSome_get?_iff, ← Table.isSome_get?_iff, h.below]
  rcases hfile with hpre | ⟨names, rfl⟩
  · by_cases heq : file = base
    · have hhere := hbelow []
      rwa [List.append_nil, ← heq] at hhere
    · exact iff_of_false ((reached_of_locate h.leads').not_mem_keys hpre heq)
        ((reached_of_locate h.leads).not_mem_keys hpre heq)
  · exact hbelow names

theorem read (h : d.Alike d' root base) (names : List String) :
    d'.read (base ++ names) = d.read (base ++ names) := by
  have hpre : base <+: base ++ names := List.prefix_append base names
  have hdirectory : d'.isDirectory (base ++ names) = d.isDirectory (base ++ names) := by
    rw [Bool.eq_iff_iff, isDirectory_iff, isDirectory_iff]
    refine or_congr_right (exists_congr fun file => and_congr_left fun hbelow => ?_)
    exact h.mem_keys_iff (.inr (hpre.trans hbelow.1))
  have hthrough : (d'.files.keys.any fun file => file.isPrefixOf (base ++ names)) =
      d.files.keys.any fun file => file.isPrefixOf (base ++ names) := by
    rw [Bool.eq_iff_iff, List.any_eq_true, List.any_eq_true]
    refine exists_congr fun file => and_congr_left fun hfile => ?_
    exact h.mem_keys_iff
      (List.prefix_or_prefix_of_prefix (List.isPrefixOf_iff_prefix.1 hfile) hpre)
  unfold Directory.read
  rw [h.below, hdirectory, hthrough]

theorem step (h : d.Alike d' root base) (names : List String) (piece : String) :
    d'.step (.inside (base ++ names)) piece = d.step (.inside (base ++ names)) piece := by
  unfold Directory.step fault?
  dsimp only
  rw [h.read]

/-- From the root, what does not lead back is followed alike. -/
theorem foldlM (h : d.Alike d' root base) {pieces : List String} (hup : ".." ∉ pieces)
    (names : List String) : pieces.foldlM d'.step (.inside (base ++ names)) =
      pieces.foldlM d.step (.inside (base ++ names)) := by
  induction pieces generalizing names with
  | nil => rfl
  | cons piece pieces ih =>
    rw [List.foldlM_cons, List.foldlM_cons, h.step]
    cases hstep : d.step (.inside (base ++ names)) piece with
    | error fault => rfl
    | ok spot =>
      have hne : piece ≠ ".." := fun he => hup (he ▸ List.mem_cons_self)
      rcases step_eq_ok hstep hne with ⟨hout, -⟩ | ⟨path, hin, rfl⟩
      · cases hout
      · cases hin
        rw [List.append_assoc]
        exact ih (fun hmem => hup (List.mem_cons_of_mem _ hmem)) _

end Alike

/-- Outside of a tree pieces are followed as outside of any other one. -/
theorem foldlM_outside (d d' : Directory) (pieces : List String) :
    pieces.foldlM d'.step .outside = pieces.foldlM d.step .outside := by
  induction pieces with
  | nil => rfl
  | cons piece pieces ih =>
    rw [List.foldlM_cons, List.foldlM_cons]
    have hstep : d'.step .outside piece = d.step .outside piece := rfl
    rw [hstep]
    cases hspot : d.step .outside piece with
    | error fault => rfl
    | ok spot =>
      have hsingle : [piece].foldlM d.step .outside = .ok spot := by
        rw [List.foldlM_cons, hspot]
        rfl
      exact outside_of_foldlM hsingle ▸ ih

namespace Alike

variable {base : List String}

theorem walk (h : d.Alike d' root base) {pieces : List String} (hup : ".." ∉ pieces) :
    d'.walk (root ++ pieces) = d.walk (root ++ pieces) := by
  by_cases hhead : (root ++ pieces).head? = some ""
  · obtain ⟨rest, hrest⟩ := List.head?_eq_some_iff.1 hhead
    rw [hrest]
    exact foldlM_outside d d' rest
  · have hbase := h.foldlM hup []
    rw [List.append_nil] at hbase
    rw [walk_of_head? hhead, walk_of_head? hhead, List.foldlM_append, List.foldlM_append,
      foldlM_of_locate h.leads, foldlM_of_locate h.leads']
    exact hbase

/-- What does not lead back from the root is read alike. -/
theorem openFile (h : d.Alike d' root base) {pieces : List String} (hup : ".." ∉ pieces) :
    d'.openFile (root ++ pieces) = d.openFile (root ++ pieces) := by
  have hlocate : d'.locate (root ++ pieces) = d.locate (root ++ pieces) :=
    locate_congr (h.walk hup)
  rw [openFile_eq, openFile_eq, hlocate]
  cases hspot : d.locate (root ++ pieces) with
  | error fault => rfl
  | ok spot =>
    cases spot with
    | outside => rfl
    | inside file =>
      obtain ⟨base', hroot, rfl⟩ := inside_of_locate hspot hup
      cases hroot.symm.trans h.leads
      exact h.read _

theorem fetch (h : d.Alike d' root base) (path : String) :
    d'.fetch root path = d.fetch root path := by
  by_cases hup : ".." ∈ Path.names path
  · rw [fetch_of_up hup, fetch_of_up hup]
  · rw [fetch_of_ahead hup, fetch_of_ahead hup,
      h.openFile fun hmem => hup (up_mem_modulePieces.1 hmem)]

theorem compile (h : d.Alike d' root base) (path : String) :
    (d'.loader root).compile path = (d.loader root).compile path := by
  have hfetch : ∀ p ∈ ((d.loader root).walk (Path.canonical path)).2.asked,
      (d'.loader root).fetch p = (d.loader root).fetch p := by
    intro p _
    rw [loader_fetch, loader_fetch, h.fetch]
  exact Loader.compile_congr_walk (Loader.walk_eq_of_agreement hfetch)

end Alike

/-- **Loads stay below the root.** The names in a path are the components of its canonical spelling;
they are neither empty nor `.`, and hold no slash of either kind. If one of them is `..`, the module
is not found whatever files there are, so nothing is read. Otherwise the answer is what reading the
one path answers that has the names below the root; where it leads into the tree, this is the place
of the names below the place of the root. So a module that is fetched is a file there, and so are
all modules of which a compiled one is made; and files that are elsewhere make no difference. -/
theorem loads_stay_below (root : List String) (path : String) :
    components (Path.canonical path) = Path.names path ∧
    (∀ name ∈ Path.names path,
      name ≠ "" ∧ name ≠ "." ∧ '/' ∉ name.toList ∧ '\\' ∉ name.toList) ∧
    ((".." ∈ Path.names path ∧ ∀ d : Directory, d.fetch root path = .error (.notFound path)) ∨
      ".." ∉ Path.names path ∧ ∀ d : Directory,
        let pieces := root ++ if Path.names path = [] then [""] else Path.names path
        d.fetch root path = LoadError.ofFile path (d.openFile pieces) ∧
        ∀ file, d.locate pieces = .ok (.inside file) →
          ∃ base, d.locate root = .ok (.inside base) ∧ file = base ++ Path.names path) ∧
    (∀ (d : Directory) (source : String), d.fetch root path = .ok source →
      ∃ base, d.locate root = .ok (.inside base) ∧
        d.files.get? (base ++ Path.names path) = some source) ∧
    (∀ (d : Directory) (c : Compiled), (d.loader root).compile path = .ok c → ∀ p ∈ c.modules,
      ".." ∉ Path.names p ∧ ∃ base source, d.locate root = .ok (.inside base) ∧
        d.files.get? (base ++ Path.names p) = some source) ∧
    ∀ (d d' : Directory) (base : List String), d.Alike d' root base →
      d'.fetch root path = d.fetch root path ∧
      (d'.loader root).compile path = (d.loader root).compile path := by
  refine ⟨named_modulePieces path, fun name hname => Path.of_mem_names hname, ?_, ?_, ?_,
    fun d d' base h => ⟨h.fetch path, h.compile path⟩⟩
  · by_cases hup : ".." ∈ Path.names path
    · exact .inl ⟨hup, fun d => fetch_of_up hup⟩
    · refine .inr ⟨hup, fun d => ?_⟩
      rw [← modulePieces_eq path]
      exact ⟨fetch_of_ahead hup, fun file hfile => inside_of_locate_modulePieces hfile hup⟩
  · exact fun d source h => (exists_file_of_fetch h).2
  · intro d c hc p hp
    obtain ⟨sources, -, hpaths, hfetched⟩ := Loader.fetched_of_compile hc
    rw [← Loader.asked_of_compile hc, ← hpaths] at hp
    obtain ⟨m, hm, rfl⟩ := List.mem_map.1 hp
    have hfetch := hfetched m hm
    rw [loader_fetch] at hfetch
    obtain ⟨hup, base, hroot, hfile⟩ := exists_file_of_fetch hfetch
    exact ⟨hup, base, m.2, hroot, hfile⟩

end Directory

/-- Two modules. -/
def officeModules : List (List String × String) :=
  [(["main"], "INCLUDE \".\\\\d//x\";"), (["d", "x"], "LET B := 2;")]

/-- The modules below the directory `rules`, and a file beside it. -/
def office (secret : String) : Directory :=
  ⟨⟨(["secret"], secret) :: officeModules.map fun m => ("rules" :: m.1, m.2),
    by simp [officeModules]⟩⟩

/-- The modules in memory. -/
def officeBundle : Bundle :=
  .ofList (officeModules.map fun m => (Text.joinedText "/" m.1, m.2))

/-- What the file beside holds makes no difference below `rules`. -/
theorem office_alike : (office "a").Alike (office "b") ["rules"] ["rules"] := by
  have hfits : Directory.Fits ["rules"] := ⟨by decide, by decide, by decide, by decide⟩
  refine ⟨?_, ?_, fun names => by simp [office, Table.get?]⟩ <;>
    rw [hfits.locate] <;> exact eq_ok_of_toOption (by decide +kernel)

/-- The modules are read from the files. -/
theorem office_fetch : ∀ path ∈ [".\\d//x", "main", "d/x"],
    (office "a").fetch ["rules"] path = officeBundle.loader.fetch path := by
  have hup : ∀ path ∈ [".\\d//x", "main", "d/x"], ".." ∉ Path.names path := by decide +kernel
  have hfits : ∀ path ∈ [".\\d//x", "main", "d/x"],
      Directory.Fits (["rules"] ++ Directory.modulePieces path) := fun path hpath =>
    ⟨by revert path; decide +kernel, by revert path; decide +kernel,
      by revert path; decide +kernel, by revert path; decide +kernel⟩
  have hread : ∀ path ∈ [".\\d//x", "main", "d/x"],
      LoadError.ofFile path (((office "a").walk (["rules"] ++ Directory.modulePieces path)).bind
        (office "a").readSpot) = officeBundle.loader.fetch path := by decide +kernel
  exact fun path hpath =>
    (Directory.fetch_of_fits (hup path hpath) (hfits path hpath)).trans (hread path hpath)

/-- A compile over the files asks for these paths only. -/
theorem office_compile :
    ((office "a").loader ["rules"]).compile "main" = officeBundle.loader.compile "main" := by
  refine Loader.compile_congr_walk (Loader.walk_eq_of_agreement fun path hpath => ?_)
  have hasked : (officeBundle.loader.walk (Path.canonical "main")).2.asked = ["main", "d/x"] := by
    decide +kernel
  rw [hasked] at hpath
  rw [Directory.loader_fetch]
  exact office_fetch path (List.mem_cons_of_mem _ hpath)

theorem office_keeps_secret :
    (office "a").fetch ["rules"] "d\\../../secret" = .error (.notFound "d\\../../secret") ∧
    (office "a").fetch ["rules"] ".\\d//x" = .ok "LET B := 2;" ∧
    (∃ base, (office "a").locate ["rules"] = .ok (.inside base) ∧
      (office "a").files.get? (base ++ Path.names ".\\d//x") = some "LET B := 2;") ∧
    (∃ c, ((office "a").loader ["rules"]).compile "main" = .ok c ∧ c.modules = ["main", "d/x"] ∧
      ∀ p ∈ c.modules, ".." ∉ Path.names p ∧ ∃ base source,
        (office "a").locate ["rules"] = .ok (.inside base) ∧
        (office "a").files.get? (base ++ Path.names p) = some source) ∧
    (office "a").Alike (office "b") ["rules"] ["rules"] ∧
    ((office "b").loader ["rules"]).compile "main" =
      ((office "a").loader ["rules"]).compile "main" := by
  have hx : (office "a").fetch ["rules"] ".\\d//x" = .ok "LET B := 2;" :=
    (office_fetch _ List.mem_cons_self).trans (eq_ok_of_toOption (by decide +kernel))
  have heval : (officeBundle.loader.compile "main").toOption.map Compiled.modules =
      some ["main", "d/x"] := by decide +kernel
  obtain ⟨c, hbundle, hmodules⟩ := exists_ok_of_map heval
  have hc := office_compile.trans hbundle
  obtain ⟨-, -, hup, -, -, -⟩ := Directory.loads_stay_below ["rules"] "d\\../../secret"
  obtain ⟨-, -, -, hfile, -, -⟩ := Directory.loads_stay_below ["rules"] ".\\d//x"
  obtain ⟨-, -, -, -, hcompile, halike⟩ := Directory.loads_stay_below ["rules"] "main"
  refine ⟨?_, hx, hfile _ _ hx, ⟨c, hc, hmodules, hcompile _ c hc⟩, office_alike,
    (halike _ _ _ office_alike).2⟩
  rcases hup with ⟨-, hnone⟩ | ⟨hahead, -⟩
  · exact hnone _
  · exact absurd (by decide +kernel) hahead

end GatedRules
