import GatedRules.Proofs.Words
import GatedRules.Source.Bundle
import GatedRules.Source.Directory

/-!
# Directories that hold a bundle

The same modules may be kept in a bundle, or as files below a directory. Where no file is below
another one, following the names of a path comes to the same as reading what is at the whole path
(`Directory.Apart.foldlM_read`), so a loader over the directory finds exactly the modules of the
bundle (`Directory.Keeps.fetch_eq_ok_iff`).

They differ in what they say of the other paths. A bundle says that there is no module. For the
system a path that leads to a directory, or through a file, is not a missing one, and a loader over
the directory passes on what the system says: it fails with an input or output error
(`Directory.Keeps.read_eq_isDirectory_iff`, `Directory.Keeps.read_eq_notDirectory_iff`).
-/

namespace GatedRules

/-- The names in a module path. -/
def Path.names (path : String) : List String :=
  (components path.toList).map String.ofList

/-- Paths with the same names have the same canonical spelling. -/
theorem Path.canonical_eq_of_names {path path' : String} (h : names path = names path') :
    canonical path = canonical path' := by
  rw [← Directory.joinedText_components path, ← Directory.joinedText_components path']
  exact congrArg (Text.joinedText "/") h

namespace LoadError

/-- What is missing for the system is not found. -/
theorem ofFile_eq_notFound_iff {path : String} {answer : Except FileFault String} :
    ofFile path answer = .error (.notFound path) ↔ answer = .error .missing := by
  unfold ofFile
  split <;> simp_all

/-- Any other fault is passed on. -/
theorem ofFile_eq_io_iff {path : String} {answer : Except FileFault String}
    {fault : FileFault} :
    ofFile path answer = .error (.io path fault) ↔ answer = .error fault ∧ fault ≠ .missing := by
  unfold ofFile
  split
  · simp
  · simp [eq_comm]
  · rename_i fault' hne
    simp only [Except.error.injEq, LoadError.io.injEq, true_and]
    exact ⟨fun he => ⟨he, fun hm => hne (he.trans hm)⟩, And.left⟩

end LoadError

namespace Bundle

theorem fetch_eq_ok_iff {b : Bundle} {path text : String} :
    b.fetch path = .ok text ↔ b.modules.get? (Path.canonical path) = some text := by
  unfold fetch
  split
  · rename_i hs
    rw [hs, Except.ok.injEq, Option.some.injEq]
  · rename_i hn
    simp [hn]

/-- There is no third answer. -/
theorem fetch_eq_error_iff {b : Bundle} {path : String} {error : LoadError} :
    b.fetch path = .error error ↔ (∀ text, b.fetch path ≠ .ok text) ∧ error = .notFound path := by
  unfold fetch
  split
  · simp
  · simp [eq_comm]

/-- A path names a directory of a bundle: there is a module below it, or it is the empty path. -/
def Above (b : Bundle) (path : String) : Prop :=
  Path.names path = [] ∨ ∃ below text, b.fetch below = .ok text ∧
    Path.names path <+: Path.names below ∧ Path.names path ≠ Path.names below

/-- A path leads on from a module, without leading back. -/
def Through (b : Bundle) (path : String) : Prop :=
  ".." ∉ Path.names path ∧ ∃ outer text, b.fetch outer = .ok text ∧
    Path.names outer <+: Path.names path ∧ Path.names outer ≠ Path.names path

end Bundle

namespace Directory

variable {d : Directory}

/-! ### Reading -/

/-- The files of a tree are apart: none is the root, and none is below another one. -/
structure Apart (d : Directory) : Prop where
  /-- The root is a directory. -/
  root : [] ∉ d.files.keys
  /-- No file is below another one. -/
  below : ∀ file ∈ d.files.keys, ∀ other ∈ d.files.keys, file <+: other → file = other

/-- A place is above a file. -/
def Above (d : Directory) (path : List String) : Prop :=
  path = [] ∨ ∃ file ∈ d.files.keys, path <+: file ∧ path ≠ file

theorem isDirectory_iff {path : List String} : d.isDirectory path = true ↔ d.Above path := by
  simp [isDirectory, Above]

/-- What there is at a place, with what is read there. -/
inductive Finding (d : Directory) (path : List String) : Except FileFault String → Prop
  /-- There is a file. -/
  | file {text : String} : d.files.get? path = some text → Finding d path (.ok text)
  /-- There is a directory. -/
  | directory : path ∉ d.files.keys → d.Above path → Finding d path (.error .isDirectory)
  /-- There is a file on the way. -/
  | through {file : List String} : path ∉ d.files.keys → ¬ d.Above path → file ∈ d.files.keys →
    file <+: path → Finding d path (.error .notDirectory)
  /-- There is nothing, neither above nor below. -/
  | missing : ¬ d.Above path → (∀ file ∈ d.files.keys, ¬ file <+: path) →
    Finding d path (.error .missing)

theorem finding_read (d : Directory) (path : List String) : d.Finding path (d.read path) := by
  unfold read
  split
  · rename_i text htext
    exact .file htext
  rename_i hnone
  have hmem : path ∉ d.files.keys := Table.get?_eq_none_iff.1 hnone
  split
  · rename_i habove
    exact .directory hmem (isDirectory_iff.1 habove)
  rename_i habove
  rw [isDirectory_iff] at habove
  split
  · rename_i hany
    obtain ⟨file, hfile, hpre⟩ := List.any_eq_true.1 hany
    exact .through hmem habove hfile (List.isPrefixOf_iff_prefix.1 hpre)
  · rename_i hany
    refine .missing habove fun file hfile hpre => hany ?_
    exact List.any_eq_true.2 ⟨file, hfile, List.isPrefixOf_iff_prefix.2 hpre⟩

theorem Finding.of_read {path : List String} {answer : Except FileFault String}
    (h : d.read path = answer) : d.Finding path answer :=
  h ▸ d.finding_read path

theorem read_eq_ok_iff {path : List String} {text : String} :
    d.read path = .ok text ↔ d.files.get? path = some text := by
  constructor
  · intro h
    cases Finding.of_read h with
    | file htext => exact htext
  · intro h
    rw [read, h]

theorem read_eq_isDirectory_iff {path : List String} :
    d.read path = .error .isDirectory ↔ path ∉ d.files.keys ∧ d.Above path := by
  constructor
  · intro h
    cases Finding.of_read h with
    | directory hmem habove => exact ⟨hmem, habove⟩
  · rintro ⟨hmem, habove⟩
    rw [read, Table.get?_eq_none_iff.2 hmem]
    exact if_pos (isDirectory_iff.2 habove)

theorem read_eq_missing_iff {path : List String} :
    d.read path = .error .missing ↔ ¬ d.Above path ∧ ∀ file ∈ d.files.keys, ¬ file <+: path := by
  constructor
  · intro h
    cases Finding.of_read h with
    | missing habove hnone => exact ⟨habove, hnone⟩
  · rintro ⟨habove, hnone⟩
    generalize hread : d.read path = answer
    cases Finding.of_read hread with
    | file => exact absurd (List.prefix_refl path) (hnone path (mem_keys_of_read hread))
    | directory _ h => exact absurd h habove
    | @through file _ _ hfile hpre => exact absurd hpre (hnone file hfile)
    | missing => rfl

theorem Above.of_append {path names : List String} (h : d.Above (path ++ names)) :
    d.Above path := by
  obtain hnil | ⟨file, hfile, hpre, hne⟩ := h
  · exact .inl (List.append_eq_nil_iff.1 hnil).1
  · have hpath : path <+: path ++ names := List.prefix_append _ _
    refine .inr ⟨file, hfile, hpath.trans hpre, ?_⟩
    rintro rfl
    exact hne (hpre.eq_of_length_le hpath.length_le)

/-- There is no directory at a file or below. -/
theorem Apart.not_above (hd : d.Apart) {file path : List String} (hfile : file ∈ d.files.keys)
    (hpre : file <+: path) : ¬ d.Above path := by
  rintro (rfl | ⟨other, hother, hpre', hne⟩)
  · exact hd.root (List.prefix_nil.1 hpre ▸ hfile)
  · obtain rfl := hd.below file hfile other hother (hpre.trans hpre')
    exact hne (hpre'.eq_of_length_le hpre.length_le)

/-- A path that leads on from a file leads through it. -/
theorem Apart.read_eq_notDirectory_iff (hd : d.Apart) {path : List String} :
    d.read path = .error .notDirectory ↔
      ∃ file ∈ d.files.keys, file <+: path ∧ file ≠ path := by
  constructor
  · intro h
    cases Finding.of_read h with
    | @through file hmem _ hfile hpre =>
      refine ⟨file, hfile, hpre, ?_⟩
      rintro rfl
      exact hmem hfile
  · rintro ⟨file, hfile, hpre, hne⟩
    generalize hread : d.read path = answer
    cases Finding.of_read hread with
    | file htext =>
      have hmem : path ∈ d.files.keys := mem_keys_of_read hread
      exact absurd (hd.below file hfile path hmem hpre) hne
    | directory _ habove => exact absurd habove (hd.not_above hfile hpre)
    | through => rfl
    | missing _ hnone => exact absurd hpre (hnone file hfile)

/-- Below a place that cannot be followed there is nothing but its fault. -/
theorem Apart.read_append (hd : d.Apart) {path names : List String} {fault : FileFault}
    (h : d.fault? path = some fault) (hne : names ≠ []) :
    d.read (path ++ names) = .error fault := by
  have hpre : path <+: path ++ names := List.prefix_append _ _
  have hlonger : path ≠ path ++ names := by simpa using hne
  have hfault := h
  unfold fault? at h
  generalize hread : d.read path = answer at h
  cases Finding.of_read hread with
  | file htext =>
    cases h
    exact hd.read_eq_notDirectory_iff.2 ⟨path, mem_keys_of_read hread, hpre, hlonger⟩
  | directory => cases h
  | @through file hmem _ hfile hfiles =>
    cases h
    refine hd.read_eq_notDirectory_iff.2 ⟨file, hfile, hfiles.trans hpre, ?_⟩
    rintro rfl
    exact hlonger (hfiles.eq_of_length_le hpre.length_le).symm
  | missing habove hnone =>
    cases h
    refine read_eq_missing_iff.2 ⟨fun h => habove h.of_append, fun file hfile hfiles => ?_⟩
    rcases List.prefix_or_prefix_of_prefix hfiles hpre with hup | hdown
    · exact hnone file hfile hup
    · by_cases hsame : path = file
      · exact hnone file hfile (hsame ▸ List.prefix_refl path)
      · exact habove (.inr ⟨file, hfile, hdown, hsame⟩)

/-! ### Following names -/

/-- A name that leads from a directory to what it names there. -/
structure IsName (name : String) : Prop where
  /-- It is not empty. -/
  nonempty : name ≠ ""
  /-- It does not stand for the directory itself. -/
  here : name ≠ "."
  /-- It does not lead back. -/
  up : name ≠ ".."
  /-- It is not too long. -/
  length : name.utf8ByteSize ≤ longestName

theorem IsName.step {name : String} (h : IsName name) (path : List String) :
    d.step (.inside path) name =
      match d.fault? path with
      | some fault => .error fault
      | none => .ok (.inside (path ++ [name])) := by
  have hstays : ¬ (name = "" ∨ name = ".") := by simp [h.nonempty, h.here]
  have hfollow : (Spot.inside path).follow name = .ok (.inside (path ++ [name])) := by
    unfold Spot.follow
    rw [if_neg hstays, if_neg h.up, if_neg (Nat.not_lt.2 h.length)]
  cases hfault : d.fault? path with
  | some fault => simp only [Directory.step, hfault]
  | none => simp only [Directory.step, hfault, hfollow]

/-- What is read at the place to which pieces have led. -/
def readSpot (d : Directory) : Spot → Except FileFault String
  | .outside => .error .isDirectory
  | .inside path => d.read path

theorem openFile_eq (d : Directory) (pieces : List String) :
    d.openFile pieces = (d.locate pieces).bind d.readSpot := by
  unfold openFile
  cases d.locate pieces with
  | error fault => rfl
  | ok spot => cases spot <;> rfl

/-- Following the names of a path comes to the same as reading what is at the whole path. -/
theorem Apart.foldlM_read (hd : d.Apart) {names : List String} (h : ∀ name ∈ names, IsName name)
    (path : List String) :
    (names.foldlM d.step (.inside path)).bind d.readSpot = d.read (path ++ names) := by
  induction names generalizing path with
  | nil =>
    rw [List.append_nil]
    rfl
  | cons name names ih =>
    rw [List.foldlM_cons, (h name List.mem_cons_self).step]
    cases hfault : d.fault? path with
    | some fault => exact (hd.read_append hfault (List.cons_ne_nil _ _)).symm
    | none =>
      have hrest := ih (fun n hn => h n (List.mem_cons_of_mem _ hn)) (path ++ [name])
      rw [List.append_assoc, List.singleton_append] at hrest
      exact hrest

/-! ### Paths that the system takes -/

/-- The system takes a path, given by its pieces. -/
structure Fits (pieces : List String) : Prop where
  /-- There is something. -/
  present : pieces ≠ [""]
  /-- No name holds a character that no name may hold. -/
  nul : ∀ piece ∈ pieces, '\x00' ∉ piece.toList
  /-- The path is not too long. -/
  length : pieces.foldr (fun piece n => piece.utf8ByteSize + 1 + n) 0 ≤ longestPath + 1
  /-- No name is too long. -/
  names : ∀ piece ∈ pieces, piece.utf8ByteSize ≤ longestName

/-- Where a path starts: outside of the tree if it starts with a slash. -/
def walk (d : Directory) : List String → Except FileFault Spot
  | "" :: pieces => pieces.foldlM d.step .outside
  | pieces => pieces.foldlM d.step (.inside [])

theorem Fits.locate {pieces : List String} (h : Fits pieces) : d.locate pieces = d.walk pieces := by
  have hnul : ¬ (pieces.any fun piece => piece.contains '\x00') = true := by
    simpa [String.contains_char_eq] using h.nul
  unfold Directory.locate
  dsimp only
  rw [if_neg hnul, if_neg (Nat.not_lt.2 h.length)]
  split
  · exact absurd rfl h.present
  · rfl
  · rename_i hempty
    rw [walk]
    exact hempty

/-- Whether the system takes a path does not depend on what there is in a tree. -/
theorem locate_congr {d d' : Directory} {pieces : List String}
    (h : d'.walk pieces = d.walk pieces) : d'.locate pieces = d.locate pieces := by
  unfold Directory.locate
  dsimp only
  split
  · rfl
  split
  · rfl
  split
  · rfl
  · exact h
  · rename_i hempty
    rwa [walk, walk] at h <;> exact hempty

/-- A piece that can be followed is not too long. -/
theorem length_of_step {spot spot' : Spot} {piece : String} (h : d.step spot piece = .ok spot') :
    piece.utf8ByteSize ≤ longestName := by
  have hfollow : ∀ spot : Spot, spot.follow piece = .ok spot' →
      piece.utf8ByteSize ≤ longestName := by
    intro spot h
    unfold Spot.follow at h
    split at h
    · rename_i hstays
      rcases hstays with rfl | rfl <;> decide
    · split at h
      · rename_i hup
        subst hup
        decide
      · split at h
        · cases h
        · rename_i hlength
          exact Nat.not_lt.1 hlength
  unfold step at h
  split at h
  · exact hfollow _ h
  · split at h
    · cases h
    · exact hfollow _ h

theorem length_of_foldlM {pieces : List String} {spot spot' : Spot}
    (h : pieces.foldlM d.step spot = .ok spot') : ∀ piece ∈ pieces,
      piece.utf8ByteSize ≤ longestName := by
  induction pieces generalizing spot with
  | nil => exact fun _ hpiece => absurd hpiece List.not_mem_nil
  | cons piece pieces ih =>
    rw [List.foldlM_cons] at h
    obtain ⟨next, hstep, hrest⟩ := bind_eq_ok.1 h
    intro p hp
    rcases List.mem_cons.1 hp with rfl | hp
    · exact length_of_step hstep
    · exact ih hrest p hp

/-- Outside of the tree no piece leads back into it. -/
theorem outside_of_foldlM {pieces : List String} {spot : Spot}
    (h : pieces.foldlM d.step .outside = .ok spot) : spot = .outside := by
  induction pieces with
  | nil => exact (Except.ok.inj h).symm
  | cons piece pieces ih =>
    rw [List.foldlM_cons] at h
    obtain ⟨next, hstep, hrest⟩ := bind_eq_ok.1 h
    have hnext : next = .outside := by
      unfold step Spot.follow at hstep
      dsimp only at hstep
      split at hstep
      · exact (Except.ok.inj hstep).symm
      · split at hstep
        · exact (Except.ok.inj hstep).symm
        · split at hstep <;> cases hstep
    exact ih (hnext ▸ hrest)

/-- A path that leads anywhere is one that the system takes. -/
theorem fits_of_locate {pieces : List String} {spot : Spot} (h : d.locate pieces = .ok spot) :
    Fits pieces := by
  unfold Directory.locate at h
  dsimp only at h
  split at h
  · cases h
  rename_i hnul
  split at h
  · cases h
  rename_i hlength
  have hnul' : ∀ piece ∈ pieces, '\x00' ∉ piece.toList := by
    simpa [String.contains_char_eq] using hnul
  have hlength' := Nat.not_lt.1 hlength
  split at h
  · cases h
  · rename_i rest hne
    have hpresent : "" :: rest ≠ [""] := fun he => hne (List.cons.inj he).2
    refine ⟨hpresent, hnul', hlength', fun piece hpiece => ?_⟩
    rcases List.mem_cons.1 hpiece with rfl | hpiece
    · decide
    · exact length_of_foldlM h piece hpiece
  · rename_i hne _
    exact ⟨hne, hnul', hlength', length_of_foldlM h⟩

/-- A path that does not start with a slash starts in the tree. -/
theorem walk_of_head? {pieces : List String} (h : pieces.head? ≠ some "") :
    d.walk pieces = pieces.foldlM d.step (.inside []) := by
  unfold walk
  split
  · exact absurd rfl h
  · rfl

/-- A path that leads into the tree does not start with a slash. -/
theorem head?_of_walk {pieces file : List String} (h : d.walk pieces = .ok (.inside file)) :
    pieces.head? ≠ some "" := by
  intro hhead
  obtain ⟨rest, rfl⟩ := List.head?_eq_some_iff.1 hhead
  cases outside_of_foldlM h

/-- From a place that a root leads to, more pieces lead on as from anywhere else. -/
theorem Fits.locate_append {root pieces base : List String}
    (hroot : d.locate root = .ok (.inside base)) (h : Fits (root ++ pieces))
    (hrelative : root = [] → "" ∉ pieces) :
    d.locate (root ++ pieces) = pieces.foldlM d.step (.inside base) := by
  rw [(fits_of_locate hroot).locate] at hroot
  have hbegin := head?_of_walk hroot
  have hhead : (root ++ pieces).head? ≠ some "" := by
    cases root with
    | nil => exact fun hhead => hrelative rfl (List.mem_of_mem_head? hhead)
    | cons first root => exact hbegin
  rw [walk_of_head? hbegin] at hroot
  rw [h.locate, walk_of_head? hhead, List.foldlM_append, hroot]
  rfl

end Directory

/-- The names of a path are names for the system, if it takes the path and this leads not back. -/
theorem Path.isName_of_mem_names {root : List String} {path name : String}
    (h : Directory.Fits (root ++ Directory.modulePieces path)) (hup : ".." ∉ names path)
    (hname : name ∈ names path) : Directory.IsName name := by
  obtain ⟨piece, hpiece, rfl⟩ := List.mem_map.1 hname
  obtain ⟨hempty, hdot⟩ := Directory.ne_of_mem_components hpiece
  have hpieces : Directory.modulePieces path = names path :=
    Directory.modulePieces_of_components (List.ne_nil_of_mem hpiece)
  refine ⟨hempty, hdot, fun he => hup (he ▸ hname), h.names _ ?_⟩
  rw [hpieces]
  exact List.mem_append_right _ hname

namespace Directory

variable {d : Directory} {root base : List String} {b : Bundle}

/-- A root leads to a directory whose files are the modules of a bundle, at the places that their
names lead to. No module is at a path that leads back, and the system takes their paths. -/
structure Keeps (d : Directory) (root base : List String) (b : Bundle) : Prop where
  /-- The files of the tree are apart. -/
  apart : d.Apart
  /-- The root leads to a place. -/
  leads : d.locate root = .ok (.inside base)
  /-- There is a directory. -/
  directory : d.read base = .error .isDirectory
  /-- The files there are the modules. -/
  holds : ∀ names text, d.files.get? (base ++ names) = some text ↔
    ∃ path, b.fetch path = .ok text ∧ Path.names path = names
  /-- No module is at a path that leads back. -/
  ahead : ∀ {path text}, b.fetch path = .ok text → ".." ∉ Path.names path
  /-- The system takes the paths of modules. -/
  fits : ∀ {path text}, b.fetch path = .ok text → Fits (root ++ modulePieces path)

namespace Keeps

variable {path : String}

/-- Modules are known by their names. -/
theorem get?_eq_some_iff (h : d.Keeps root base b) {text : String} :
    d.files.get? (base ++ Path.names path) = some text ↔ b.fetch path = .ok text := by
  rw [h.holds]
  constructor
  · rintro ⟨other, hother, hnames⟩
    rw [Bundle.fetch_eq_ok_iff] at hother ⊢
    rw [← Path.canonical_eq_of_names hnames, hother]
  · exact fun hfetch => ⟨path, hfetch, rfl⟩

/-- A path that the system takes is read at the place of its names. -/
theorem openFile_eq (h : d.Keeps root base b) (hfits : Fits (root ++ modulePieces path))
    (hup : ".." ∉ Path.names path) :
    d.openFile (root ++ modulePieces path) = d.read (base ++ Path.names path) := by
  rw [Directory.openFile_eq]
  by_cases hempty : Path.components path.toList = []
  · have hnames : Path.names path = [] := by rw [Path.names, hempty]; rfl
    have hpieces := modulePieces_of_empty hempty
    rw [hpieces] at hfits ⊢
    have hrelative : root = [] → "" ∉ [""] := by
      rintro rfl
      exact absurd rfl hfits.present
    have hnofault : d.fault? base = none := by rw [fault?, h.directory]
    have hstays : d.step (.inside base) "" = .ok (.inside base) := by
      unfold step
      dsimp only
      rw [hnofault]
      exact if_pos (.inl rfl)
    rw [hfits.locate_append h.leads hrelative, List.foldlM_cons, hstays, hnames, List.append_nil]
    rfl
  · have hpieces : modulePieces path = Path.names path := modulePieces_of_components hempty
    have hisname : ∀ name ∈ Path.names path, IsName name := fun name hname =>
      Path.isName_of_mem_names hfits hup hname
    rw [hpieces] at hfits ⊢
    rw [hfits.locate_append h.leads fun _ hmem => (hisname _ hmem).nonempty rfl]
    exact h.apart.foldlM_read hisname base

/-- Below the directory, the places above files are the directories of the bundle. -/
theorem above_iff (h : d.Keeps root base b) :
    d.Above (base ++ Path.names path) ↔ b.Above path := by
  constructor
  · rintro (hnil | ⟨file, hfile, hpre, hne⟩)
    · exact .inl (List.append_eq_nil_iff.1 hnil).2
    · obtain ⟨names, rfl⟩ := (List.prefix_append base _).trans hpre
      obtain ⟨text, htext⟩ := Option.isSome_iff_exists.1 (Table.isSome_get?_iff.2 hfile)
      obtain ⟨below, hbelow, rfl⟩ := (h.holds _ _).1 htext
      refine .inr ⟨below, text, hbelow, (List.prefix_append_right_inj base).1 hpre, ?_⟩
      exact fun he => hne (congrArg (base ++ ·) he)
  · rintro (hnil | ⟨below, text, hbelow, hpre, hne⟩)
    · rw [hnil, List.append_nil]
      exact (read_eq_isDirectory_iff.1 h.directory).2
    · have hfile : base ++ Path.names below ∈ d.files.keys := by
        rw [← Table.isSome_get?_iff, h.get?_eq_some_iff.2 hbelow]
        rfl
      refine .inr ⟨_, hfile, (List.prefix_append_right_inj base).2 hpre, fun he => hne ?_⟩
      exact List.append_cancel_left he

/-- The files on the way to a place below the directory are modules of the bundle. -/
theorem through_iff (h : d.Keeps root base b) (hup : ".." ∉ Path.names path) :
    (∃ file ∈ d.files.keys, file <+: base ++ Path.names path ∧ file ≠ base ++ Path.names path) ↔
      b.Through path := by
  constructor
  · rintro ⟨file, hfile, hpre, hne⟩
    -- No file is on the way to the directory itself.
    have hbase : base <+: file := by
      rcases List.prefix_or_prefix_of_prefix hpre (List.prefix_append base _) with hup | hdown
      · exact absurd (read_eq_isDirectory_iff.1 h.directory).2 (h.apart.not_above hfile hup)
      · exact hdown
    obtain ⟨names, rfl⟩ := hbase
    obtain ⟨text, htext⟩ := Option.isSome_iff_exists.1 (Table.isSome_get?_iff.2 hfile)
    obtain ⟨outer, houter, rfl⟩ := (h.holds _ _).1 htext
    refine ⟨hup, outer, text, houter, (List.prefix_append_right_inj base).1 hpre, ?_⟩
    exact fun he => hne (congrArg (base ++ ·) he)
  · rintro ⟨-, outer, text, houter, hpre, hne⟩
    have hfile : base ++ Path.names outer ∈ d.files.keys := by
      rw [← Table.isSome_get?_iff, h.get?_eq_some_iff.2 houter]
      rfl
    refine ⟨_, hfile, (List.prefix_append_right_inj base).2 hpre, fun he => hne ?_⟩
    exact List.append_cancel_left he

end Keeps

/-- A path leads back if one of its names does. -/
theorem up_mem_modulePieces {path : String} :
    ".." ∈ modulePieces path ↔ ".." ∈ Path.names path := by
  by_cases hempty : Path.components path.toList = []
  · rw [modulePieces_of_empty hempty, Path.names, hempty]
    decide
  · rw [modulePieces_of_components hempty]
    rfl

theorem fetch_of_up {path : String} (hup : ".." ∈ Path.names path) :
    d.fetch root path = .error (.notFound path) := by
  have hcontains : (modulePieces path).contains ".." = true := by
    simpa using up_mem_modulePieces.2 hup
  rw [fetch, if_pos hcontains]

theorem fetch_of_ahead {path : String} (hup : ".." ∉ Path.names path) :
    d.fetch root path = LoadError.ofFile path (d.openFile (root ++ modulePieces path)) := by
  have hcontains : ¬ (modulePieces path).contains ".." = true := by
    simpa [up_mem_modulePieces] using hup
  rw [fetch, if_neg hcontains]

namespace Keeps

variable {path : String}

/-- What the loader answers is what is read at the place of the names. -/
theorem fetch_eq (h : d.Keeps root base b) (hfits : Fits (root ++ modulePieces path))
    (hup : ".." ∉ Path.names path) :
    d.fetch root path = LoadError.ofFile path (d.read (base ++ Path.names path)) := by
  rw [fetch_of_ahead hup, h.openFile_eq hfits hup]

/-- The loader finds the modules of the bundle, and no others. -/
theorem fetch_eq_ok_iff (h : d.Keeps root base b) {text : String} :
    d.fetch root path = .ok text ↔ b.fetch path = .ok text := by
  have hread : d.read (base ++ Path.names path) = .ok text ↔ b.fetch path = .ok text :=
    read_eq_ok_iff.trans h.get?_eq_some_iff
  constructor
  · intro hfetch
    have hup : ".." ∉ Path.names path := by
      intro hup
      rw [fetch_of_up hup] at hfetch
      cases hfetch
    -- The system has taken the path, since it has led to a file.
    have hfits : Fits (root ++ modulePieces path) := by
      rw [fetch_of_ahead hup] at hfetch
      have hopen := LoadError.eq_ok_of_ofFile hfetch
      unfold openFile at hopen
      split at hopen
      · cases hopen
      all_goals exact fits_of_locate ‹_›
    rw [h.fetch_eq hfits hup] at hfetch
    exact hread.1 (LoadError.eq_ok_of_ofFile hfetch)
  · intro hfetch
    rw [h.fetch_eq (h.fits hfetch) (h.ahead hfetch), hread.2 hfetch]
    rfl

theorem read_eq_isDirectory_iff (h : d.Keeps root base b) :
    d.read (base ++ Path.names path) = .error .isDirectory ↔ b.Above path := by
  rw [Directory.read_eq_isDirectory_iff, h.above_iff, and_iff_right_iff_imp]
  exact fun habove hmem =>
    h.apart.not_above hmem (List.prefix_refl _) (h.above_iff.2 habove)

theorem read_eq_notDirectory_iff (h : d.Keeps root base b) (hup : ".." ∉ Path.names path) :
    d.read (base ++ Path.names path) = .error .notDirectory ↔ b.Through path :=
  h.apart.read_eq_notDirectory_iff.trans (h.through_iff hup)

/-- Nothing is found where there is no module, no directory, and no module on the way. -/
theorem read_eq_missing_iff (h : d.Keeps root base b) (hup : ".." ∉ Path.names path) :
    d.read (base ++ Path.names path) = .error .missing ↔
      (∀ text, b.fetch path ≠ .ok text) ∧ ¬ b.Above path ∧ ¬ b.Through path := by
  have hmodule : ∀ text, b.fetch path = .ok text ↔
      d.read (base ++ Path.names path) = .ok text := fun text =>
    h.get?_eq_some_iff.symm.trans Directory.read_eq_ok_iff.symm
  simp only [ne_eq, hmodule, ← h.read_eq_isDirectory_iff, ← h.read_eq_notDirectory_iff hup]
  generalize hread : d.read (base ++ Path.names path) = answer
  cases Finding.of_read hread <;> simp

/-- The bundle has nothing at a path that leads back. -/
theorem fetch_of_up (h : d.Keeps root base b) (hup : ".." ∈ Path.names path) :
    (∀ text, b.fetch path ≠ .ok text) ∧ ¬ b.Above path ∧ ¬ b.Through path := by
  refine ⟨fun text hfetch => h.ahead hfetch hup, ?_, fun hthrough => hthrough.1 hup⟩
  rintro (hnil | ⟨below, text, hbelow, hpre, -⟩)
  · rw [hnil] at hup
    cases hup
  · exact h.ahead hbelow (hpre.subset hup)

end Keeps

/-- **A directory gives the modules of the bundle that it holds**, and no others: where the bundle
has a module, a loader over the directory answers with the same source; where it has none, the
loader fails as the bundle does. The bundle then always says that there is no module. Of the paths
that the system takes, the loader says this of those that lead nowhere. Where the path names a
directory, or runs through a module, it fails with the fault that the system reports. -/
theorem fetch_of_bundle (h : d.Keeps root base b) (path : String) :
    (∀ text, d.fetch root path = .ok text ↔ b.fetch path = .ok text) ∧
      (b.fetch path = .error (.notFound path) ↔ ∀ text, d.fetch root path ≠ .ok text) ∧
      (Fits (root ++ modulePieces path) →
        (d.fetch root path = .error (.notFound path) ↔
          b.fetch path = .error (.notFound path) ∧ ¬ b.Above path ∧ ¬ b.Through path) ∧
        (d.fetch root path = .error (.io path .isDirectory) ↔ b.Above path) ∧
        (d.fetch root path = .error (.io path .notDirectory) ↔ b.Through path)) := by
  have hnone : b.fetch path = .error (.notFound path) ↔ ∀ text, b.fetch path ≠ .ok text := by
    simp [Bundle.fetch_eq_error_iff]
  refine ⟨fun text => h.fetch_eq_ok_iff, ?_, fun hfits => ?_⟩
  · simp only [hnone, ne_eq, h.fetch_eq_ok_iff]
  rw [hnone]
  by_cases hup : ".." ∈ Path.names path
  · obtain ⟨hmodule, habove, hthrough⟩ := h.fetch_of_up hup
    rw [Directory.fetch_of_up hup]
    simp [hmodule, habove, hthrough]
  · rw [h.fetch_eq hfits hup, LoadError.ofFile_eq_notFound_iff, LoadError.ofFile_eq_io_iff,
      LoadError.ofFile_eq_io_iff, h.read_eq_missing_iff hup, h.read_eq_isDirectory_iff,
      h.read_eq_notDirectory_iff hup]
    simp

end Directory

/-- Two modules, one of them in a directory. -/
def drawerModules : List (String × String) :=
  [("main", "LET A := 1;"), ("d/x", "LET B := 2;")]

/-- The modules in memory. -/
def drawerBundle : Bundle :=
  .ofList drawerModules

/-- The modules as files. -/
def drawer : Directory :=
  .ofList drawerModules

/-- The files are the modules, under the names in their paths. -/
theorem drawer_holds {path text : String} (h : drawerBundle.fetch path = .ok text) :
    (Path.canonical path = "main" ∧ text = "LET A := 1;" ∨
      Path.canonical path = "d/x" ∧ text = "LET B := 2;") ∧
    Path.names path = Directory.named (Directory.pieces (Path.canonical path)) := by
  rw [Bundle.fetch_eq_ok_iff, Table.get?_eq_some_iff] at h
  have hmem : (Path.canonical path, text) ∈ drawerModules := h
  exact ⟨by simpa [drawerModules] using hmem, (Directory.named_modulePieces path).symm⟩

theorem keeps_drawer : drawer.Keeps ["."] [] drawerBundle where
  apart := ⟨by decide +kernel, by decide +kernel⟩
  leads := by
    have hfits : Directory.Fits ["."] := ⟨by decide, by decide, by decide, by decide⟩
    rw [hfits.locate]
    exact eq_ok_of_toOption (by decide +kernel)
  directory := Directory.read_eq_isDirectory_iff.2 ⟨by decide +kernel, .inl rfl⟩
  holds names text := by
    constructor
    · intro h
      rw [List.nil_append, Table.get?_eq_some_iff] at h
      have hmem : (names, text) ∈ [(["main"], "LET A := 1;"), (["d", "x"], "LET B := 2;")] := h
      simp only [List.mem_cons, Prod.mk.injEq, List.not_mem_nil, or_false] at hmem
      rcases hmem with ⟨rfl, rfl⟩ | ⟨rfl, rfl⟩
      · exact ⟨"main", Bundle.fetch_eq_ok_iff.2 (by decide +kernel), by decide +kernel⟩
      · exact ⟨"d/x", Bundle.fetch_eq_ok_iff.2 (by decide +kernel), by decide +kernel⟩
    · rintro ⟨path, hfetch, rfl⟩
      obtain ⟨⟨hpath, rfl⟩ | ⟨hpath, rfl⟩, hnames⟩ := drawer_holds hfetch <;> rw [hnames, hpath] <;>
        decide +kernel
  ahead {path text} hfetch := by
    obtain ⟨⟨hpath, -⟩ | ⟨hpath, -⟩, hnames⟩ := drawer_holds hfetch <;> rw [hnames, hpath] <;>
      decide +kernel
  fits {path text} hfetch := by
    unfold Directory.modulePieces
    obtain ⟨⟨hpath, -⟩ | ⟨hpath, -⟩, -⟩ := drawer_holds hfetch <;> rw [hpath] <;>
      exact ⟨by decide +kernel, by decide +kernel, by decide +kernel, by decide +kernel⟩

theorem drawer_gives_modules : drawer.Keeps ["."] [] drawerBundle ∧
    drawer.fetch ["."] "./d//x" = .ok "LET B := 2;" ∧
    Directory.Fits (["."] ++ Directory.modulePieces "e") ∧
    drawer.fetch ["."] "e" = .error (.notFound "e") ∧
    Directory.Fits (["."] ++ Directory.modulePieces "main/x") ∧
    drawer.fetch ["."] "main/x" = .error (.io "main/x" .notDirectory) := by
  have hmain : drawerBundle.fetch "main" = .ok "LET A := 1;" :=
    Bundle.fetch_eq_ok_iff.2 (by decide +kernel)
  have hx : drawerBundle.fetch "./d//x" = .ok "LET B := 2;" :=
    Bundle.fetch_eq_ok_iff.2 (by decide +kernel)
  have hfits : Directory.Fits (["."] ++ Directory.modulePieces "e") :=
    ⟨by decide +kernel, by decide +kernel, by decide +kernel, by decide +kernel⟩
  have hfits' : Directory.Fits (["."] ++ Directory.modulePieces "main/x") :=
    ⟨by decide +kernel, by decide +kernel, by decide +kernel, by decide +kernel⟩
  have hnone : drawerBundle.fetch "e" = .error (.notFound "e") := by rfl
  have habove : ¬ drawerBundle.Above "e" := by
    rintro (hnil | ⟨below, text, hbelow, hpre, -⟩)
    · exact absurd hnil (by decide +kernel)
    · obtain ⟨⟨hpath, -⟩ | ⟨hpath, -⟩, hnames⟩ := drawer_holds hbelow <;>
        rw [hnames, hpath] at hpre <;> exact absurd hpre (by decide +kernel)
  have hthrough : ¬ drawerBundle.Through "e" := by
    rintro ⟨-, outer, text, houter, hpre, -⟩
    obtain ⟨⟨hpath, -⟩ | ⟨hpath, -⟩, hnames⟩ := drawer_holds houter <;>
      rw [hnames, hpath] at hpre <;> exact absurd hpre (by decide +kernel)
  have hthrough' : drawerBundle.Through "main/x" :=
    ⟨by decide +kernel, "main", _, hmain, by decide +kernel, by decide +kernel⟩
  obtain ⟨hok, -, -⟩ := Directory.fetch_of_bundle keeps_drawer "./d//x"
  obtain ⟨-, -, hmissing⟩ := Directory.fetch_of_bundle keeps_drawer "e"
  obtain ⟨-, -, hfault⟩ := Directory.fetch_of_bundle keeps_drawer "main/x"
  exact ⟨keeps_drawer, (hok _).2 hx, hfits, (hmissing hfits).1.2 ⟨hnone, habove, hthrough⟩, hfits',
    (hfault hfits').2.2.2 hthrough'⟩

/-- A directory is no module. The bundle says so, and the loader over the directory fails. -/
theorem drawer_differs : drawer.Keeps ["."] [] drawerBundle ∧
    drawerBundle.fetch "d" = .error (.notFound "d") ∧
    drawer.fetch ["."] "d" = .error (.io "d" .isDirectory) := by
  have hfits : Directory.Fits (["."] ++ Directory.modulePieces "d") :=
    ⟨by decide +kernel, by decide +kernel, by decide +kernel, by decide +kernel⟩
  have hplace : drawer.read ([] ++ Path.names "d") = .error .isDirectory :=
    Directory.read_eq_isDirectory_iff.2
      ⟨by decide +kernel, Directory.isDirectory_iff.1 (by decide +kernel)⟩
  refine ⟨keeps_drawer, by rfl, ?_⟩
  rw [keeps_drawer.fetch_eq hfits (by decide +kernel), hplace]
  rfl

end GatedRules
