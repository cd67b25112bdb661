import GatedRules.Source.Loader
import GatedRules.Table

/-!
# Directory trees

A tree of text files below one directory. A file is known by the components of its path, and the
directories are the proper beginnings of those. A path of the file system is followed piece by
piece, and every piece but the last has to lead to a directory, also when `..` leads back from it.
Outside of the tree nothing is known but that there are directories.

A module path that contains `..` is never followed below the root of a loader: no module is found
there.
-/

namespace GatedRules

/-- The text files below a directory, by the components of their paths. -/
structure Directory where
  /-- The texts of the files. -/
  files : Table (List String) String

namespace Directory

/-- The pieces of a path of the file system between slashes. -/
def pieces (path : String) : List String :=
  (Text.split (· = '/') path.toList).map String.ofList

/-- The components of the path of a file: the pieces that name something. -/
def components (path : String) : List String :=
  (pieces path).filter fun piece => piece ≠ "" && piece ≠ "."

/-- The tree of a list of paths and texts, written one after the other. -/
def ofList (files : List (String × String)) : Directory :=
  ⟨Table.ofList (files.map fun f => (components f.1, f.2))⟩

/-- Whether there is a directory at a path. -/
def isDirectory (d : Directory) (path : List String) : Bool :=
  path.isEmpty || d.files.keys.any fun file => path.isPrefixOf file && path ≠ file

/-- Read the file at a path. -/
def read (d : Directory) (path : List String) : Except FileFault String :=
  match d.files.get? path with
  | some text => .ok text
  | none =>
    if d.isDirectory path then .error .isDirectory
    else if d.files.keys.any fun file => file.isPrefixOf path then .error .notDirectory
    else .error .missing

theorem mem_keys_of_read {d : Directory} {path : List String} {text : String}
    (h : d.read path = .ok text) : path ∈ d.files.keys := by
  unfold read at h
  split at h
  · rename_i hs
    exact List.mem_map.2 ⟨_, Table.get?_eq_some_iff.1 hs, rfl⟩
  · split at h
    · cases h
    · split at h <;> cases h

theorem mem_values_of_read {d : Directory} {path : List String} {text : String}
    (h : d.read path = .ok text) : text ∈ d.files.values := by
  unfold read at h
  split at h
  · rename_i hs
    cases h
    exact List.mem_map.2 ⟨_, Table.get?_eq_some_iff.1 hs, rfl⟩
  · split at h
    · cases h
    · split at h <;> cases h

/-! ### Paths of the file system -/

/-- What the pieces of a path have led to. -/
inductive Spot
  /-- Something with a path in the tree, if there is anything at that path. -/
  | inside (path : List String)
  /-- A directory outside of the tree. -/
  | outside
deriving DecidableEq, Repr

/-- The longest name in a path, in bytes. -/
def longestName : Nat :=
  255

/-- The longest path, in bytes. -/
def longestPath : Nat :=
  4095

/-- Why nothing can follow a place in the tree: only a directory leads on. -/
def fault? (d : Directory) (path : List String) : Option FileFault :=
  match d.read path with
  | .error .isDirectory => none
  | .error fault => some fault
  | .ok _ => some .notDirectory

/-- Follow one more piece of a path from a directory. -/
def Spot.follow (spot : Spot) (piece : String) : Except FileFault Spot :=
  if piece = "" ∨ piece = "." then .ok spot
  else if piece = ".." then
    match spot with
    | outside | inside [] => .ok outside
    | inside path => .ok (inside path.dropLast)
  else if longestName < piece.utf8ByteSize then .error .nameTooLong
  else
    match spot with
    | outside => .error .missing
    | inside path => .ok (inside (path ++ [piece]))

/-- Follow one more piece of a path. -/
def step (d : Directory) (spot : Spot) (piece : String) : Except FileFault Spot :=
  match spot with
  | .outside => Spot.outside.follow piece
  | .inside path =>
    match d.fault? path with
    | some fault => .error fault
    | none => (Spot.inside path).follow piece

/-- Follow the pieces of a path. A path that starts with a slash starts outside of the tree, and the
empty path leads nowhere. -/
def locate (d : Directory) (pieces : List String) : Except FileFault Spot :=
  let length := pieces.foldr (fun piece n => piece.utf8ByteSize + 1 + n) 0
  if pieces.any fun piece => piece.contains '\x00' then .error .nulCharacter
  else if longestPath + 1 < length then .error .nameTooLong
  else
    match pieces with
    | [""] => .error .missing
    | "" :: pieces => pieces.foldlM d.step .outside
    | pieces => pieces.foldlM d.step (.inside [])

/-- Read the file to which the pieces of a path lead. -/
def openFile (d : Directory) (pieces : List String) : Except FileFault String :=
  match d.locate pieces with
  | .error fault => .error fault
  | .ok .outside => .error .isDirectory
  | .ok (.inside path) => d.read path

theorem mem_values_of_openFile {d : Directory} {pieces : List String} {text : String}
    (h : d.openFile pieces = .ok text) : text ∈ d.files.values := by
  unfold openFile at h
  split at h
  · cases h
  · cases h
  · exact mem_values_of_read h

/-! ### Modules -/

/-- The pieces of a module path below a root. The empty path means the root itself, as a
directory. -/
def modulePieces (path : String) : List String :=
  pieces (Path.canonical path)

/-- The source of the module at a path below a root, which is given by its pieces. -/
def fetch (d : Directory) (root : List String) (path : String) : Except LoadError String :=
  if (modulePieces path).contains ".." then .error (.notFound path)
  else LoadError.ofFile path (d.openFile (root ++ modulePieces path))

theorem mem_values_of_fetch {d : Directory} {root : List String} {path source : String}
    (h : d.fetch root path = .ok source) : source ∈ d.files.values := by
  unfold fetch at h
  split at h
  · cases h
  · exact mem_values_of_openFile (LoadError.eq_ok_of_ofFile h)

/-! ### Where modules are -/

/-- The pieces that name something. -/
def named (pieces : List String) : List String :=
  pieces.filter fun piece => piece ≠ "" && piece ≠ "."

/-- A piece other than `..` leads from a place in the tree to the place that it names there. -/
theorem step_eq_ok {d : Directory} {spot spot' : Spot} {piece : String}
    (h : d.step spot piece = .ok spot') (hup : piece ≠ "..") :
    spot = .outside ∧ spot' = .outside ∨
      ∃ path, spot = .inside path ∧ spot' = .inside (path ++ named [piece]) := by
  have hnamed : named [piece] = if piece = "" ∨ piece = "." then [] else [piece] := by
    by_cases hempty : piece = ""
    · simp [named, hempty]
    · by_cases hdot : piece = "." <;> simp [named, hempty, hdot]
  rw [hnamed]
  unfold step Spot.follow at h
  rw [if_neg hup] at h
  split at h
  · split at h
    · cases h
      exact .inl ⟨rfl, rfl⟩
    · split at h <;> cases h
  · rename_i path
    refine .inr ⟨path, rfl, ?_⟩
    split at h
    · cases h
    · split at h
      · rename_i hnone
        cases h
        rw [if_pos hnone, List.append_nil]
      · rename_i hsome
        split at h
        · cases h
        · cases h
          rw [if_neg hsome]

/-- Pieces without `..` lead into the tree only from within, to the place that they name. -/
theorem inside_of_foldlM {d : Directory} {pieces path : List String} {spot : Spot}
    (h : pieces.foldlM d.step spot = .ok (.inside path)) (hup : ".." ∉ pieces) :
    ∃ base, spot = .inside base ∧ path = base ++ named pieces := by
  induction pieces generalizing spot with
  | nil =>
    cases h
    exact ⟨path, rfl, (List.append_nil path).symm⟩
  | cons piece pieces ih =>
    rw [List.foldlM_cons] at h
    cases hs : d.step spot piece with
    | error fault =>
      rw [hs] at h
      cases h
    | ok spot' =>
      rw [hs] at h
      obtain ⟨base, rfl, hp⟩ := ih h fun hm => hup (List.mem_cons_of_mem _ hm)
      have hne : piece ≠ ".." := fun he => hup (he ▸ List.mem_cons_self)
      rcases step_eq_ok hs hne with ⟨-, hout⟩ | ⟨base', rfl, hin⟩
      · cases hout
      · cases hin
        refine ⟨base', rfl, ?_⟩
        rw [hp, List.append_assoc, named, named, ← List.filter_append]
        rfl

/-- Pieces that lead to a place in the tree end with the names of the place. -/
theorem locate_eq_ok {d : Directory} {root pieces path : List String}
    (h : d.locate (root ++ pieces) = .ok (.inside path)) (hup : ".." ∉ pieces) :
    ∃ base, path = base ++ named pieces := by
  have hfold : ∀ spot first, (first ++ pieces).foldlM d.step spot = .ok (.inside path) →
      ∃ base, path = base ++ named pieces := by
    intro spot first hf
    rw [List.foldlM_append] at hf
    cases hs : first.foldlM d.step spot with
    | error fault =>
      rw [hs] at hf
      cases hf
    | ok spot' =>
      rw [hs] at hf
      obtain ⟨base, -, hp⟩ := inside_of_foldlM hf hup
      exact ⟨base, hp⟩
  unfold locate at h
  dsimp only at h
  split at h
  · cases h
  split at h
  · cases h
  split at h
  · cases h
  · rename_i rest hne heq
    -- The path starts with a slash. The empty piece before it belongs to the root, unless the root
    -- has no pieces.
    cases root with
    | nil =>
      have heq : pieces = "" :: rest := heq
      have hrest : ".." ∉ rest := fun hm => hup (heq ▸ List.mem_cons_of_mem _ hm)
      obtain ⟨base, -, hp⟩ := inside_of_foldlM h hrest
      refine ⟨base, ?_⟩
      rw [hp, heq]
      rfl
    | cons first root =>
      obtain ⟨-, rfl⟩ := List.cons.inj heq
      exact hfold .outside root h
  · exact hfold (.inside []) root h

theorem slash_not_mem_of_mem_components {cs piece : List Char} (h : piece ∈ Path.components cs) :
    ∀ c ∈ piece, decide (c = '/') = false := by
  intro c hc
  rw [decide_eq_false_iff_not]
  rintro rfl
  have hslash : Path.isSlash '/' = true := by decide
  exact Text.not_mem_of_mem_split (List.mem_filter.1 h).1 hslash hc

/-- The pieces of a module path are its components, if it has any. -/
theorem modulePieces_of_components {path : String} (hne : Path.components path.toList ≠ []) :
    modulePieces path = (Path.components path.toList).map String.ofList := by
  have hchars : (Path.canonical path).toList = Text.joined ['/'] (Path.components path.toList) := by
    rw [Path.canonical, String.toList_ofList]
    rfl
  have hslash : decide ('/' = '/') = true := rfl
  rw [modulePieces, pieces, hchars,
    Text.split_joined hslash hne fun cs hcs => slash_not_mem_of_mem_components hcs]

/-- The path without components has one piece, which is empty. -/
theorem modulePieces_of_empty {path : String} (h : Path.components path.toList = []) :
    modulePieces path = [""] := by
  rw [modulePieces, Path.canonical, Path.canonicalChars, h]
  decide

/-- A component of a path names something. -/
theorem ne_of_mem_components {cs piece : List Char} (h : piece ∈ Path.components cs) :
    String.ofList piece ≠ "" ∧ String.ofList piece ≠ "." := by
  have htext : ∀ ds : List Char, String.ofList piece = String.ofList ds ↔ piece = ds :=
    fun ds => String.ofList_inj
  have hempty : String.ofList piece = "" ↔ piece = [] := htext []
  have hdot : String.ofList piece = "." ↔ piece = ['.'] := htext ['.']
  simpa [hempty, hdot] using (List.mem_filter.1 h).2

/-- The names in the pieces of a module path are the components of the path. -/
theorem named_modulePieces (path : String) :
    named (modulePieces path) = (Path.components path.toList).map String.ofList := by
  by_cases hne : Path.components path.toList = []
  · rw [modulePieces_of_empty hne, hne]
    decide
  · rw [modulePieces_of_components hne, named, List.filter_eq_self]
    intro piece hpiece
    obtain ⟨cs, hcs, rfl⟩ := List.mem_map.1 hpiece
    simpa using ne_of_mem_components hcs

theorem joinedText_components (path : String) :
    Text.joinedText "/" ((Path.components path.toList).map String.ofList) =
      Path.canonical path := by
  have hid : ((Path.components path.toList).map String.ofList).map String.toList =
      Path.components path.toList := by
    rw [List.map_map]
    exact (List.map_congr_left fun cs _ => String.toList_ofList).trans (List.map_id _)
  rw [Text.joinedText, hid]
  rfl

/-- The paths of files with respect to all directories above them. -/
def modulePaths (d : Directory) : List String :=
  d.files.keys.flatMap fun file =>
    (List.range (file.length + 1)).map fun n => Text.joinedText "/" (file.drop n)

/-- Every file that a module is read from is found at the module's canonical path, with respect to
some directory above it. -/
theorem mem_modulePaths_of_fetch {d : Directory} {root : List String} {path source : String}
    (h : d.fetch root path = .ok source) : Path.canonical path ∈ d.modulePaths := by
  unfold fetch at h
  split at h
  · cases h
  rename_i hup
  have hopen := LoadError.eq_ok_of_ofFile h
  unfold openFile at hopen
  split at hopen
  · cases hopen
  · cases hopen
  rename_i file hlocate
  obtain ⟨base, hfile⟩ := locate_eq_ok hlocate (by simpa using hup)
  rw [named_modulePieces] at hfile
  refine List.mem_flatMap.2 ⟨file, mem_keys_of_read hopen, List.mem_map.2 ⟨base.length, ?_, ?_⟩⟩
  · rw [List.mem_range, hfile, List.length_append]
    omega
  · rw [hfile, List.drop_left, joinedText_components]

/-- The modules below a root as a loader. -/
def loader (d : Directory) (root : List String) : Loader :=
  ⟨d.fetch root, d.files.values, mem_values_of_fetch, d.modulePaths, mem_modulePaths_of_fetch⟩

theorem loader_fetch (d : Directory) (root : List String) (path : String) :
    (d.loader root).fetch path = d.fetch root path := by
  unfold loader
  with_reducible rfl

end Directory

end GatedRules
