-- SUMMARY: A file system with symbolic links: path resolution (realpath and the kernel's lookup), listing, glob, and when resolution changes nothing.
import LocalRag.Base.PurePath
import Mathlib.Data.List.AList
import Mathlib.Data.List.Dedup

/-!
# File system

A location is the list of names from the root. Regular files, directories and
symbolic links are kept apart by location. `realpath` follows Python's
`os.path.realpath`, `namei` the kernel's lookup with its limit on the number of
links. A location is link-free when none of its ancestors, itself included, is a
link: resolution ends in such a location and leaves it alone.
-/

namespace PyPath

open PyText

abbrev Loc := List Name

abbrev Bytes := List UInt8

structure FileNode where
  bytes : Bytes
  inode : ℕ
  mtime : ℕ
  deriving DecidableEq

abbrev Links := AList fun _ : Loc => PurePath

def dotdot : Name := ['.', '.']

/-- No ancestor is a link, and no component is `..`. -/
def LinkFree (links : Links) (loc : Loc) : Prop :=
  dotdot ∉ loc ∧ ∀ q, q <+: loc → links.lookup q = none

structure FileSystem where
  files : AList fun _ : Loc => FileNode
  dirs : List Loc
  links : Links
  /-- The working directory. -/
  cwd : Loc
  /-- The home directory of each user; the empty name is the user we run as. -/
  homes : AList fun _ : Name => Loc
  /-- `os.getcwd()` is a real path, and the root is no link. -/
  cwd_linkFree : LinkFree links cwd

/-! ## Resolution -/

/-- One component of `_joinrealpath`; `recurse` resolves the target of a link. -/
def follow (links : Links) (recurse : Loc → List Name → Option Loc) (path : Loc) (name : Name) :
    Option Loc :=
  if name = dotdot then some path.dropLast
  else
    match links.lookup (path ++ [name]) with
    | some target => recurse (if target.absolute then [] else path) target.names
    | none => some (path ++ [name])

/-- `_joinrealpath`, with at most `depth` links in progress inside each other. -/
def joinRealpath (links : Links) : ℕ → Loc → List Name → Option Loc
  | 0, path, rest => rest.foldlM (follow links fun _ _ => none) path
  | depth + 1, path, rest => rest.foldlM (follow links (joinRealpath links depth)) path

namespace FileSystem

variable (fs : FileSystem)

/-- Where a path starts. -/
def start (p : PurePath) : Loc := if p.absolute then [] else fs.cwd

/-- `p.resolve()`; nothing where it raises because of a symlink loop. More links in
progress inside each other than there are links is a loop. -/
def resolve (p : PurePath) : Option PurePath :=
  (joinRealpath fs.links fs.links.entries.length (fs.start p) p.names).map fun loc => ⟨true, loc⟩

/-- `p.expanduser()`; nothing where the home directory cannot be determined. -/
def expanduser (p : PurePath) : Option PurePath :=
  match p.absolute, p.names with
  | false, ('~' :: user) :: rest => (fs.homes.lookup user).map fun home => ⟨true, home ++ rest⟩
  | _, _ => some p

/-- `normalize_path(p)`: `p.expanduser().resolve()`. -/
def normalize (p : PurePath) : Option PurePath := (fs.expanduser p).bind fs.resolve

end FileSystem

/-! ## Lookup -/

/-- How far a lookup gets without following a link. -/
inductive Walk where
  | done (loc : Loc)
  /-- There is no directory to go up from. -/
  | missing
  | link (dir : Loc) (target : PurePath) (rest : List Name)

def walk (links : Links) (isDir : Loc → Bool) : Loc → List Name → Walk
  | path, [] => .done path
  | path, name :: rest =>
    if name = dotdot then
      if isDir path then walk links isDir path.dropLast rest else .missing
    else
      match links.lookup (path ++ [name]) with
      | some target => .link path target rest
      | none => walk links isDir (path ++ [name]) rest

/-- The kernel's lookup, with the number of links it is still willing to follow. -/
def namei (links : Links) (isDir : Loc → Bool) : ℕ → Loc → List Name → Option Loc
  | fuel, path, rest =>
    match walk links isDir path rest, fuel with
    | .done loc, _ => some loc
    | .missing, _ | .link _ _ _, 0 => none
    | .link dir target rest, fuel + 1 =>
      namei links isDir fuel (if target.absolute then [] else dir) (target.names ++ rest)

/-- `MAXSYMLINKS`. -/
def maxSymlinks : ℕ := 40

namespace FileSystem

variable (fs : FileSystem)

def isDirLoc (loc : Loc) : Bool := loc = [] || loc ∈ fs.dirs

def lookup (p : PurePath) : Option Loc :=
  namei fs.links fs.isDirLoc maxSymlinks (fs.start p) p.names

/-- The regular file that `stat` and `open` find. -/
def fileAt (p : PurePath) : Option FileNode := (fs.lookup p).bind fs.files.lookup

def isFile (p : PurePath) : Bool := (fs.fileAt p).isSome

def isDir (p : PurePath) : Bool := (fs.lookup p).any fs.isDirLoc

def pathExists (p : PurePath) : Bool := fs.isFile p || fs.isDir p

/-! ## Listing -/

/-- The names in a directory, in the order the system lists them. -/
def namesIn (loc : Loc) : List Name :=
  (((fs.files.keys ++ fs.dirs ++ fs.links.keys).filter fun q => q ≠ [] ∧ q.dropLast = loc).filterMap
    List.getLast?).dedup

/-- `p.iterdir()`; nothing where it raises. -/
def iterdir (p : PurePath) : Option (List PurePath) :=
  match fs.lookup p with
  | some loc => if fs.isDirLoc loc then some ((fs.namesIn loc).map p.child) else none
  | none => none

/-- `p.glob("*")`. -/
def globStar (p : PurePath) : List PurePath := (fs.iterdir p).getD []

/-- `entry.is_symlink()` for an entry of the directory `p`. -/
def isSymlinkIn (p : PurePath) (n : Name) : Bool :=
  (fs.lookup p).any fun loc => (fs.links.lookup (loc ++ [n])).isSome

/-- `p.glob("**/*")` up to a depth: links to directories are listed and not entered. -/
def globTree : ℕ → PurePath → List PurePath
  | 0, _ => []
  | depth + 1, p =>
    fs.globStar p ++ ((fs.globStar p).filter fun c =>
      fs.isDir c && !fs.isSymlinkIn p c.name).flatMap (globTree depth)

/-- `p.glob("**/*")`: directories nest no deeper than their number. -/
def globAll (p : PurePath) : List PurePath := fs.globTree (fs.dirs.length + 1) p

end FileSystem

/-! ## Link-free locations -/

variable {links : Links} {loc path : Loc}

theorem LinkFree.append_name (h : LinkFree links path) {name : Name} (hname : name ≠ dotdot)
    (hlink : links.lookup (path ++ [name]) = none) : LinkFree links (path ++ [name]) := by
  refine ⟨?_, fun q hq => ?_⟩
  · rw [List.mem_append, List.mem_singleton]
    exact not_or.mpr ⟨h.1, Ne.symm hname⟩
  · rcases List.prefix_concat_iff.mp hq with rfl | hq
    · exact hlink
    · exact h.2 q hq

theorem LinkFree.of_prefix (h : LinkFree links loc) {q : Loc} (hq : q <+: loc) : LinkFree links q :=
  ⟨fun hd => h.1 (hq.subset hd), fun r hr => h.2 r (hr.trans hq)⟩

theorem LinkFree.dropLast (h : LinkFree links loc) : LinkFree links loc.dropLast :=
  h.of_prefix (List.dropLast_prefix loc)

theorem LinkFree.nil (h : LinkFree links loc) : LinkFree links [] := h.of_prefix List.nil_prefix

theorem linkFree_foldlM {recurse : Loc → List Name → Option Loc}
    (hrec : ∀ path rest r, LinkFree links path → recurse path rest = some r → LinkFree links r)
    (rest : List Name) {r : Loc} (hpath : LinkFree links path)
    (h : rest.foldlM (follow links recurse) path = some r) : LinkFree links r := by
  induction rest generalizing path with
  | nil =>
    obtain rfl : path = r := by simpa using h
    exact hpath
  | cons name rest ih =>
    rw [List.foldlM_cons] at h
    obtain ⟨next, hnext, h⟩ := Option.bind_eq_some_iff.mp h
    refine ih ?_ h
    unfold follow at hnext
    split at hnext
    · cases hnext; exact hpath.dropLast
    · next hname =>
      split at hnext
      · refine hrec _ _ _ ?_ hnext
        split
        · exact hpath.nil
        · exact hpath
      · next hlink => cases hnext; exact hpath.append_name hname hlink

/-- Resolution ends in a link-free location. -/
theorem linkFree_joinRealpath (depth : ℕ) (rest : List Name) {r : Loc} (hpath : LinkFree links path)
    (h : joinRealpath links depth path rest = some r) : LinkFree links r := by
  induction depth generalizing path rest r with
  | zero =>
    unfold joinRealpath at h
    exact linkFree_foldlM (by simp) rest hpath h
  | succ depth ih =>
    unfold joinRealpath at h
    exact linkFree_foldlM (fun _ rest _ hp hr => ih rest hp hr) rest hpath h

/-- The part of a link-free location is followed without meeting a link. -/
theorem foldlM_of_linkFree (recurse : Loc → List Name → Option Loc) (rest : List Name)
    (h : LinkFree links (path ++ rest)) :
    rest.foldlM (follow links recurse) path = some (path ++ rest) := by
  induction rest generalizing path with
  | nil => simp
  | cons name rest ih =>
    have hname : name ≠ dotdot := by rintro rfl; exact h.1 (by simp)
    have hlink : links.lookup (path ++ [name]) = none := h.2 _ ⟨rest, by simp⟩
    have hnext : follow links recurse path name = some (path ++ [name]) := by
      simp [follow, hname, hlink]
    have hrest : LinkFree links ((path ++ [name]) ++ rest) := by simpa using h
    rw [List.foldlM_cons, hnext]
    simpa using ih hrest

theorem joinRealpath_of_linkFree (depth : ℕ) (h : LinkFree links loc) :
    joinRealpath links depth [] loc = some loc := by
  cases depth <;> exact foldlM_of_linkFree _ loc h

theorem walk_of_linkFree (isDir : Loc → Bool) (rest : List Name) (h : LinkFree links (path ++ rest)) :
    walk links isDir path rest = .done (path ++ rest) := by
  induction rest generalizing path with
  | nil => simp [walk]
  | cons name rest ih =>
    have hname : name ≠ dotdot := by rintro rfl; exact h.1 (by simp)
    have hlink : links.lookup (path ++ [name]) = none := h.2 _ ⟨rest, by simp⟩
    have hrest : LinkFree links ((path ++ [name]) ++ rest) := by simpa using h
    simp [walk, hname, hlink, ih hrest]

theorem namei_of_linkFree (isDir : Loc → Bool) (fuel : ℕ) (h : LinkFree links loc) :
    namei links isDir fuel [] loc = some loc := by
  unfold namei
  rw [walk_of_linkFree isDir loc h]
  rfl

namespace FileSystem

variable {fs : FileSystem} {p r : PurePath}

/-- A path that resolution leaves alone. -/
def Real (fs : FileSystem) (p : PurePath) : Prop := p.absolute = true ∧ LinkFree fs.links p.names

theorem Real.eq_of_names {q : PurePath} (hp : fs.Real p) (hq : fs.Real q) (h : p.names = q.names) :
    p = q := by
  cases p
  cases q
  obtain ⟨rfl, -⟩ := hp
  obtain ⟨rfl, -⟩ := hq
  exact congrArg _ h

theorem real_of_resolve (h : fs.resolve p = some r) : fs.Real r := by
  obtain ⟨loc, hloc, rfl⟩ := Option.map_eq_some_iff.mp h
  refine ⟨rfl, linkFree_joinRealpath _ p.names ?_ hloc⟩
  unfold start
  split
  · exact fs.cwd_linkFree.nil
  · exact fs.cwd_linkFree

theorem real_of_normalize (h : fs.normalize p = some r) : fs.Real r := by
  obtain ⟨q, -, hq⟩ := Option.bind_eq_some_iff.mp h
  exact real_of_resolve hq

theorem resolve_of_real (h : fs.Real p) : fs.resolve p = some p := by
  obtain ⟨habs, hfree⟩ := h
  simp only [resolve, start, habs, if_true, joinRealpath_of_linkFree _ hfree, Option.map_some]
  rw [← habs]

/-- Normalizing twice is normalizing once. -/
theorem normalize_of_real (h : fs.Real p) : fs.normalize p = some p := by
  have habs := h.1
  unfold normalize expanduser
  split
  · simp_all
  · exact resolve_of_real h

theorem lookup_of_real (h : fs.Real p) : fs.lookup p = some p.names := by
  obtain ⟨habs, hfree⟩ := h
  simp only [lookup, start, habs, if_true]
  exact namei_of_linkFree _ _ hfree

theorem fileAt_of_real (h : fs.Real p) : fs.fileAt p = fs.files.lookup p.names := by
  simp [fileAt, lookup_of_real h]

/-! ## Changing files -/

/-- The two file systems differ in files and directories only: paths resolve to the
same locations. -/
structure SameLinks (fs fs' : FileSystem) : Prop where
  links : fs'.links = fs.links
  cwd : fs'.cwd = fs.cwd
  homes : fs'.homes = fs.homes

theorem SameLinks.refl (fs : FileSystem) : SameLinks fs fs := ⟨rfl, rfl, rfl⟩

theorem SameLinks.symm {fs₁ fs₂ : FileSystem} (h : SameLinks fs₁ fs₂) : SameLinks fs₂ fs₁ :=
  ⟨h.links.symm, h.cwd.symm, h.homes.symm⟩

theorem SameLinks.trans {fs₁ fs₂ fs₃ : FileSystem} (h : SameLinks fs₁ fs₂) (h' : SameLinks fs₂ fs₃) :
    SameLinks fs₁ fs₃ :=
  ⟨h'.links.trans h.links, h'.cwd.trans h.cwd, h'.homes.trans h.homes⟩

variable {fs' : FileSystem}

theorem SameLinks.resolve (h : SameLinks fs fs') (p : PurePath) : fs'.resolve p = fs.resolve p := by
  simp only [FileSystem.resolve, start, h.links, h.cwd]

theorem SameLinks.normalize (h : SameLinks fs fs') (p : PurePath) :
    fs'.normalize p = fs.normalize p := by
  simp only [FileSystem.normalize, FileSystem.expanduser, h.homes, funext h.resolve]

theorem SameLinks.real (h : SameLinks fs fs') : fs'.Real p ↔ fs.Real p := by
  simp only [Real, h.links]

/-- A file is written, or replaced. -/
def write (fs : FileSystem) (loc : Loc) (node : FileNode) : FileSystem :=
  { fs with files := fs.files.insert loc node }

def remove (fs : FileSystem) (loc : Loc) : FileSystem := { fs with files := fs.files.erase loc }

def mkdir (fs : FileSystem) (loc : Loc) : FileSystem := { fs with dirs := loc :: fs.dirs }

variable {loc loc' : Loc} {node : FileNode}

theorem sameLinks_write : SameLinks fs (fs.write loc node) := ⟨rfl, rfl, rfl⟩
theorem sameLinks_remove : SameLinks fs (fs.remove loc) := ⟨rfl, rfl, rfl⟩

theorem fileAt_write_of_ne (hp : fs.Real p) (hne : p.names ≠ loc) :
    (fs.write loc node).fileAt p = fs.fileAt p := by
  rw [fileAt_of_real (sameLinks_write.real.mpr hp), fileAt_of_real hp]
  exact AList.lookup_insert_ne hne

theorem fileAt_remove_of_ne (hp : fs.Real p) (hne : p.names ≠ loc) :
    (fs.remove loc).fileAt p = fs.fileAt p := by
  rw [fileAt_of_real (sameLinks_remove.real.mpr hp), fileAt_of_real hp]
  exact AList.lookup_erase_ne hne

end FileSystem

end PyPath
