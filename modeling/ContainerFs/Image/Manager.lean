import Mathlib.Data.String.Basic
import Mathlib.Data.List.Basic

/-! The image generator's walk of a tree (`WalkDir`) and the filter built from the metadata it
records (`constructFilter`), which is handed, for each file in walk order, `/` followed by the
names of its directories and its own. -/

set_option autoImplicit false

namespace ContainerFs.Image

/-! ## The walk -/

inductive FileType where
  | regularFile
  | directory
  | symlink
  deriving DecidableEq, Repr

/-- `FileMetadata`, without `Begin` and `End`, which come from the image writer. -/
structure FileMetadata where
  name : String
  link : String
  modTime : Int
  type : FileType
  deriving DecidableEq, Repr

structure ImgStats where
  numFiles : Nat
  numSymLinks : Nat
  numDirs : Nat
  deriving DecidableEq, Repr

namespace ImgStats

def addFile (s : ImgStats) : ImgStats := { s with numFiles := s.numFiles + 1 }

def addSymLink (s : ImgStats) : ImgStats := { s with numSymLinks := s.numSymLinks + 1 }

def addDir (s : ImgStats) : ImgStats := { s with numDirs := s.numDirs + 1 }

end ImgStats

/-- `ZarManager`, as far as the walk and the filter construction use it. -/
structure ZarManager where
  metadata : List FileMetadata
  statistics : ImgStats
  deriving DecidableEq, Repr

/-- What `ioutil.ReadDir` lists: a symlink with its destination, a directory, or a file. -/
inductive Entry where
  | file (name : String) (modTime : Int)
  | symlink (name : String) (dest : String) (modTime : Int)
  | dir (name : String) (modTime : Int) (files : List Entry)
  deriving Repr

namespace ZarManager

def includeFolderBegin (z : ZarManager) (name : String) (modTime : Int) : ZarManager where
  metadata := z.metadata ++ [⟨name, "", modTime, .directory⟩]
  statistics := z.statistics.addDir

def includeFolderEnd (z : ZarManager) : ZarManager :=
  { z with metadata := z.metadata ++ [⟨"..", "", 0, .directory⟩] }

def includeSymlink (z : ZarManager) (name link : String) (modTime : Int) : ZarManager where
  metadata := z.metadata ++ [⟨name, link, modTime, .symlink⟩]
  statistics := z.statistics.addSymLink

/-- `IncludeFile`, without reading the file and writing it to the image. -/
def includeFile (z : ZarManager) (fn : String) (modTime : Int) : ZarManager where
  metadata := z.metadata ++ [⟨fn, "", modTime, .regularFile⟩]
  statistics := z.statistics.addFile

/-- The first loop of `WalkDir`: include each non-directory, in order. -/
def includeEntries (z : ZarManager) : List Entry → ZarManager
  | [] => z
  | .symlink name dest modTime :: rest => (z.includeSymlink name dest modTime).includeEntries rest
  | .file name modTime :: rest => (z.includeFile name modTime).includeEntries rest
  | .dir .. :: rest => z.includeEntries rest

mutual

/-- `WalkDir` over the listing `files` of `foldername`; the root is not marked. -/
def walkDir (z : ZarManager) (foldername : String) (modTime : Int) (root : Bool)
    (files : List Entry) : ZarManager :=
  let z := if root then z else z.includeFolderBegin foldername modTime
  let z := (z.includeEntries files).walkSubdirs files
  if root then z else z.includeFolderEnd
termination_by (sizeOf files, 1)

/-- The second loop of `WalkDir`: walk each directory of the listing, in order. -/
def walkSubdirs (z : ZarManager) : List Entry → ZarManager
  | [] => z
  | .dir name modTime files :: rest => (z.walkDir name modTime false files).walkSubdirs rest
  | _ :: rest => z.walkSubdirs rest
termination_by files => (sizeOf files, 0)

end

end ZarManager

/-! ## The filter construction -/

/-- The state of `constructFilter`'s loop: the path variable and the paths added. -/
structure FilterBuild where
  path : String
  added : List String
  deriving DecidableEq, Repr

namespace FilterBuild

/-- One iteration of `constructFilter`'s loop. -/
def step (b : FilterBuild) (m : FileMetadata) : FilterBuild :=
  match m.type with
  | .regularFile => { b with added := b.added ++ [b.path ++ "/" ++ m.name] }
  | .directory =>
    if m.name = ".." then
      let intPath := b.path.split (· == '/')
      { b with path := "/".intercalate (intPath.take (intPath.length - 1)) }
    else { b with path := b.path ++ "/" ++ m.name }
  | .symlink => { b with added := b.added ++ [b.path ++ "/" ++ m.name] }

end FilterBuild

/-- `constructFilter`: the arguments of its `Filter.AddElement` calls, in order. -/
def constructFilter (metadata : List FileMetadata) : List String :=
  (metadata.foldl FilterBuild.step ⟨"", []⟩).added

/-! ## Popping the path undoes pushing -/

section Path

theorem data_intercalate_go (acc s : String) (l : List String) :
    (String.intercalate.go acc s l).data = acc.data ++ (l.map fun a => s.data ++ a.data).flatten := by
  induction l generalizing acc with
  | nil => simp [String.intercalate.go]
  | cons a l ih => simp [String.intercalate.go, ih]

theorem intercalate_singleton_cons {α : Type} (x : α) (a : List α) (l : List (List α)) :
    [x].intercalate (a :: l) = a ++ (l.map (x :: ·)).flatten := by
  induction l generalizing a with
  | nil => simp [List.intercalate]
  | cons b l ih =>
    have := ih b
    simp only [List.intercalate, List.intersperse_cons_cons, List.flatten_cons] at this ⊢
    simp [this]

theorem data_intercalate_slash (a : List Char) (l : List (List Char)) :
    ("/".intercalate ((a :: l).map String.mk)).data = ['/'].intercalate (a :: l) := by
  simp [String.intercalate, data_intercalate_go, intercalate_singleton_cons]
  rfl

theorem splitOnP_append_cons {α : Type} (p : α → Bool) (sep : α) (hsep : p sep = true)
    (xs ys : List α) : (xs ++ sep :: ys).splitOnP p = xs.splitOnP p ++ ys.splitOnP p := by
  induction xs with
  | nil => simp [hsep]
  | cons x xs ih =>
    rw [List.cons_append, List.splitOnP_cons, List.splitOnP_cons, ih]
    split
    · rfl
    · obtain ⟨a, as, h⟩ := List.exists_cons_of_ne_nil (List.splitOnP_ne_nil p xs)
      simp [h]

theorem step_close (p n : String) (hn : '/' ∉ n.data) (added : List String) (link : String)
    (modTime : Int) : FilterBuild.step ⟨p ++ "/" ++ n, added⟩ ⟨"..", link, modTime, .directory⟩ =
      ⟨p, added⟩ := by
  have single : n.data.splitOnP (· == '/') = [n.data] :=
    List.splitOnP_eq_single _ _ fun c hc same => hn (beq_iff_eq.mp same ▸ hc)
  obtain ⟨a, l, hp⟩ := List.exists_cons_of_ne_nil (List.splitOnP_ne_nil (· == '/') p.data)
  simp only [FilterBuild.step, if_true, FilterBuild.mk.injEq, and_true]
  apply String.ext
  simp only [String.split_of_valid, String.data_append, show "/".data = ['/'] from rfl,
    List.append_assoc, List.singleton_append, splitOnP_append_cons (fun x => x == '/') '/' rfl,
    single, List.map_append, List.map_singleton, List.length_append, List.length_singleton,
    Nat.add_sub_cancel, List.take_left', List.length_map, hp]
  rw [data_intercalate_slash, ← hp]
  exact List.intercalate_splitOn p.data '/'

end Path

/-! ## The paths the filter is to be handed -/

def joinPath (path : String) (names : List String) : String :=
  names.foldl (fun p a => p ++ "/" ++ a) path

/-- The path of `name` under directories `ancestors`: `/` and the names joined by `/`. -/
def fullPath (ancestors : List String) (name : String) : String :=
  "/" ++ "/".intercalate (ancestors ++ [name])

namespace Entry

/-- A directory name the construction can push and pop: it has no `/` and is not `..`. -/
def dirNameOk (name : String) : Bool := decide ('/' ∉ name.data) && name != ".."

mutual

def named : Entry → Bool
  | .dir name _ files => dirNameOk name && wellNamed files
  | _ => true

def wellNamed : List Entry → Bool
  | [] => true
  | e :: rest => e.named && wellNamed rest

end

def listed : List Entry → List String
  | [] => []
  | .file name _ :: rest => name :: listed rest
  | .symlink name _ _ :: rest => name :: listed rest
  | .dir .. :: rest => listed rest

mutual

/-- The files and symlinks of a listing with their directories, in walk order. -/
def treeFiles (files : List Entry) : List (List String × String) :=
  (listed files).map (fun n => ([], n)) ++ subdirFiles files
termination_by (sizeOf files, 1)

def subdirFiles : List Entry → List (List String × String)
  | [] => []
  | .dir name _ files :: rest =>
    (treeFiles files).map (fun f => (name :: f.1, f.2)) ++ subdirFiles rest
  | _ :: rest => subdirFiles rest
termination_by files => (sizeOf files, 0)

end

end Entry

def fileNames (metadata : List FileMetadata) : List String :=
  (metadata.filter fun m => m.type != .directory).map FileMetadata.name

namespace FilterBuild

def addAll (b : FilterBuild) (fs : List (List String × String)) : FilterBuild :=
  ⟨b.path, b.added ++ fs.map fun f => joinPath b.path (f.1 ++ [f.2])⟩

@[simp] theorem addAll_nil (b : FilterBuild) : b.addAll [] = b := by
  simp [addAll]

@[simp] theorem addAll_path (b : FilterBuild) (fs : List (List String × String)) :
    (b.addAll fs).path = b.path := rfl

theorem addAll_append (b : FilterBuild) (fs gs : List (List String × String)) :
    (b.addAll fs).addAll gs = b.addAll (fs ++ gs) := by
  simp [addAll]

theorem step_listed (b : FilterBuild) (m : FileMetadata) (file : m.type ≠ .directory) :
    b.step m = b.addAll [([], m.name)] := by
  rcases m with ⟨name, link, modTime, _ | _ | _⟩
  · rfl
  · exact absurd rfl file
  · rfl

theorem step_open (b : FilterBuild) (m : FileMetadata) (dir : m.type = .directory)
    (open_ : m.name ≠ "..") : b.step m = ⟨b.path ++ "/" ++ m.name, b.added⟩ := by
  rcases m with ⟨name, link, modTime, _ | _ | _⟩ <;> cases dir
  simp [step, open_]

end FilterBuild

/-! ## The walk and the filter -/

namespace ZarManager

open FilterBuild

@[simp] theorem includeFolderBegin_metadata (z : ZarManager) (name : String) (modTime : Int) :
    (z.includeFolderBegin name modTime).metadata = z.metadata ++ [⟨name, "", modTime, .directory⟩] :=
  rfl

@[simp] theorem includeFolderEnd_metadata (z : ZarManager) :
    z.includeFolderEnd.metadata = z.metadata ++ [⟨"..", "", 0, .directory⟩] := rfl

@[simp] theorem includeSymlink_metadata (z : ZarManager) (name link : String) (modTime : Int) :
    (z.includeSymlink name link modTime).metadata = z.metadata ++ [⟨name, link, modTime, .symlink⟩] :=
  rfl

@[simp] theorem includeFile_metadata (z : ZarManager) (fn : String) (modTime : Int) :
    (z.includeFile fn modTime).metadata = z.metadata ++ [⟨fn, "", modTime, .regularFile⟩] := rfl

theorem run_includeEntries (b : FilterBuild) (files : List Entry) :
    ∀ z : ZarManager, (z.includeEntries files).metadata.foldl step b =
      (z.metadata.foldl step b).addAll ((Entry.listed files).map fun n => ([], n)) := by
  induction files with
  | nil => intro z; simp [includeEntries, Entry.listed]
  | cons e rest ih =>
    intro z
    rcases e with ⟨name, modTime⟩ | ⟨name, dest, modTime⟩ | ⟨name, modTime, files⟩
    · rw [includeEntries, ih, includeFile_metadata, List.foldl_concat,
        step_listed _ _ (by simp), addAll_append]
      rfl
    · rw [includeEntries, ih, includeSymlink_metadata, List.foldl_concat,
        step_listed _ _ (by simp), addAll_append]
      rfl
    · rw [includeEntries, ih]
      rfl

mutual

theorem run_walkDir (b : FilterBuild) (z : ZarManager) (foldername : String) (modTime : Int)
    (root : Bool) (files : List Entry) (named : Entry.wellNamed files = true)
    (ok : root = false → Entry.dirNameOk foldername = true) :
    (z.walkDir foldername modTime root files).metadata.foldl step b =
      (z.metadata.foldl step b).addAll
        (if root then Entry.treeFiles files
          else (Entry.treeFiles files).map fun f => (foldername :: f.1, f.2)) := by
  rcases root
  · have name := ok rfl
    simp only [Entry.dirNameOk, Bool.and_eq_true, decide_eq_true_eq, bne_iff_ne, ne_eq] at name
    rw [walkDir, if_neg Bool.false_ne_true, if_neg Bool.false_ne_true, includeFolderEnd_metadata,
      List.foldl_concat, run_walkSubdirs b _ files named, run_includeEntries,
      includeFolderBegin_metadata, List.foldl_concat,
      step_open (z.metadata.foldl step b) ⟨foldername, "", modTime, .directory⟩ rfl name.2,
      addAll_append]
    simp only [addAll]
    rw [step_close _ _ name.1, Entry.treeFiles]
    simp [joinPath, Function.comp_def]
  · rw [walkDir, if_pos rfl, if_pos rfl, run_walkSubdirs b _ files named, run_includeEntries,
      addAll_append, if_pos rfl, Entry.treeFiles]
termination_by (sizeOf files, 1)

theorem run_walkSubdirs (b : FilterBuild) (z : ZarManager) (files : List Entry)
    (named : Entry.wellNamed files = true) :
    (z.walkSubdirs files).metadata.foldl step b =
      (z.metadata.foldl step b).addAll (Entry.subdirFiles files) := by
  match files, named with
  | [], _ => simp [walkSubdirs, Entry.subdirFiles]
  | .dir name modTime cs :: rest, named =>
    simp only [Entry.wellNamed, Entry.named, Bool.and_eq_true] at named
    rw [walkSubdirs, run_walkSubdirs b _ rest named.2,
      run_walkDir b z name modTime false cs named.1.2 fun _ => named.1.1, if_neg Bool.false_ne_true,
      addAll_append, Entry.subdirFiles]
  | .file name modTime :: rest, named =>
    simp only [walkSubdirs, Entry.subdirFiles]
    exact run_walkSubdirs b z rest (by simpa only [Entry.wellNamed, Entry.named] using named)
  | .symlink name dest modTime :: rest, named =>
    simp only [walkSubdirs, Entry.subdirFiles]
    exact run_walkSubdirs b z rest (by simpa only [Entry.wellNamed, Entry.named] using named)
termination_by (sizeOf files, 0)

end

@[simp] theorem fileNames_append (a b : List FileMetadata) :
    fileNames (a ++ b) = fileNames a ++ fileNames b := by
  simp [fileNames]

@[simp] theorem fileNames_singleton (m : FileMetadata) :
    fileNames [m] = if m.type = .directory then [] else [m.name] := by
  by_cases h : m.type = .directory <;> simp [fileNames, h]

theorem fileNames_includeEntries (files : List Entry) :
    ∀ z : ZarManager, fileNames (z.includeEntries files).metadata =
      fileNames z.metadata ++ Entry.listed files := by
  induction files with
  | nil => intro z; simp [includeEntries, Entry.listed]
  | cons e rest ih =>
    intro z
    rcases e with ⟨name, modTime⟩ | ⟨name, dest, modTime⟩ | ⟨name, modTime, files⟩ <;>
      simp [includeEntries, ih, Entry.listed]

mutual

theorem fileNames_walkDir (z : ZarManager) (foldername : String) (modTime : Int) (root : Bool)
    (files : List Entry) :
    fileNames (z.walkDir foldername modTime root files).metadata =
      fileNames z.metadata ++ (Entry.treeFiles files).map Prod.snd := by
  rw [walkDir, Entry.treeFiles]
  rcases root <;> simp [fileNames_walkSubdirs _ files, fileNames_includeEntries, Function.comp_def]
termination_by (sizeOf files, 1)

theorem fileNames_walkSubdirs (z : ZarManager) (files : List Entry) :
    fileNames (z.walkSubdirs files).metadata =
      fileNames z.metadata ++ (Entry.subdirFiles files).map Prod.snd := by
  match files with
  | [] => simp [walkSubdirs, Entry.subdirFiles]
  | .dir name modTime cs :: rest =>
    rw [walkSubdirs, fileNames_walkSubdirs _ rest, fileNames_walkDir, Entry.subdirFiles]
    simp [Function.comp_def]
  | .file name modTime :: rest =>
    simp only [walkSubdirs, Entry.subdirFiles]
    exact fileNames_walkSubdirs z rest
  | .symlink name dest modTime :: rest =>
    simp only [walkSubdirs, Entry.subdirFiles]
    exact fileNames_walkSubdirs z rest
termination_by (sizeOf files, 0)

end

end ZarManager

theorem data_joinPath (p : String) (l : List String) :
    (joinPath p l).data = p.data ++ (l.map fun a => '/' :: a.data).flatten := by
  induction l generalizing p with
  | nil => simp [joinPath]
  | cons a l ih =>
    rw [show joinPath p (a :: l) = joinPath (p ++ "/" ++ a) l from rfl, ih]
    simp

theorem joinPath_empty (ancestors : List String) (name : String) :
    joinPath "" (ancestors ++ [name]) = fullPath ancestors name := by
  obtain ⟨a, l, h⟩ := List.exists_cons_of_ne_nil (List.append_ne_nil_of_right_ne_nil ancestors
    (List.cons_ne_nil name []))
  apply String.ext
  rw [fullPath, h, data_joinPath, String.data_append, String.intercalate, data_intercalate_go]
  simp

/-- The filter is handed the full path of every file and symlink, in walk order. -/
theorem constructFilter_walkDir (z : ZarManager) (foldername : String) (modTime : Int)
    (files : List Entry) (empty : z.metadata = []) (named : Entry.wellNamed files = true) :
    constructFilter (z.walkDir foldername modTime true files).metadata =
        (Entry.treeFiles files).map (fun f => fullPath f.1 f.2) ∧
      fileNames (z.walkDir foldername modTime true files).metadata =
        (Entry.treeFiles files).map Prod.snd ∧
      ∀ (b : FilterBuild) (z' : ZarManager) (name : String) (modTime' : Int) (cs : List Entry),
        Entry.dirNameOk name = true → Entry.wellNamed cs = true →
        ((z'.walkDir name modTime' false cs).metadata.foldl FilterBuild.step b).path =
          (z'.metadata.foldl FilterBuild.step b).path := by
  refine ⟨?_, by rw [ZarManager.fileNames_walkDir, empty]; rfl,
    fun b z' name modTime' cs ok named' => ?_⟩
  · rw [constructFilter, ZarManager.run_walkDir _ z foldername modTime true files named
      (fun h => absurd h (by decide)), empty, if_pos rfl]
    simp [FilterBuild.addAll, ← joinPath_empty]
  · rw [ZarManager.run_walkDir b z' name modTime' false cs named' fun _ => ok,
      FilterBuild.addAll_path]

/-- The tree of the repository's filter test. -/
def groceries : List Entry :=
  [.file "apples.txt" 0, .dir "Groceries" 0 [], .symlink "OtherApples.txt" "apples.txt" 0]

theorem constructFilter_walkDir_groceries :
    (⟨[], ⟨0, 0, 0⟩⟩ : ZarManager).metadata = [] ∧ Entry.wellNamed groceries = true ∧
      constructFilter ((⟨[], ⟨0, 0, 0⟩⟩ : ZarManager).walkDir "" 0 true groceries).metadata =
        (Entry.treeFiles groceries).map (fun f => fullPath f.1 f.2) :=
  ⟨rfl, by decide, (constructFilter_walkDir ⟨[], ⟨0, 0, 0⟩⟩ "" 0 groceries rfl (by decide)).1⟩

/-! ## The statistics count the metadata -/

namespace ZarManager

/-- The statistics count what the metadata records. -/
structure Counted (z : ZarManager) : Prop where
  files : z.statistics.numFiles = z.metadata.countP (·.type == .regularFile)
  symlinks : z.statistics.numSymLinks = z.metadata.countP (·.type == .symlink)
  dirs : z.statistics.numDirs = z.metadata.countP fun m => m.type == .directory && m.name != ".."

variable {z : ZarManager}

theorem Counted.includeFolderBegin (h : z.Counted) {name : String} (ok : name ≠ "..")
    (modTime : Int) : (z.includeFolderBegin name modTime).Counted where
  files := by simp [ZarManager.includeFolderBegin, ImgStats.addDir, h.files]
  symlinks := by simp [ZarManager.includeFolderBegin, ImgStats.addDir, h.symlinks]
  dirs := by simp [ZarManager.includeFolderBegin, ImgStats.addDir, h.dirs, ok]

theorem Counted.includeFolderEnd (h : z.Counted) : z.includeFolderEnd.Counted where
  files := by simp [ZarManager.includeFolderEnd, h.files]
  symlinks := by simp [ZarManager.includeFolderEnd, h.symlinks]
  dirs := by simp [ZarManager.includeFolderEnd, h.dirs]

theorem Counted.includeSymlink (h : z.Counted) (name link : String) (modTime : Int) :
    (z.includeSymlink name link modTime).Counted where
  files := by simp [ZarManager.includeSymlink, ImgStats.addSymLink, h.files]
  symlinks := by simp [ZarManager.includeSymlink, ImgStats.addSymLink, h.symlinks]
  dirs := by simp [ZarManager.includeSymlink, ImgStats.addSymLink, h.dirs]

theorem Counted.includeFile (h : z.Counted) (fn : String) (modTime : Int) :
    (z.includeFile fn modTime).Counted where
  files := by simp [ZarManager.includeFile, ImgStats.addFile, h.files]
  symlinks := by simp [ZarManager.includeFile, ImgStats.addFile, h.symlinks]
  dirs := by simp [ZarManager.includeFile, ImgStats.addFile, h.dirs]

theorem Counted.includeEntries (h : z.Counted) (files : List Entry) :
    (z.includeEntries files).Counted := by
  induction files generalizing z with
  | nil => exact h
  | cons e rest ih =>
    rcases e with ⟨name, modTime⟩ | ⟨name, dest, modTime⟩ | ⟨name, modTime, files⟩
    · exact ih (h.includeFile name modTime)
    · exact ih (h.includeSymlink name dest modTime)
    · exact ih h

mutual

theorem Counted.walkDir {z : ZarManager} (h : z.Counted) (foldername : String) (modTime : Int)
    (root : Bool) (files : List Entry) (named : Entry.wellNamed files = true)
    (top : root = true ∨ foldername ≠ "..") : (z.walkDir foldername modTime root files).Counted := by
  rw [ZarManager.walkDir]
  cases root with
  | false =>
    have opened := h.includeFolderBegin (top.resolve_left Bool.false_ne_true) modTime
    exact ((opened.includeEntries files).walkSubdirs files named).includeFolderEnd
  | true => exact (h.includeEntries files).walkSubdirs files named
termination_by (sizeOf files, 1)

theorem Counted.walkSubdirs {z : ZarManager} (h : z.Counted) (files : List Entry)
    (named : Entry.wellNamed files = true) : (z.walkSubdirs files).Counted := by
  match files with
  | [] => rw [ZarManager.walkSubdirs]; exact h
  | .dir name modTime cs :: rest =>
    simp only [Entry.wellNamed, Entry.named, Entry.dirNameOk, Bool.and_eq_true, decide_eq_true_eq,
      bne_iff_ne, ne_eq] at named
    rw [ZarManager.walkSubdirs]
    exact (h.walkDir name modTime false cs named.1.2 (.inr named.1.1.2)).walkSubdirs rest named.2
  | .file _ _ :: rest | .symlink _ _ _ :: rest =>
    simp only [Entry.wellNamed, Entry.named, Bool.true_and] at named
    simp only [ZarManager.walkSubdirs]
    exact h.walkSubdirs rest named
termination_by (sizeOf files, 0)

end

theorem foldl_step_added (metadata : List FileMetadata) : ∀ b : FilterBuild,
    (metadata.foldl FilterBuild.step b).added.length =
      b.added.length + metadata.countP (·.type != .directory) := by
  induction metadata with
  | nil => simp
  | cons m ms ih =>
    intro b
    rw [List.foldl_cons, ih, List.countP_cons]
    rcases m with ⟨name, link, modTime, _ | _ | _⟩
    · simp [FilterBuild.step]; omega
    · simp only [FilterBuild.step]; split <;> simp
    · simp [FilterBuild.step]; omega

theorem countP_not_directory (ms : List FileMetadata) :
    ms.countP (·.type != .directory) =
      ms.countP (·.type == .regularFile) + ms.countP (·.type == .symlink) := by
  induction ms with
  | nil => rfl
  | cons m ms ih =>
    rcases m with ⟨name, link, modTime, _ | _ | _⟩ <;> simp [List.countP_cons, ih] <;> omega

theorem Counted.constructFilter_length (h : z.Counted) :
    (constructFilter z.metadata).length = z.statistics.numFiles + z.statistics.numSymLinks := by
  rw [constructFilter, foldl_step_added, countP_not_directory, h.files, h.symlinks]
  exact Nat.zero_add _

end ZarManager

/-- The statistics count what the walk records; `NumFiles` leaves out symlinks. -/
theorem walkDir_statistics (z : ZarManager) (foldername : String) (modTime : Int) (root : Bool)
    (files : List Entry) (h : z.Counted) (named : Entry.wellNamed files = true)
    (top : root = true ∨ foldername ≠ "..") :
    (z.walkDir foldername modTime root files).Counted ∧
      (constructFilter (z.walkDir foldername modTime root files).metadata).length =
        (z.walkDir foldername modTime root files).statistics.numFiles +
          (z.walkDir foldername modTime root files).statistics.numSymLinks :=
  have counted := h.walkDir foldername modTime root files named top
  ⟨counted, counted.constructFilter_length⟩

theorem walkDir_statistics_groceries :
    (⟨[], ⟨0, 0, 0⟩⟩ : ZarManager).Counted ∧ Entry.wellNamed groceries = true ∧
      (true = true ∨ "" ≠ "..") ∧
      ((⟨[], ⟨0, 0, 0⟩⟩ : ZarManager).walkDir "" 0 true groceries).Counted ∧
      (constructFilter ((⟨[], ⟨0, 0, 0⟩⟩ : ZarManager).walkDir "" 0 true groceries).metadata).length =
        ((⟨[], ⟨0, 0, 0⟩⟩ : ZarManager).walkDir "" 0 true groceries).statistics.numFiles +
          ((⟨[], ⟨0, 0, 0⟩⟩ : ZarManager).walkDir "" 0 true groceries).statistics.numSymLinks :=
  have empty : (⟨[], ⟨0, 0, 0⟩⟩ : ZarManager).Counted := ⟨rfl, rfl, rfl⟩
  ⟨empty, by decide, .inl rfl,
    walkDir_statistics ⟨[], ⟨0, 0, 0⟩⟩ "" 0 true groceries empty (by decide) (.inl rfl)⟩

end ContainerFs.Image
