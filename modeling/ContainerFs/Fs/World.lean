import ContainerFs.Fs.Attr
import Mathlib.Logic.Function.Basic

/-! The state an overlay mount runs against: the inodes of the two backing filesystems, the overlay
entries, the Dirent tree, and the reference and read-lock counts of §5. An inode whose `fault` is
set fails every call but `Lookup`, which is how the model reaches the backing error paths. -/

set_option autoImplicit false

namespace ContainerFs.Fs

/-- The backing filesystem an inode belongs to. -/
inductive Layer where
  | upper
  | lower
  deriving DecidableEq, Repr

/-- A backing inode: the layer it lives on and its number there. -/
structure Ino where
  layer : Layer
  num : Nat
  deriving DecidableEq, Repr

abbrev EntryId := Nat
abbrev DirentId := Nat

/-- A finite map from names, as directories and extended-attribute sets keep them. -/
abbrev Assoc (β : Type) := List (String × β)

namespace Assoc

variable {β : Type}

def get (k : String) : Assoc β → Option β
  | [] => none
  | (k', v) :: xs => if k' = k then some v else get k xs

def erase (k : String) (xs : Assoc β) : Assoc β := xs.filter (fun p => p.1 != k)

def set (k : String) (v : β) (xs : Assoc β) : Assoc β := (k, v) :: erase k xs

@[simp] theorem get_erase (k k' : String) (xs : Assoc β) :
    get k' (erase k xs) = if k = k' then none else get k' xs := by
  induction xs with
  | nil => simp [get, erase]
  | cons p xs ih =>
    obtain ⟨j, v⟩ := p
    by_cases hj : j = k
    · subst hj
      by_cases hk : j = k'
      · subst hk
        simpa [erase, List.filter_cons] using ih
      · simpa [erase, List.filter_cons, get, hk] using ih
    · by_cases hk : j = k'
      · subst hk
        simp [erase, List.filter_cons, get, hj, Ne.symm hj]
      · simpa [erase, List.filter_cons, get, hj, hk] using ih

@[simp] theorem get_set (k k' : String) (v : β) (xs : Assoc β) :
    get k' (set k v xs) = if k = k' then some v else get k' xs := by
  by_cases same : k = k' <;> simp [set, get, same]

theorem mem_of_get {k : String} {v : β} {xs : Assoc β} (found : get k xs = some v) :
    (k, v) ∈ xs := by
  induction xs with
  | nil => simp [get] at found
  | cons p xs ih =>
    obtain ⟨j, u⟩ := p
    by_cases same : j = k
    · subst same
      simp only [get, if_true, Option.some.injEq] at found
      simp [found]
    · simp only [get, same, if_false] at found
      exact List.mem_cons_of_mem _ (ih found)

end Assoc

/-- What a backing directory answers for one name. -/
inductive Slot where
  | bound (i : Ino)
  | negative
  | failing (e : Errno)
  deriving DecidableEq, Repr

/-- `UnstableAttr`: what `SetPermissions`, `SetOwner`, `SetTimestamps` and `Truncate` change. -/
structure UnstableAttr where
  size : Nat
  perms : Nat
  owner : Nat
  mtime : Nat
  deriving DecidableEq, Repr

structure Inode where
  stable : StableAttr
  unstable : UnstableAttr
  children : Assoc Slot
  xattrs : Assoc String
  data : List Nat
  target : String
  link : Option Ino
  endpoint : Option Nat
  fault : Option Errno

/-- `overlayEntry`: the two counterparts of an overlay inode, and `lowerExists`. -/
structure OverlayEntry where
  upper : Option Ino
  lower : Option Ino
  lowerExists : Bool
  deriving DecidableEq, Repr

/-- The invariant of §3 on an entry. -/
structure OverlayEntry.WellFormed (o : OverlayEntry) : Prop where
  hasLayer : o.upper.isSome ∨ o.lower.isSome
  lowerExists : o.lower.isSome → o.lowerExists

/-- An overlay `Dirent` with its overlay `Inode`'s stable attributes and entry. -/
structure Dirent where
  name : String
  parent : Option DirentId
  entry : EntryId
  stable : StableAttr
  deriving DecidableEq, Repr

/-- What a reference or a read lock is held on. -/
inductive Hold where
  | inode (i : Ino)
  | dirent (dir : Ino) (name : String)
  | file (dir : Ino) (name : String)
  | link (i : Ino)
  | reader (e : EntryId)
  deriving DecidableEq, Repr

structure World where
  inodes : Ino → Option Inode
  nextIno : Nat
  entries : EntryId → Option OverlayEntry
  nextEntry : EntryId
  dirents : DirentId → Option Dirent
  nextDirent : DirentId
  holds : Hold → Int

namespace World

/-- A world holding the given backing inodes, overlay entries and Dirents. -/
def build (inodes : List (Ino × Inode)) (entries : List OverlayEntry) (dirents : List Dirent) :
    World where
  inodes i := inodes.lookup i
  nextIno := inodes.length
  entries e := entries[e]?
  nextEntry := entries.length
  dirents d := dirents[d]?
  nextDirent := dirents.length
  holds _ := 0

variable (w : World)

/-- No backing directory entry names a missing inode: Go's pointers do not dangle. -/
def SlotsLive : Prop :=
  ∀ dir b name i, w.inodes dir = some b → b.children.get name = some (.bound i) →
    (w.inodes i).isSome

def slotsListed (inodes : List (Ino × Inode)) : Bool :=
  inodes.all fun p => p.2.children.all fun q =>
    match q.2 with
    | .bound i => (inodes.lookup i).isSome
    | _ => true

theorem build_slotsLive {inodes : List (Ino × Inode)} (entries : List OverlayEntry)
    (dirents : List Dirent) (listed : slotsListed inodes = true) :
    (build inodes entries dirents).SlotsLive := by
  intro dir b n i hb hc
  obtain ⟨l₁, l₂, rfl, -⟩ := List.lookup_eq_some_iff.mp hb
  have inDir := List.all_eq_true.mp listed (dir, b) (by simp)
  simpa [build] using List.all_eq_true.mp inDir (n, .bound i) (Assoc.mem_of_get hc)

def setInode (i : Ino) (b : Inode) : World :=
  { w with inodes := Function.update w.inodes i (some b) }

def modify (i : Ino) (f : Inode → Inode) : World :=
  match w.inodes i with
  | some b => w.setInode i (f b)
  | none => w

def setEntry (e : EntryId) (x : OverlayEntry) : World :=
  { w with entries := Function.update w.entries e (some x) }

def setDirent (d : DirentId) (x : Option Dirent) : World :=
  { w with dirents := Function.update w.dirents d x }

def acquire (h : Hold) : World :=
  { w with holds := Function.update w.holds h (w.holds h + 1) }

def release (h : Hold) : World :=
  { w with holds := Function.update w.holds h (w.holds h - 1) }

/-- `h.IncRef()` when `h` is present: the Go code guards each one with `!= nil`. -/
def acquireSome (h : Option Ino) : World :=
  match h with
  | some i => w.acquire (.inode i)
  | none => w

def releaseSome (h : Option Ino) : World :=
  match h with
  | some i => w.release (.inode i)
  | none => w

section Simp
variable {w} {i : Ino} {b : Inode} {e : EntryId} {x : OverlayEntry} {d : DirentId}
  {y : Option Dirent} {h : Hold}

@[simp] theorem setInode_entries : (w.setInode i b).entries = w.entries := rfl
@[simp] theorem setInode_dirents : (w.setInode i b).dirents = w.dirents := rfl
@[simp] theorem setInode_holds : (w.setInode i b).holds = w.holds := rfl
@[simp] theorem setInode_nextIno : (w.setInode i b).nextIno = w.nextIno := rfl
@[simp] theorem setInode_nextEntry : (w.setInode i b).nextEntry = w.nextEntry := rfl
@[simp] theorem setInode_nextDirent : (w.setInode i b).nextDirent = w.nextDirent := rfl
@[simp] theorem setInode_inodes : (w.setInode i b).inodes = Function.update w.inodes i (some b) :=
  rfl

@[simp] theorem modify_entries (f : Inode → Inode) : (w.modify i f).entries = w.entries := by
  unfold modify; split <;> rfl
@[simp] theorem modify_dirents (f : Inode → Inode) : (w.modify i f).dirents = w.dirents := by
  unfold modify; split <;> rfl

@[simp] theorem setEntry_inodes : (w.setEntry e x).inodes = w.inodes := rfl
@[simp] theorem setEntry_dirents : (w.setEntry e x).dirents = w.dirents := rfl
@[simp] theorem setEntry_holds : (w.setEntry e x).holds = w.holds := rfl
@[simp] theorem setEntry_nextIno : (w.setEntry e x).nextIno = w.nextIno := rfl
@[simp] theorem setEntry_nextEntry : (w.setEntry e x).nextEntry = w.nextEntry := rfl
@[simp] theorem setEntry_nextDirent : (w.setEntry e x).nextDirent = w.nextDirent := rfl
@[simp] theorem setEntry_entries :
    (w.setEntry e x).entries = Function.update w.entries e (some x) := rfl

@[simp] theorem setDirent_inodes : (w.setDirent d y).inodes = w.inodes := rfl
@[simp] theorem setDirent_entries : (w.setDirent d y).entries = w.entries := rfl
@[simp] theorem setDirent_holds : (w.setDirent d y).holds = w.holds := rfl
@[simp] theorem setDirent_nextIno : (w.setDirent d y).nextIno = w.nextIno := rfl
@[simp] theorem setDirent_nextEntry : (w.setDirent d y).nextEntry = w.nextEntry := rfl
@[simp] theorem setDirent_nextDirent : (w.setDirent d y).nextDirent = w.nextDirent := rfl
@[simp] theorem setDirent_dirents : (w.setDirent d y).dirents = Function.update w.dirents d y :=
  rfl

@[simp] theorem acquire_inodes : (w.acquire h).inodes = w.inodes := rfl
@[simp] theorem acquire_entries : (w.acquire h).entries = w.entries := rfl
@[simp] theorem acquire_dirents : (w.acquire h).dirents = w.dirents := rfl
@[simp] theorem acquire_nextIno : (w.acquire h).nextIno = w.nextIno := rfl
@[simp] theorem acquire_nextEntry : (w.acquire h).nextEntry = w.nextEntry := rfl
@[simp] theorem acquire_nextDirent : (w.acquire h).nextDirent = w.nextDirent := rfl
@[simp] theorem release_inodes : (w.release h).inodes = w.inodes := rfl
@[simp] theorem release_entries : (w.release h).entries = w.entries := rfl
@[simp] theorem release_dirents : (w.release h).dirents = w.dirents := rfl
@[simp] theorem release_nextIno : (w.release h).nextIno = w.nextIno := rfl
@[simp] theorem release_nextEntry : (w.release h).nextEntry = w.nextEntry := rfl
@[simp] theorem release_nextDirent : (w.release h).nextDirent = w.nextDirent := rfl

theorem acquire_holds (h' : Hold) :
    (w.acquire h).holds h' = w.holds h' + if h' = h then 1 else 0 := by
  by_cases same : h' = h
  · subst same; simp [acquire]
  · simp [acquire, Function.update_noteq same, same]

theorem release_holds (h' : Hold) :
    (w.release h).holds h' = w.holds h' - if h' = h then 1 else 0 := by
  by_cases same : h' = h
  · subst same; simp [release]
  · simp [release, Function.update_noteq same, same]

end Simp

end World

end ContainerFs.Fs
