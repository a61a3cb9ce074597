import ContainerFs.Fs.World

/-! The calls the overlay makes into its two backing filesystems, over `World`. Creation
allocates a fresh inode on the layer of its directory, so a mutating call changes only inodes of
its target's layer. -/

set_option autoImplicit false

namespace ContainerFs.Fs

/-- What `Lookup` hands back: a positive or a negative Dirent, or an error. -/
inductive Looked where
  | positive (i : Ino)
  | negative
  | error (e : Errno)
  deriving DecidableEq, Repr

structure FileFlags where
  read : Bool
  write : Bool
  deriving DecidableEq, Repr

structure PermMask where
  read : Bool
  write : Bool
  execute : Bool
  deriving DecidableEq, Repr

structure Info where
  type : Nat
  deriving DecidableEq, Repr

structure File where
  inode : Ino
  flags : FileFlags
  deriving DecidableEq, Repr

def Slot.isBound : Slot → Bool
  | .bound _ => true
  | _ => false

/-- A new backing inode of type `type`, numbered `i`. -/
def Inode.fresh (type : InodeType) (i : Ino) (target : String) (endpoint : Option Nat) :
    Inode where
  stable := { type := type, deviceID := 0, inodeID := i.num }
  unstable := ⟨0, 0, 0, 0⟩
  children := []
  xattrs := []
  data := []
  target := target
  link := none
  endpoint := endpoint
  fault := none

namespace World

variable (w : World)

/-- The inode a call operates on; a faulted inode fails the call. -/
def live (i : Ino) : Except Errno Inode :=
  match w.inodes i with
  | none => .error .ENOENT
  | some b =>
    match b.fault with
    | some e => .error e
    | none => .ok b

def slot (dir : Ino) (name : String) : Option Slot :=
  (w.inodes dir).bind fun b => b.children.get name

def isDirIno (i : Ino) : Bool :=
  match w.inodes i with
  | some b => isDir b.stable
  | none => false

def isEmptyDir (i : Ino) : Bool :=
  match w.inodes i with
  | some b => b.children.all fun p => !p.2.isBound
  | none => true

/-- `dir.Lookup(ctx, name)`; the Dirent it returns comes with a reference for the caller. -/
def lookup (dir : Ino) (name : String) : Looked × World :=
  match w.slot dir name with
  | some (.bound i) => (.positive i, w.acquire (.dirent dir name))
  | some .negative => (.negative, w.acquire (.dirent dir name))
  | some (.failing e) => (.error e, w)
  | none => (.error .ENOENT, w)

def getxattr (i : Ino) (name : String) : Except Errno String :=
  match w.live i with
  | .error e => .error e
  | .ok b =>
    match b.xattrs.get name with
    | some v => .ok v
    | none => .error .ENODATA

def listxattr (i : Ino) : Except Errno (List String) :=
  (w.live i).map fun b => b.xattrs.map Prod.fst

def setxattr (i : Ino) (name value : String) : Except Errno World :=
  (w.live i).map fun b => w.setInode i { b with xattrs := b.xattrs.set name value }

/-- Make a new object of type `type` named `name` in directory `dir`, on `dir`'s layer. -/
def mknod (dir : Ino) (name : String) (type : InodeType) (target : String)
    (endpoint : Option Nat) : Except Errno (Ino × World) :=
  match w.live dir with
  | .error e => .error e
  | .ok b =>
    if !isDir b.stable then .error .ENOTDIR
    else
      match b.children.get name with
      | some (.bound _) => .error .EEXIST
      | _ =>
        let i : Ino := ⟨dir.layer, w.nextIno⟩
        .ok (i, { (w.setInode dir { b with children := b.children.set name (.bound i) }).setInode i
            (Inode.fresh type i target endpoint) with nextIno := w.nextIno + 1 })

/-- `Create`: a regular file, handed out as an open `File` on its own `Dirent`. -/
def create (dir : Ino) (name : String) : Except Errno (Ino × World) :=
  match w.mknod dir name .regularFile "" none with
  | .ok (i, w') => .ok (i, (w'.acquire (.file dir name)).acquire (.dirent dir name))
  | .error e => .error e

def createDirectory (dir : Ino) (name : String) : Except Errno World :=
  (w.mknod dir name .directory "" none).map Prod.snd

def createLink (dir : Ino) (oldname newname : String) : Except Errno World :=
  (w.mknod dir newname .symlink oldname none).map Prod.snd

def createFifo (dir : Ino) (name : String) : Except Errno World :=
  (w.mknod dir name .pipe "" none).map Prod.snd

/-- `Bind`: a socket, handed out on its own `Dirent`. -/
def bind (dir : Ino) (name : String) (data : Nat) : Except Errno (Ino × World) :=
  match w.mknod dir name .socket "" (some data) with
  | .ok (i, w') => .ok (i, w'.acquire (.dirent dir name))
  | .error e => .error e

def createHardLink (dir target : Ino) (name : String) : Except Errno World :=
  match w.live dir with
  | .error e => .error e
  | .ok b =>
    if !isDir b.stable then .error .ENOTDIR
    else
      match b.children.get name with
      | some (.bound _) => .error .EEXIST
      | _ => .ok (w.setInode dir { b with children := b.children.set name (.bound target) })

def remove (dir : Ino) (name : String) : Except Errno World :=
  match w.live dir with
  | .error e => .error e
  | .ok b =>
    match b.children.get name with
    | some (.bound c) =>
      if w.isDirIno c then .error .EISDIR
      else .ok (w.setInode dir { b with children := b.children.erase name })
    | _ => .error .ENOENT

def removeDirectory (dir : Ino) (name : String) : Except Errno World :=
  match w.live dir with
  | .error e => .error e
  | .ok b =>
    match b.children.get name with
    | some (.bound c) =>
      if !w.isDirIno c then .error .ENOTDIR
      else if !w.isEmptyDir c then .error .ENOTEMPTY
      else .ok (w.setInode dir { b with children := b.children.erase name })
    | _ => .error .ENOENT

def move (oldDir : Ino) (oldName : String) (newDir : Ino) (newName : String) (c : Ino) :
    World :=
  (w.modify oldDir fun b => { b with children := b.children.erase oldName }).modify newDir
    fun b => { b with children := b.children.set newName (.bound c) }

def rename (oldDir : Ino) (oldName : String) (newDir : Ino) (newName : String)
    (replacement : Bool) : Except Errno World :=
  match w.live oldDir, w.live newDir with
  | .error e, _ => .error e
  | _, .error e => .error e
  | .ok bo, .ok bn =>
    if !isDir bn.stable then .error .ENOTDIR
    else
      match bo.children.get oldName with
      | some (.bound c) =>
        match bn.children.get newName with
        | some (.bound t) =>
          if !replacement then .error .EEXIST
          else if w.isDirIno t && !w.isEmptyDir t then .error .ENOTEMPTY
          else .ok (w.move oldDir oldName newDir newName c)
        | _ => .ok (w.move oldDir oldName newDir newName c)
      | _ => .error .ENOENT

def setAttr (i : Ino) (f : Inode → Inode) : Except Errno World :=
  (w.live i).map fun b => w.setInode i (f b)

def setPermissions (i : Ino) (perms : Nat) : Bool × World :=
  match w.setAttr i fun b => { b with unstable := { b.unstable with perms := perms } } with
  | .ok w' => (true, w')
  | .error _ => (false, w)

def setOwner (i : Ino) (owner : Nat) : Except Errno World :=
  w.setAttr i fun b => { b with unstable := { b.unstable with owner := owner } }

def setTimestamps (i : Ino) (mtime : Nat) : Except Errno World :=
  w.setAttr i fun b => { b with unstable := { b.unstable with mtime := mtime } }

def truncate (i : Ino) (size : Nat) : Except Errno World :=
  w.setAttr i fun b =>
    { b with
      unstable := { b.unstable with size := size }
      data := b.data.take size }

def writeOut (i : Ino) : Except Errno Unit :=
  (w.live i).map fun _ => ()

def unstableAttr (i : Ino) : Except Errno UnstableAttr :=
  (w.live i).map Inode.unstable

def readlink (i : Ino) : Except Errno String :=
  match w.live i with
  | .error e => .error e
  | .ok b => if b.stable.type = .symlink then .ok b.target else .error .EINVAL

/-- `Getlink`: the Dirent a magic link resolves to, with a reference for the caller. -/
def getlink (i : Ino) : Except Errno Ino × World :=
  match w.live i with
  | .error e => (.error e, w)
  | .ok b =>
    match b.link with
    | some t => (.ok t, w.acquire (.link i))
    | none => (.error .EINVAL, w)

def statFS (i : Ino) : Except Errno Info :=
  (w.live i).map fun _ => ⟨0⟩

/-- `check`: the mode bits `perms % 8` grant read (4), write (2) and execute (1). -/
def check (i : Ino) (p : PermMask) : Except Errno Unit :=
  match w.live i with
  | .error e => .error e
  | .ok b =>
    let granted := b.unstable.perms % 8
    if (p.read && granted / 4 % 2 = 0) || (p.write && granted / 2 % 2 = 0) ||
        (p.execute && granted % 2 = 0) then .error .EACCES
    else .ok ()

def boundEndpoint (i : Ino) : Option Nat :=
  (w.inodes i).bind Inode.endpoint

def getFile (i : Ino) (flags : FileFlags) : Except Errno File :=
  (w.live i).map fun _ => ⟨i, flags⟩

def write (f : File) (bytes : List Nat) : Except Errno World :=
  if !f.flags.write then .error .EACCES
  else w.setAttr f.inode fun b => { b with data := b.data ++ bytes }

section Reads
variable {w} {h : Hold} {o : Option Ino}

@[simp] theorem acquireSome_inodes : (w.acquireSome o).inodes = w.inodes := by
  cases o <;> rfl
@[simp] theorem releaseSome_inodes : (w.releaseSome o).inodes = w.inodes := by
  cases o <;> rfl
@[simp] theorem acquireSome_entries : (w.acquireSome o).entries = w.entries := by
  cases o <;> rfl
@[simp] theorem releaseSome_entries : (w.releaseSome o).entries = w.entries := by
  cases o <;> rfl
@[simp] theorem acquireSome_dirents : (w.acquireSome o).dirents = w.dirents := by
  cases o <;> rfl
@[simp] theorem releaseSome_dirents : (w.releaseSome o).dirents = w.dirents := by
  cases o <;> rfl

theorem slot_congr {w' : World} (same : w'.inodes = w.inodes) : w'.slot = w.slot := by
  funext d n; simp [slot, same]

theorem live_congr {w' : World} (same : w'.inodes = w.inodes) : w'.live = w.live := by
  funext i; simp [live, same]

theorem getxattr_congr {w' : World} (same : w'.inodes = w.inodes) :
    w'.getxattr = w.getxattr := by
  funext i n; simp [getxattr, live_congr same]

theorem lookup_fst_congr {w' : World} (same : w'.inodes = w.inodes) (dir : Ino) (name : String) :
    (w'.lookup dir name).1 = (w.lookup dir name).1 := by
  simp only [lookup, slot_congr same]
  split <;> rfl

@[simp] theorem lookup_inodes (dir : Ino) (name : String) : (w.lookup dir name).2.inodes = w.inodes := by
  unfold lookup; split <;> rfl
@[simp] theorem lookup_entries (dir : Ino) (name : String) :
    (w.lookup dir name).2.entries = w.entries := by
  unfold lookup; split <;> rfl
@[simp] theorem lookup_dirents (dir : Ino) (name : String) :
    (w.lookup dir name).2.dirents = w.dirents := by
  unfold lookup; split <;> rfl

end Reads

/-! ## What each mutating call does when it succeeds -/

section Specs
variable {w} {w' : World} {dir i : Ino} {name : String} {b : Inode}

theorem live_ok (h : w.live i = .ok b) : w.inodes i = some b := by
  unfold live at h
  split at h
  · cases h
  · split at h <;> cases h
    assumption

theorem mknod_spec {t : InodeType} {target : String} {ep : Option Nat}
    (made : w.mknod dir name t target ep = .ok (i, w')) :
    ∃ b, w.inodes dir = some b ∧ isDir b.stable ∧ i = ⟨dir.layer, w.nextIno⟩ ∧
      w' = { (w.setInode dir { b with children := b.children.set name (.bound i) }).setInode i
        (Inode.fresh t i target ep) with nextIno := w.nextIno + 1 } := by
  unfold mknod at made
  rcases hl : w.live dir with e | b <;> simp only [hl] at made
  · cases made
  · by_cases d : isDir b.stable
    · simp only [d, Bool.not_true, Bool.false_eq_true, if_false] at made
      split at made
      · cases made
      · cases made
        exact ⟨b, live_ok hl, d, rfl, rfl⟩
    · simp [d] at made

theorem createHardLink_spec {target : Ino} (made : w.createHardLink dir target name = .ok w') :
    ∃ b, w.inodes dir = some b ∧ isDir b.stable ∧
      w' = w.setInode dir { b with children := b.children.set name (.bound target) } := by
  unfold createHardLink at made
  rcases hl : w.live dir with e | b <;> simp only [hl] at made
  · cases made
  · by_cases d : isDir b.stable
    · simp only [d, Bool.not_true, Bool.false_eq_true, if_false] at made
      split at made
      · cases made
      · cases made
        exact ⟨b, live_ok hl, d, rfl⟩
    · simp [d] at made

theorem remove_spec (made : w.remove dir name = .ok w') :
    ∃ b c, w.inodes dir = some b ∧ b.children.get name = some (.bound c) ∧ w.isDirIno c = false ∧
      w' = w.setInode dir { b with children := b.children.erase name } := by
  unfold remove at made
  rcases hl : w.live dir with e | b <;> simp only [hl] at made
  · cases made
  rcases hc : b.children.get name with _ | (c | _ | e) <;> simp only [hc, reduceCtorEq] at made
  cases hd : w.isDirIno c <;> simp [hd] at made
  exact ⟨b, c, live_ok hl, hc, hd, made.symm⟩

theorem removeDirectory_spec (made : w.removeDirectory dir name = .ok w') :
    ∃ b c, w.inodes dir = some b ∧ b.children.get name = some (.bound c) ∧ w.isDirIno c = true ∧
      w.isEmptyDir c = true ∧ w' = w.setInode dir { b with children := b.children.erase name } := by
  unfold removeDirectory at made
  rcases hl : w.live dir with e | b <;> simp only [hl] at made
  · cases made
  rcases hc : b.children.get name with _ | (c | _ | e) <;> simp only [hc, reduceCtorEq] at made
  cases hd : w.isDirIno c <;> cases he : w.isEmptyDir c <;> simp [hd, he] at made
  exact ⟨b, c, live_ok hl, hc, hd, he, made.symm⟩

theorem rename_spec {oldDir newDir : Ino} {oldName newName : String} {replacement : Bool}
    (made : w.rename oldDir oldName newDir newName replacement = .ok w') :
    ∃ bo bn c, w.inodes oldDir = some bo ∧ w.inodes newDir = some bn ∧ isDir bn.stable ∧
      bo.children.get oldName = some (.bound c) ∧ w' = w.move oldDir oldName newDir newName c := by
  unfold rename at made
  rcases ho : w.live oldDir with e | bo <;> rcases hn : w.live newDir with e' | bn <;>
    simp only [ho, hn] at made
  · cases made
  · cases made
  · cases made
  · by_cases d : isDir bn.stable
    · simp only [d, Bool.not_true, Bool.false_eq_true, if_false] at made
      split at made
      · rename_i c hc
        split at made
        · split at made
          · cases made
          · split at made
            · cases made
            · cases made
              exact ⟨bo, bn, c, live_ok ho, live_ok hn, d, hc, rfl⟩
        · cases made
          exact ⟨bo, bn, c, live_ok ho, live_ok hn, d, hc, rfl⟩
      · cases made
    · simp [d] at made

theorem setxattr_spec {key value : String} (made : w.setxattr i key value = .ok w') :
    ∃ b, w.inodes i = some b ∧ w' = w.setInode i { b with xattrs := b.xattrs.set key value } := by
  unfold setxattr at made
  rcases hl : w.live i with e | b <;> simp only [hl] at made
  · cases made
  · cases made
    exact ⟨b, live_ok hl, rfl⟩

theorem setAttr_spec {f : Inode → Inode} (made : w.setAttr i f = .ok w') :
    ∃ b, w.inodes i = some b ∧ w' = w.setInode i (f b) := by
  unfold setAttr at made
  rcases hl : w.live i with e | b <;> simp only [hl] at made
  · cases made
  · cases made
    exact ⟨b, live_ok hl, rfl⟩

end Specs

end World

end ContainerFs.Fs
