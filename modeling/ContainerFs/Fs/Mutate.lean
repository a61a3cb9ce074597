import ContainerFs.Fs.CopyUp

/-! The mutating operations of an overlay inode. Each copies up what it is about to change, then
delegates to the upper backing filesystem; the entry the Go code receives is read from the
parent Dirent (from the Dirent itself for the setters). -/

set_option autoImplicit false

namespace ContainerFs.Fs

/-- The entry and stable attributes of a new overlay inode. -/
structure NewInode where
  entry : OverlayEntry
  stable : StableAttr
  deriving DecidableEq, Repr

def stepOf (w : World) : Except Errno World → Step Unit
  | .ok w => (.ok (), w)
  | .error e => (.err e, w)

/-- Continue with `o.upper` of Dirent `d`'s entry, which the Go code dereferences. -/
def withUpper {α : Type} (w : World) (d : DirentId) (k : Ino → Step α) : Step α :=
  match w.upperOf d with
  | some u => k u
  | none => (.panic "nil dereference of upper", w)

/-- Go's `if err := copyUp(ctx, d); err != nil { return err }`. -/
def afterCopyUp {α : Type} (w : World) (d : DirentId) (k : World → Step α) : Step α :=
  match copyUp w d with
  | (.ok (), w) => k w
  | (.err e, w) => (.err e, w)
  | (.panic why, w) => (.panic why, w)

/-- Modelled from the spec: remove `name` from the upper directory, best effort (§7). -/
def cleanupUpper (w : World) (parent : Ino) (name : String) : World :=
  match w.remove parent name with
  | .ok w => w
  | .error _ => w

/-- Drop a Dirent `overlayLookup` returned: its entry's references go with it. -/
def dropFound (w : World) : Found → World
  | .positive e _ => (w.releaseSome e.upper).releaseSome e.lower
  | .negative => w

section
variable (check : EntryCheck)

/-- `overlayCreate`: the new entry and the upper `File` the returned overlay file wraps. -/
def overlayCreate (w : World) (parent : DirentId) (name : String) (flags : FileFlags) :
    Step (NewInode × File) :=
  afterCopyUp w parent fun w =>
    withUpper w parent fun ou =>
      match w.create ou name with
      | .error e => (.err e, w)
      | .ok (i, w) =>
        let w := w.acquire (.inode i)
        match newOverlayEntry check (some i) none false with
        | .err e => (.err e, cleanupUpper w ou name)
        | .panic why => (.panic why, w)
        | .ok entry =>
          let w := (w.acquire (.inode i)).release (.dirent ou name)
          (.ok (⟨entry, w.stableOf i⟩, ⟨i, flags⟩), w)

/-- The shape of `overlayCreateDirectory`, `overlayCreateLink` and `overlayCreateFifo`. -/
def overlayCreateUpper (w : World) (parent : DirentId) (make : World → Ino → Except Errno World) :
    Step Unit :=
  afterCopyUp w parent fun w => withUpper w parent fun ou => stepOf w (make w ou)

def overlayCreateDirectory (w : World) (parent : DirentId) (name : String) : Step Unit :=
  overlayCreateUpper w parent fun w ou => w.createDirectory ou name

def overlayCreateLink (w : World) (parent : DirentId) (oldname newname : String) : Step Unit :=
  overlayCreateUpper w parent fun w ou => w.createLink ou oldname newname

def overlayCreateFifo (w : World) (parent : DirentId) (name : String) : Step Unit :=
  overlayCreateUpper w parent fun w ou => w.createFifo ou name

def overlayCreateHardLink (w : World) (parent target : DirentId) (name : String) : Step Unit :=
  afterCopyUp w parent fun w =>
    afterCopyUp w target fun w =>
      withUpper w parent fun ou =>
        withUpper w target fun tu => stepOf w (w.createHardLink ou tu name)

/-- Remove the child's upper counterpart: `RemoveDirectory` for a `Directory`, else `Remove`. -/
def removeUpper (w : World) (parent : DirentId) (cd : Dirent) : Step Unit :=
  withUpper w parent fun ou =>
    stepOf w (if cd.stable.type = .directory then w.removeDirectory ou cd.name
      else w.remove ou cd.name)

def whiteoutUpper (w : World) (parent : DirentId) (name : String) : Step Unit :=
  withUpper w parent fun ou => stepOf w (overlayCreateWhiteout w ou name)

/-- `overlayRemove` under the child's read lock. -/
def overlayRemoveLocked (w : World) (parent : DirentId) (cd : Dirent) (ce : OverlayEntry) :
    Step Unit :=
  match (if ce.upper.isSome then removeUpper w parent cd else (.ok (), w)) with
  | (.ok (), w) => if ce.lowerExists then whiteoutUpper w parent cd.name else (.ok (), w)
  | r => r

def overlayRemove (w : World) (parent child : DirentId) : Step Unit :=
  afterCopyUp w parent fun w =>
    match w.dirents child with
    | none => (.panic "nil Dirent", w)
    | some cd =>
      match w.entries cd.entry with
      | none => (.panic "nil overlayEntry", w)
      | some ce =>
        match overlayRemoveLocked (w.acquire (.reader cd.entry)) parent cd ce with
        | (r, w) => (r, w.release (.reader cd.entry))

def overlayBind (w : World) (o : EntryId) (name : String) (data : Nat) : Step NewInode :=
  match w.entries o with
  | none => (.panic "nil overlayEntry", w)
  | some oe =>
    let w := w.acquire (.reader o)
    let r : Step NewInode :=
      match oe.upper with
      | none => (.err .EOPNOTSUPP, w)
      | some ou =>
        match w.bind ou name data with
        | .error e => (.err e, w)
        | .ok (i, w) =>
          let w := (w.acquire (.inode i)).release (.dirent ou name)
          match newOverlayEntry check (some i) none false with
          | .err e => (.err e, w.release (.inode i))
          | .panic why => (.panic why, w)
          | .ok entry => (.ok ⟨entry, w.stableOf i⟩, w)
    (r.1, r.2.release (.reader o))

variable (readdirOne : World → OverlayEntry → Except Errno (List String))

/-- The first part of `overlayRename`: look `newName` up again, refuse a non-empty directory. -/
def renameReplaced (w : World) (newParent : DirentId) (newName : String) (replacement : Bool) :
    Step Bool :=
  if !replacement then (.ok false, w)
  else
    match w.dirents newParent with
    | none => (.panic "nil Dirent", w)
    | some np =>
      match overlayLookup check w np.entry newName with
      | (.panic why, w) => (.panic why, w)
      | (.err e, w) => if e = .ENOENT then (.ok true, w) else (.err e, w)
      | (.ok (replaced, inUpper), w) =>
        match replaced with
        | .positive e stable =>
          if isDir stable then
            match readdirOne w e with
            | .error err => (.err err, dropFound w replaced)
            | .ok children =>
              if children ≠ [] then (.err .ENOTEMPTY, dropFound w replaced)
              else (.ok inUpper, dropFound w replaced)
          else (.ok inUpper, dropFound w replaced)
        | .negative => (.ok inUpper, w)

/-- `overlayRename`; every Dirent of the modelled tree is an overlay one, so no `EXDEV`. -/
def overlayRename (w : World) (oldParent renamed newParent : DirentId) (newName : String)
    (replacement : Bool) : Step Unit :=
  match renameReplaced check readdirOne w newParent newName replacement with
  | (.err e, w) => (.err e, w)
  | (.panic why, w) => (.panic why, w)
  | (.ok replacement, w) =>
    afterCopyUp w renamed fun w =>
      afterCopyUp w newParent fun w =>
        match w.dirents renamed with
        | none => (.panic "nil Dirent", w)
        | some rd =>
          match w.upperOf oldParent, w.upperOf newParent with
          | some ou, some nu =>
            match w.rename ou rd.name nu newName replacement with
            | .error e => (.err e, w)
            | .ok w =>
              match w.entries rd.entry with
              | none => (.panic "nil overlayEntry", w)
              | some re =>
                if re.lowerExists then stepOf w (overlayCreateWhiteout w ou rd.name)
                else (.ok (), w)
          | _, _ => (.panic "nil parent passed to the upper Rename", w)

end

/-- `overlaySetPermissions` reports failure as `false`. -/
def overlaySetPermissions (w : World) (d : DirentId) (perms : Nat) : Step Bool :=
  match copyUp w d with
  | (.ok (), w) =>
    withUpper w d fun u =>
      match w.setPermissions u perms with
      | (ok, w) => (.ok ok, w)
  | (.err _, w) => (.ok false, w)
  | (.panic why, w) => (.panic why, w)

/-- The shape of `overlaySetOwner`, `overlaySetTimestamps` and `overlayTruncate`. -/
def overlaySetAttr (w : World) (d : DirentId) (set : World → Ino → Except Errno World) :
    Step Unit :=
  afterCopyUp w d fun w => withUpper w d fun u => stepOf w (set w u)

def overlaySetOwner (w : World) (d : DirentId) (owner : Nat) : Step Unit :=
  overlaySetAttr w d fun w u => w.setOwner u owner

def overlaySetTimestamps (w : World) (d : DirentId) (mtime : Nat) : Step Unit :=
  overlaySetAttr w d fun w u => w.setTimestamps u mtime

def overlayTruncate (w : World) (d : DirentId) (size : Nat) : Step Unit :=
  overlaySetAttr w d fun w u => w.truncate u size

def overlayWriteOut (w : World) (o : EntryId) : Step Unit :=
  match w.entries o with
  | none => (.panic "nil overlayEntry", w)
  | some e =>
    let r : Outcome Unit :=
      match e.upper with
      | some u => .ofExcept (w.writeOut u)
      | none => .ok ()
    (r, (w.acquire (.reader o)).release (.reader o))

/-- The open at the end of `overlayGetFile`, under the entry's read lock. -/
def overlayOpen (w : World) (d : DirentId) (flags : FileFlags) : Step File :=
  match w.dirents d with
  | none => (.panic "nil Dirent", w)
  | some dd =>
    match w.entries dd.entry with
    | none => (.panic "nil overlayEntry", w)
    | some e =>
      let w := w.acquire (.reader dd.entry)
      match readLayer e with
      | .ok i => (.ofExcept (w.getFile i flags), w.release (.reader dd.entry))
      | .err err => (.err err, w.release (.reader dd.entry))
      | .panic why => (.panic why, w)

def overlayGetFile (w : World) (d : DirentId) (flags : FileFlags) : Step File :=
  if flags.write then afterCopyUp w d fun w => overlayOpen w d flags else overlayOpen w d flags

end ContainerFs.Fs
