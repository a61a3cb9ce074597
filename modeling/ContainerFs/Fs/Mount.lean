import ContainerFs.Fs.Preserve
import Mathlib.Logic.Relation

/-! The overlay mount as a state machine over a tree of Dirents, driven by the kernel's filesystem
layer. The tree bookkeeping lives outside src/ and is modelled from the spec; a panic ends the
run, so it is not a transition. -/

set_option autoImplicit false

namespace ContainerFs.Fs

/-- An operation of the kernel's filesystem layer on the overlay mount. -/
inductive Op where
  | lookup (parent : DirentId) (name : String)
  | create (parent : DirentId) (name : String) (flags : FileFlags)
  | createDirectory (parent : DirentId) (name : String)
  | createLink (parent : DirentId) (oldname newname : String)
  | createHardLink (parent target : DirentId) (name : String)
  | createFifo (parent : DirentId) (name : String)
  | bind (parent : DirentId) (name : String) (data : Nat)
  | remove (child : DirentId)
  | rename (renamed newParent : DirentId) (newName : String) (replacement : Bool)
  | setPermissions (d : DirentId) (perms : Nat)
  | setOwner (d : DirentId) (owner : Nat)
  | setTimestamps (d : DirentId) (mtime : Nat)
  | truncate (d : DirentId) (size : Nat)
  | writeOut (d : DirentId)
  | write (d : DirentId) (flags : FileFlags) (bytes : List Nat)
  deriving DecidableEq, Repr

namespace World

/-- Modelled from the spec: cache a Dirent named `name` under `parent`, on a new overlay entry. -/
def attach (w : World) (parent : DirentId) (name : String) (entry : OverlayEntry)
    (stable : StableAttr) : World :=
  { w with
    entries := Function.update w.entries w.nextEntry (some entry)
    nextEntry := w.nextEntry + 1
    dirents := Function.update w.dirents w.nextDirent (some ⟨name, some parent, w.nextEntry, stable⟩)
    nextDirent := w.nextDirent + 1 }

/-- Modelled from the spec: after a rename, the Dirent hangs under its new parent and name. -/
def moveDirent (w : World) (d newParent : DirentId) (newName : String) : World :=
  match w.dirents d with
  | some dd => w.setDirent d (some { dd with parent := some newParent, name := newName })
  | none => w

end World

section Machine
variable (check : EntryCheck) (readdirOne : World → OverlayEntry → Except Errno (List String))

/-- One operation of the kernel's filesystem layer and the Dirent-tree update after it. -/
def exec (w : World) : Op → Step Unit
  | .lookup parent name =>
    match w.dirents parent with
    | none => (.panic "nil Dirent", w)
    | some pd =>
      match overlayLookup check w pd.entry name with
      | (.ok (.positive e s, _), w) => (.ok (), w.attach parent name e s)
      | (.ok (.negative, _), w) => (.ok (), w)
      | (.err e, w) => (.err e, w)
      | (.panic why, w) => (.panic why, w)
  | .create parent name flags =>
    match overlayCreate check w parent name flags with
    | (.ok (n, _), w) => (.ok (), w.attach parent name n.entry n.stable)
    | (.err e, w) => (.err e, w)
    | (.panic why, w) => (.panic why, w)
  | .createDirectory parent name => overlayCreateDirectory w parent name
  | .createLink parent oldname newname => overlayCreateLink w parent oldname newname
  | .createHardLink parent target name => overlayCreateHardLink w parent target name
  | .createFifo parent name => overlayCreateFifo w parent name
  | .bind parent name data =>
    match w.dirents parent with
    | none => (.panic "nil Dirent", w)
    | some pd =>
      match overlayBind check w pd.entry name data with
      | (.ok n, w) => (.ok (), w.attach parent name n.entry n.stable)
      | (.err e, w) => (.err e, w)
      | (.panic why, w) => (.panic why, w)
  | .remove child =>
    match w.dirents child with
    | none => (.panic "nil Dirent", w)
    | some cd =>
      match cd.parent with
      | none => (.err .EBUSY, w)
      | some parent => overlayRemove w parent child
  | .rename renamed newParent newName replacement =>
    match w.dirents renamed with
    | none => (.panic "nil Dirent", w)
    | some rd =>
      match rd.parent with
      | none => (.err .EBUSY, w)
      | some oldParent =>
        match overlayRename check readdirOne w oldParent renamed newParent newName replacement with
        | (.ok (), w) => (.ok (), w.moveDirent renamed newParent newName)
        | r => r
  | .setPermissions d perms =>
    match overlaySetPermissions w d perms with
    | (r, w) => (r.map fun _ => (), w)
  | .setOwner d owner => overlaySetOwner w d owner
  | .setTimestamps d mtime => overlaySetTimestamps w d mtime
  | .truncate d size => overlayTruncate w d size
  | .writeOut d =>
    match w.dirents d with
    | none => (.panic "nil Dirent", w)
    | some dd => overlayWriteOut w dd.entry
  | .write d flags bytes =>
    match overlayGetFile w d flags with
    | (.ok f, w) => stepOf w (w.write f bytes)
    | (.err e, w) => (.err e, w)
    | (.panic why, w) => (.panic why, w)

/-- Modelled from the spec: a new overlay mount over the backing inodes `inodes` (§3). -/
def mount (inodes : Ino → Option Inode) (nextIno : Nat) (upperRoot lowerRoot : Ino)
    (rootStable : StableAttr) : World where
  inodes := inodes
  nextIno := nextIno
  entries e := if e = 0 then some ⟨some upperRoot, some lowerRoot, true⟩ else none
  nextEntry := 1
  dirents d := if d = 0 then some ⟨"", none, 0, rootStable⟩ else none
  nextDirent := 1
  holds _ := 0

/-- What a mount requires of the backing filesystems. -/
structure MountOk (inodes : Ino → Option Inode) (nextIno : Nat) (upperRoot lowerRoot : Ino) :
    Prop where
  binds : ∀ dir b, inodes dir = some b → b.Binds dir.layer
  fresh : ∀ i, nextIno ≤ i.num → inodes i = none
  upperRoot : upperRoot.layer = .upper
  lowerRoot : lowerRoot.layer = .lower

def bindsListed (inodes : List (Ino × Inode)) : Bool :=
  inodes.all fun p => p.2.children.all fun q =>
    match q.2 with
    | .bound i => i.layer = p.1.layer && isDir p.2.stable
    | _ => true

theorem mountOk_of_listed {inodes : List (Ino × Inode)} {upperRoot lowerRoot : Ino}
    (listed : bindsListed inodes = true)
    (below : inodes.all (fun p => p.1.num < inodes.length) = true)
    (upper : upperRoot.layer = .upper) (lower : lowerRoot.layer = .lower) :
    MountOk (fun i => inodes.lookup i) inodes.length upperRoot lowerRoot where
  binds dir b hb n i hi := by
    obtain ⟨l₁, l₂, rfl, -⟩ := List.lookup_eq_some_iff.mp hb
    have inDir := List.all_eq_true.mp listed (dir, b) (by simp)
    simpa using List.all_eq_true.mp inDir (n, .bound i) (Assoc.mem_of_get hi)
  fresh i past := by
    rcases hi : inodes.lookup i with _ | b
    · rfl
    · obtain ⟨l₁, l₂, listing, -⟩ := List.lookup_eq_some_iff.mp hi
      have := List.all_eq_true.mp below (i, b) (by rw [listing]; simp)
      simp only [decide_eq_true_eq] at this
      omega
  upperRoot := upper
  lowerRoot := lower

/-- The states a mount reaches: every run of operations none of which panics. -/
inductive Reach : World → Prop
  | mount {inodes : Ino → Option Inode} {nextIno : Nat} {upperRoot lowerRoot : Ino}
      (rootStable : StableAttr) :
      MountOk inodes nextIno upperRoot lowerRoot →
      Reach (mount inodes nextIno upperRoot lowerRoot rootStable)
  | step {w : World} (op : Op) :
      Reach w → (exec check readdirOne w op).1.isPanic = false → Reach (exec check readdirOne w op).2

def Next (w w' : World) : Prop :=
  ∃ op, (exec check readdirOne w op).1.isPanic = false ∧ (exec check readdirOne w op).2 = w'

end Machine

/-! ## The Dirent tree keeps the invariant -/

namespace World
variable {w : World} {parent : DirentId} {name : String} {e : OverlayEntry} {s : StableAttr}

@[simp] theorem attach_inodes : (w.attach parent name e s).inodes = w.inodes := rfl
@[simp] theorem attach_entries :
    (w.attach parent name e s).entries = Function.update w.entries w.nextEntry (some e) := rfl
@[simp] theorem attach_nextEntry : (w.attach parent name e s).nextEntry = w.nextEntry + 1 := rfl
@[simp] theorem attach_dirents : (w.attach parent name e s).dirents =
    Function.update w.dirents w.nextDirent (some ⟨name, some parent, w.nextEntry, s⟩) := rfl
@[simp] theorem attach_nextDirent : (w.attach parent name e s).nextDirent = w.nextDirent + 1 := rfl

theorem isSome_dirents_of_upperOf {d : DirentId} (has : (w.upperOf d).isSome) :
    (w.dirents d).isSome := by
  unfold upperOf at has
  rcases hd : w.dirents d with _ | dd
  · simp [hd] at has
  · rfl

theorem Invariant.entry_ne (inv : w.Invariant) {x : EntryId} (has : (w.entries x).isSome) :
    x ≠ w.nextEntry := by
  rintro rfl
  simp [inv.entriesFresh _ le_rfl] at has

theorem Invariant.dirent_ne (inv : w.Invariant) {d : DirentId} (has : (w.dirents d).isSome) :
    d ≠ w.nextDirent := by
  rintro rfl
  simp [inv.direntsFresh _ le_rfl] at has

theorem Invariant.upperOf_attach (inv : w.Invariant) {d : DirentId} (old : d ≠ w.nextDirent) :
    (w.attach parent name e s).upperOf d = w.upperOf d := by
  unfold upperOf
  rw [attach_dirents, Function.update_noteq old]
  rcases hd : w.dirents d with _ | dd
  · rfl
  · simp only [Option.some_bind, attach_entries]
    rw [Function.update_noteq (inv.entry_ne (inv.direntEntry d dd hd))]

theorem upperOf_attach_self : (w.attach parent name e s).upperOf w.nextDirent = e.upper := by
  simp [upperOf]

theorem attach_entries_eq_some {x : EntryId} {o : OverlayEntry}
    (h : (w.attach parent name e s).entries x = some o) :
    o = e ∨ x ≠ w.nextEntry ∧ w.entries x = some o := by
  by_cases hx : x = w.nextEntry
  · subst hx
    exact .inl (by simpa using h.symm)
  · rw [attach_entries, Function.update_noteq hx] at h
    exact .inr ⟨hx, h⟩

theorem attach_dirents_eq_some {d : DirentId} {dd : Dirent}
    (h : (w.attach parent name e s).dirents d = some dd) :
    d = w.nextDirent ∧ dd = ⟨name, some parent, w.nextEntry, s⟩ ∨
      d ≠ w.nextDirent ∧ w.dirents d = some dd := by
  by_cases hx : d = w.nextDirent
  · subst hx
    exact .inl ⟨rfl, by simpa using h.symm⟩
  · rw [attach_dirents, Function.update_noteq hx] at h
    exact .inr ⟨hx, h⟩

theorem Invariant.attach_parent (inv : w.Invariant) (live : (w.dirents parent).isSome) {d p : DirentId}
    {dd : Dirent} (hd : (w.attach parent name e s).dirents d = some dd) (hp : dd.parent = some p) :
    (w.dirents p).isSome := by
  rcases attach_dirents_eq_some hd with ⟨-, rfl⟩ | ⟨-, hd⟩
  · obtain rfl := Option.some.inj hp
    exact live
  · exact inv.parentLive d dd p hd hp

theorem Invariant.attach (inv : w.Invariant) (live : (w.dirents parent).isSome)
    (wf : e.WellFormed)
    (upper : ∀ u, e.upper = some u → u.layer = .upper ∧ (w.upperOf parent).isSome)
    (lower : ∀ l, e.lower = some l → l.layer = .lower) : (w.attach parent name e s).Invariant where
  backing := ⟨inv.backing.binds, inv.backing.fresh⟩
  upperLayer x o u found hu := by
    rcases attach_entries_eq_some found with rfl | ⟨-, found⟩
    · exact (upper u hu).1
    · exact inv.upperLayer x o u found hu
  lowerLayer x o l found hl := by
    rcases attach_entries_eq_some found with rfl | ⟨-, found⟩
    · exact lower l hl
    · exact inv.lowerLayer x o l found hl
  wellFormed x o found := by
    rcases attach_entries_eq_some found with rfl | ⟨-, found⟩
    · exact wf
    · exact inv.wellFormed x o found
  entriesFresh x past := by
    rw [attach_nextEntry] at past
    rw [attach_entries, Function.update_noteq (Nat.ne_of_gt past)]
    exact inv.entriesFresh x (Nat.le_of_succ_le past)
  direntsFresh d past := by
    rw [attach_nextDirent] at past
    rw [attach_dirents, Function.update_noteq (Nat.ne_of_gt past)]
    exact inv.direntsFresh d (Nat.le_of_succ_le past)
  direntEntry d dd hd := by
    rcases attach_dirents_eq_some hd with ⟨-, rfl⟩ | ⟨-, hd⟩
    · simp
    · simp only [attach_entries, Function.update_apply]
      split_ifs
      · rfl
      · exact inv.direntEntry d dd hd
  parentLive d dd p hd hp := by
    have old := inv.attach_parent live hd hp
    rwa [attach_dirents, Function.update_noteq (inv.dirent_ne old)]
  entryOwner d d' dd dd' hd hd' same := by
    rcases attach_dirents_eq_some hd with ⟨rfl, rfl⟩ | ⟨hx, hd⟩ <;>
      rcases attach_dirents_eq_some hd' with ⟨rfl, rfl⟩ | ⟨hx', hd'⟩
    · rfl
    · exact absurd same.symm (inv.entry_ne (inv.direntEntry d' dd' hd'))
    · exact absurd same (inv.entry_ne (inv.direntEntry d dd hd))
    · exact inv.entryOwner d d' dd dd' hd hd' same
  upperTree d dd p hd hp has := by
    rw [inv.upperOf_attach (inv.dirent_ne (inv.attach_parent live hd hp))]
    rcases attach_dirents_eq_some hd with ⟨rfl, rfl⟩ | ⟨hx, hd⟩
    · obtain rfl := Option.some.inj hp
      rw [upperOf_attach_self] at has
      obtain ⟨u, hu⟩ := Option.isSome_iff_exists.mp has
      exact (upper u hu).2
    · rw [inv.upperOf_attach hx] at has
      exact inv.upperTree d dd p hd hp has

section Move
variable {d newParent : DirentId} {newName : String}

theorem dirents_moveDirent {x : DirentId} {dx : Dirent}
    (hx : (w.moveDirent d newParent newName).dirents x = some dx) :
    ∃ dx0, w.dirents x = some dx0 ∧ dx.entry = dx0.entry ∧
      (dx.parent = dx0.parent ∨ (x = d ∧ dx.parent = some newParent)) := by
  unfold moveDirent at hx
  rcases hd : w.dirents d with _ | dd <;> simp only [hd] at hx
  · exact ⟨dx, hx, rfl, .inl rfl⟩
  by_cases same : x = d
  · subst same
    obtain rfl := Option.some.inj (by simpa using hx.symm)
    exact ⟨dd, hd, rfl, .inr ⟨rfl, rfl⟩⟩
  · rw [setDirent_dirents, Function.update_noteq same] at hx
    exact ⟨dx, hx, rfl, .inl rfl⟩

theorem isSome_dirents_moveDirent {x : DirentId} (live : (w.dirents x).isSome) :
    ((w.moveDirent d newParent newName).dirents x).isSome := by
  unfold moveDirent
  rcases hd : w.dirents d with _ | dd
  · exact live
  by_cases same : x = d
  · subst same; simp
  · simpa [Function.update_noteq same] using live

@[simp] theorem moveDirent_inodes : (w.moveDirent d newParent newName).inodes = w.inodes := by
  unfold moveDirent; split <;> rfl

@[simp] theorem moveDirent_nextIno : (w.moveDirent d newParent newName).nextIno = w.nextIno := by
  unfold moveDirent; split <;> rfl

@[simp] theorem moveDirent_entries : (w.moveDirent d newParent newName).entries = w.entries := by
  unfold moveDirent; split <;> rfl

@[simp] theorem moveDirent_nextEntry :
    (w.moveDirent d newParent newName).nextEntry = w.nextEntry := by
  unfold moveDirent; split <;> rfl

@[simp] theorem moveDirent_nextDirent :
    (w.moveDirent d newParent newName).nextDirent = w.nextDirent := by
  unfold moveDirent; split <;> rfl

@[simp] theorem upperOf_moveDirent (x : DirentId) :
    (w.moveDirent d newParent newName).upperOf x = w.upperOf x := by
  unfold upperOf
  rcases hx : (w.moveDirent d newParent newName).dirents x with _ | dx
  · rcases h0 : w.dirents x with _ | dx0
    · rfl
    · have live : ((w.moveDirent d newParent newName).dirents x).isSome :=
        isSome_dirents_moveDirent (by simp [h0])
      simp [hx] at live
  · obtain ⟨dx0, h0, same, -⟩ := dirents_moveDirent hx
    simp [h0, same]

theorem Invariant.moveDirent (inv : w.Invariant) (live : (w.dirents newParent).isSome)
    (up : (w.upperOf d).isSome → (w.upperOf newParent).isSome) :
    (w.moveDirent d newParent newName).Invariant where
  backing := ⟨fun i b h => inv.backing.binds i b (by simpa using h),
    fun i past => by simpa using inv.backing.fresh i (by simpa using past)⟩
  upperLayer x o u found := inv.upperLayer x o u (by simpa using found)
  lowerLayer x o l found := inv.lowerLayer x o l (by simpa using found)
  wellFormed x o found := inv.wellFormed x o (by simpa using found)
  entriesFresh x past := by simpa using inv.entriesFresh x (by simpa using past)
  direntsFresh x past := by
    rcases hx : (w.moveDirent d newParent newName).dirents x with _ | dx
    · rfl
    · obtain ⟨dx0, h0, -⟩ := dirents_moveDirent hx
      simp [inv.direntsFresh x (by simpa using past)] at h0
  direntEntry x dx hx := by
    obtain ⟨dx0, h0, same, -⟩ := dirents_moveDirent hx
    simpa [same] using inv.direntEntry x dx0 h0
  parentLive x dx p hx hp := by
    obtain ⟨dx0, h0, -, parent | ⟨-, moved⟩⟩ := dirents_moveDirent hx
    · exact isSome_dirents_moveDirent (inv.parentLive x dx0 p h0 (parent ▸ hp))
    · obtain rfl := Option.some.inj (hp.symm.trans moved)
      exact isSome_dirents_moveDirent live
  entryOwner x x' dx dx' hx hx' same := by
    obtain ⟨dx0, h0, e0, -⟩ := dirents_moveDirent hx
    obtain ⟨dx0', h0', e0', -⟩ := dirents_moveDirent hx'
    exact inv.entryOwner x x' dx0 dx0' h0 h0' (e0.symm.trans (same.trans e0'))
  upperTree x dx p hx hp has := by
    rw [upperOf_moveDirent] at has ⊢
    obtain ⟨dx0, h0, -, parent | ⟨rfl, moved⟩⟩ := dirents_moveDirent hx
    · exact inv.upperTree x dx0 p h0 (parent ▸ hp) has
    · obtain rfl := Option.some.inj (hp.symm.trans moved)
      exact up has

end Move

end World

/-! ## Every operation keeps the invariant -/

namespace World

/-- What one operation may do: keep the lower layer and every entry, up to copy-up. -/
structure Advances (w w' : World) : Prop where
  lowerFixed : ∀ i, i.layer = .lower → w'.inodes i = w.inodes i
  entries : ∀ e o, w.entries e = some o → ∃ o', w'.entries e = some o' ∧ o.CopiedUp o'

variable {w w' w'' : World}

theorem Evolves.advances (h : w.Evolves w') : w.Advances w' := ⟨h.lowerFixed, h.entries⟩

theorem Advances.refl (w : World) : w.Advances w :=
  ⟨fun _ _ => rfl, fun _ o found => ⟨o, found, .inl rfl⟩⟩

theorem Advances.trans (h : w.Advances w') (h' : w'.Advances w'') : w.Advances w'' where
  lowerFixed i lower := (h'.lowerFixed i lower).trans (h.lowerFixed i lower)
  entries e o found := by
    obtain ⟨o', f', c⟩ := h.entries e o found
    obtain ⟨o'', f'', c'⟩ := h'.entries e o' f'
    exact ⟨o'', f'', c.trans c'⟩

theorem Invariant.advances_attach (inv : w.Invariant) (parent : DirentId) (name : String)
    (e : OverlayEntry) (s : StableAttr) : w.Advances (w.attach parent name e s) where
  lowerFixed _ _ := rfl
  entries x o found := ⟨o, by
    rw [attach_entries, Function.update_noteq (inv.entry_ne (by simp [found]))]
    exact found, .inl rfl⟩

theorem Evolves.attach_upperOnly (inv : w.Invariant) (ev : w.Evolves w') {parent : DirentId}
    {name : String} {s : StableAttr} {i : Ino} (layer : i.layer = .upper)
    (up : (w'.upperOf parent).isSome) :
    (w'.attach parent name ⟨some i, none, false⟩ s).Invariant ∧
      w.Advances (w'.attach parent name ⟨some i, none, false⟩ s) := by
  have inv' := ev.invariant inv
  refine ⟨inv'.attach (isSome_dirents_of_upperOf up) ⟨.inl rfl, by simp⟩ ?_ (fun _ hl => by cases hl),
    ev.advances.trans (inv'.advances_attach ..)⟩
  intro u hu
  obtain rfl := Option.some.inj hu
  exact ⟨layer, up⟩

theorem advances_moveDirent (d newParent : DirentId) (newName : String) :
    w.Advances (w.moveDirent d newParent newName) where
  lowerFixed _ _ := by simp
  entries _ o found := ⟨o, by simpa using found, .inl rfl⟩

end World

open World

section Exec
variable (check : EntryCheck) (readdirOne : World → OverlayEntry → Except Errno (List String))
  {w w' : World}

theorem overlayOpen_ok {d : DirentId} {flags : FileFlags} {f : File}
    (h : overlayOpen w d flags = (.ok f, w')) :
    f.flags = flags ∧ ∀ u, w.upperOf d = some u → f.inode = u := by
  unfold overlayOpen at h
  rcases hd : w.dirents d with _ | dd <;> simp only [hd] at h
  · cases h
  rcases he : w.entries dd.entry with _ | e <;> simp only [he] at h
  · cases h
  rcases hr : readLayer e with i | err | why <;> simp only [hr] at h
  · rcases hl : (w.acquire (.reader dd.entry)).live i with err | b <;>
      simp [World.getFile, hl, Outcome.ofExcept, Except.map] at h
    obtain ⟨rfl, -⟩ := h
    refine ⟨rfl, fun u hu => ?_⟩
    simp only [upperOf, hd, he, Option.some_bind] at hu
    simpa [readLayer, hu] using hr.symm
  · cases h
  · cases h

theorem overlayGetFile_ok (inv : w.Invariant) {d : DirentId} {flags : FileFlags} {f : File}
    (h : overlayGetFile w d flags = (.ok f, w')) :
    f.flags = flags ∧ (flags.write = true → f.inode.layer = .upper) := by
  unfold overlayGetFile at h
  split at h
  · rename_i wr
    obtain ⟨w1, cu, h⟩ := afterCopyUp_ok h
    obtain ⟨ev, up⟩ := copyUp_ok inv cu
    obtain ⟨u, hu⟩ := Option.isSome_iff_exists.mp up
    obtain ⟨flags_eq, upper⟩ := overlayOpen_ok h
    exact ⟨flags_eq, fun _ => upper u hu ▸ (ev.invariant inv).upperOf_layer hu⟩
  · rename_i wr
    exact ⟨(overlayOpen_ok h).1, fun w => absurd w wr⟩

theorem evolves_write (inv : w.Invariant) {f : File} (bytes : List Nat)
    (upper : f.flags.write = true → f.inode.layer = .upper) :
    w.Evolves (stepOf w (w.write f bytes)).2 :=
  evolves_stepOf inv.backing fun w' made => by
    unfold World.write at made
    split at made
    · cases made
    · rename_i wr
      refine (upperChange_setAttr inv.backing (upper (by simpa using wr)) ?_ made).evolves
      exact fun _ => ⟨rfl, rfl⟩

theorem exec_invariant (inv : w.Invariant) (op : Op) :
    (exec check readdirOne w op).2.Invariant ∧ w.Advances (exec check readdirOne w op).2 := by
  have done : ∀ {w'}, w.Evolves w' → w'.Invariant ∧ w.Advances w' :=
    fun ev => ⟨ev.invariant inv, ev.advances⟩
  cases op with
  | lookup parent name =>
    simp only [exec]
    rcases hp : w.dirents parent with _ | pd
    · exact done (.refl inv.backing)
    obtain ⟨p, found⟩ := Option.isSome_iff_exists.mp (inv.direntEntry parent pd hp)
    have ch := upperChange_overlayLookup check name inv.backing pd.entry (inv.upperLayer pd.entry)
    have entry := fun e s b => overlayLookup_entry check name (e := e) (s := s) (b := b) inv found
    simp only
    revert ch entry
    generalize overlayLookup check w pd.entry name = x
    rcases x with ⟨⟨_ | ⟨e, s⟩, b⟩ | _ | _, w1⟩ <;> intro ch entry
    · exact done ch.evolves
    · have inv1 := ch.evolves.invariant inv
      have from_ := entry e s b rfl
      have up : w1.upperOf parent = p.upper := by
        rw [ch.upperOf_eq]; simp [upperOf, hp, found]
      refine ⟨inv1.attach (by rw [ch.dirents, hp]; rfl) from_.wellFormed
        (fun u hu => ⟨(from_.upper u hu).1, up ▸ (from_.upper u hu).2⟩)
        (fun l hl => (from_.lower l hl).1), ch.evolves.advances.trans (inv1.advances_attach ..)⟩
    · exact done ch.evolves
    · exact done ch.evolves
  | create parent name flags =>
    have ev := evolves_overlayCreate check inv parent name flags
    simp only [exec]
    revert ev
    generalize hx : overlayCreate check w parent name flags = x
    rcases x with ⟨⟨n, f⟩ | _ | _, w1⟩ <;> intro ev
    · obtain ⟨i, he, layer, up⟩ := overlayCreate_ok check inv hx
      simp only [he]
      exact ev.attach_upperOnly inv layer up
    · exact done ev
    · exact done ev
  | createDirectory parent name => exact done (evolves_overlayCreateDirectory inv parent name)
  | createLink parent oldname newname =>
    exact done (evolves_overlayCreateLink inv parent oldname newname)
  | createHardLink parent target name =>
    exact done (evolves_overlayCreateHardLink inv parent target name)
  | createFifo parent name => exact done (evolves_overlayCreateFifo inv parent name)
  | bind parent name data =>
    simp only [exec]
    rcases hp : w.dirents parent with _ | pd
    · exact done (.refl inv.backing)
    obtain ⟨p, found⟩ := Option.isSome_iff_exists.mp (inv.direntEntry parent pd hp)
    have ev := evolves_overlayBind check inv pd.entry name data
    simp only
    revert ev
    generalize hx : overlayBind check w pd.entry name data = x
    rcases x with ⟨n | _ | _, w1⟩ <;> intro ev
    · obtain ⟨i, he, layer, up, entries, dirents⟩ := overlayBind_ok check inv found hx
      simp only [he]
      exact ev.attach_upperOnly inv layer (by simpa [upperOf, dirents, entries, hp, found] using up)
    · exact done ev
    · exact done ev
  | remove child =>
    simp only [exec]
    rcases hc : w.dirents child with _ | cd <;> simp only [hc]
    · exact done (.refl inv.backing)
    rcases hq : cd.parent with _ | parent <;> simp only [hq]
    · exact done (.refl inv.backing)
    · exact done (evolves_overlayRemove inv parent child)
  | rename renamed newParent newName replacement =>
    simp only [exec]
    rcases hr : w.dirents renamed with _ | rd <;> simp only [hr]
    · exact done (.refl inv.backing)
    rcases hq : rd.parent with _ | oldParent <;> simp only [hq]
    · exact done (.refl inv.backing)
    have ev := evolves_overlayRename check readdirOne inv oldParent renamed newParent newName
      replacement
    revert ev
    generalize hx : overlayRename check readdirOne w oldParent renamed newParent newName
      replacement = x
    rcases x with ⟨_ | _ | _, w1⟩ <;> intro ev
    · obtain ⟨up, upNew⟩ := overlayRename_ok check readdirOne inv hx
      exact ⟨(ev.invariant inv).moveDirent (isSome_dirents_of_upperOf upNew) fun _ => upNew,
        ev.advances.trans (advances_moveDirent ..)⟩
    · exact done ev
    · exact done ev
  | setPermissions d perms =>
    exact done (evolves_overlaySetPermissions inv d perms)
  | setOwner d owner => exact done (evolves_overlaySetOwner inv d owner)
  | setTimestamps d mtime => exact done (evolves_overlaySetTimestamps inv d mtime)
  | truncate d size => exact done (evolves_overlayTruncate inv d size)
  | writeOut d =>
    simp only [exec]
    rcases w.dirents d with _ | dd
    · exact done (.refl inv.backing)
    · exact done (evolves_overlayWriteOut inv dd.entry)
  | write d flags bytes =>
    have ev := evolves_overlayGetFile inv d flags
    simp only [exec]
    revert ev
    generalize hx : overlayGetFile w d flags = x
    rcases x with ⟨f | _ | _, w1⟩ <;> intro ev
    · obtain ⟨flags_eq, upper⟩ := overlayGetFile_ok inv hx
      exact done (ev.trans (evolves_write (ev.invariant inv) bytes (flags_eq ▸ upper)))
    · exact done ev
    · exact done ev

end Exec

/-! ## Reachable states -/

section Reach
variable {check : EntryCheck} {readdirOne : World → OverlayEntry → Except Errno (List String)}
  {w w' : World}

section Mount
variable {inodes : Ino → Option Inode} {nextIno : Nat} {upperRoot lowerRoot : Ino}
  {rootStable : StableAttr}

theorem mount_entries_eq_some {x : EntryId} {o : OverlayEntry}
    (h : (mount inodes nextIno upperRoot lowerRoot rootStable).entries x = some o) :
    o = ⟨some upperRoot, some lowerRoot, true⟩ := by
  dsimp only [mount] at h
  split at h <;> cases h
  rfl

theorem mount_dirents_eq_some {d : DirentId} {dd : Dirent}
    (h : (mount inodes nextIno upperRoot lowerRoot rootStable).dirents d = some dd) :
    d = 0 ∧ dd = ⟨"", none, 0, rootStable⟩ := by
  dsimp only [mount] at h
  split at h <;> cases h
  exact ⟨by assumption, rfl⟩

theorem mount_invariant (rootStable : StableAttr) (ok : MountOk inodes nextIno upperRoot lowerRoot) :
    (mount inodes nextIno upperRoot lowerRoot rootStable).Invariant where
  backing := ⟨ok.binds, ok.fresh⟩
  upperLayer e o u found hu := by
    obtain rfl := mount_entries_eq_some found
    cases hu
    exact ok.upperRoot
  lowerLayer e o l found hl := by
    obtain rfl := mount_entries_eq_some found
    cases hl
    exact ok.lowerRoot
  wellFormed e o found := by
    obtain rfl := mount_entries_eq_some found
    exact ⟨.inl rfl, fun _ => rfl⟩
  entriesFresh e past := if_neg (Nat.pos_iff_ne_zero.mp past)
  direntsFresh d past := if_neg (Nat.pos_iff_ne_zero.mp past)
  direntEntry d dd hd := by
    obtain ⟨-, rfl⟩ := mount_dirents_eq_some hd
    rfl
  parentLive d dd p hd hp := by
    obtain ⟨-, rfl⟩ := mount_dirents_eq_some hd
    cases hp
  entryOwner d d' dd dd' hd hd' _ :=
    (mount_dirents_eq_some hd).1.trans (mount_dirents_eq_some hd').1.symm
  upperTree d dd p hd hp _ := by
    obtain ⟨-, rfl⟩ := mount_dirents_eq_some hd
    cases hp

end Mount

theorem Reach.invariant (r : Reach check readdirOne w) : w.Invariant := by
  induction r with
  | mount rootStable ok => exact mount_invariant rootStable ok
  | step op _ _ ih => exact (exec_invariant check readdirOne ih op).1

theorem Reach.next (r : Reach check readdirOne w) (h : Next check readdirOne w w') :
    Reach check readdirOne w' := by
  obtain ⟨op, noPanic, rfl⟩ := h
  exact r.step op noPanic

theorem advances_of_run (inv : w.Invariant)
    (run : Relation.ReflTransGen (Next check readdirOne) w w') : w.Advances w' ∧ w'.Invariant := by
  induction run with
  | refl => exact ⟨.refl w, inv⟩
  | tail _ step ih =>
    obtain ⟨op, -, rfl⟩ := step
    have next := exec_invariant check readdirOne ih.2 op
    exact ⟨ih.1.trans next.2, next.1⟩

/-- From every reachable state, no operation changes the lower layer. -/
theorem exec_keeps_lower (r : Reach check readdirOne w) (op : Op) {i : Ino}
    (lower : i.layer = .lower) : (exec check readdirOne w op).2.inodes i = w.inodes i :=
  (exec_invariant check readdirOne r.invariant op).2.lowerFixed i lower

/-- An upper root with directories `m` and `n` over a lower root with a directory `m`. -/
def splitInodes : List (Ino × Inode) :=
  [(⟨.upper, 0⟩, { Inode.fresh .directory ⟨.upper, 0⟩ "" none with
      children := [("m", .bound ⟨.upper, 1⟩), ("n", .bound ⟨.upper, 2⟩)] }),
    (⟨.upper, 1⟩, Inode.fresh .directory ⟨.upper, 1⟩ "" none),
    (⟨.upper, 2⟩, Inode.fresh .directory ⟨.upper, 2⟩ "" none),
    (⟨.lower, 0⟩, { Inode.fresh .directory ⟨.lower, 0⟩ "" none with
      children := [("m", .bound ⟨.lower, 1⟩)] }),
    (⟨.lower, 1⟩, Inode.fresh .directory ⟨.lower, 1⟩ "" none)]

def splitMount : World :=
  mount (fun i => splitInodes.lookup i) splitInodes.length ⟨.upper, 0⟩ ⟨.lower, 0⟩
    ⟨.directory, 0, 0⟩

theorem splitMount_reach : Reach (fun _ _ _ => none) (fun _ _ => .ok []) splitMount :=
  .mount _ (mountOk_of_listed (by decide) (by decide) rfl rfl)

theorem exec_keeps_lower_write :
    Reach (fun _ _ _ => none) (fun _ _ => .ok []) splitMount ∧
      (exec (fun _ _ _ => none) (fun _ _ => .ok []) splitMount (.write 0 ⟨false, true⟩ [1])).2.inodes
        ⟨.lower, 0⟩ = splitMount.inodes ⟨.lower, 0⟩ :=
  ⟨splitMount_reach, exec_keeps_lower splitMount_reach _ rfl⟩

end Reach

end ContainerFs.Fs
