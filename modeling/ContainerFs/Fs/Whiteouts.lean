import ContainerFs.Fs.Bindings

/-! No operation removes a whiteout (`run_keeps_whiteouts`), and a lookup under a parent whose upper
counterpart whites the name out answers no lower object, so once a name is whited out no later
lookup of it returns a lower object (`run_whiteout_hides`). -/

set_option autoImplicit false

namespace ContainerFs.Fs

namespace World

variable {w w' w'' : World} {i dir : Ino} {name : String}

def KeepsWhiteouts (w w' : World) : Prop :=
  ∀ i n, overlayHasWhiteout w i n = true → overlayHasWhiteout w' i n = true

theorem KeepsWhiteouts.trans (h : w.KeepsWhiteouts w') (h' : w'.KeepsWhiteouts w'') :
    w.KeepsWhiteouts w'' :=
  fun i n wo => h' i n (h i n wo)

theorem overlayHasWhiteout_iff : overlayHasWhiteout w i name = true ↔
    ∃ b, w.inodes i = some b ∧ b.fault = none ∧ b.xattrs.get (xattrOverlayWhiteout name) = some "y" := by
  unfold overlayHasWhiteout getxattr live
  rcases hi : w.inodes i with _ | b
  · simp
  rcases hf : b.fault with _ | e <;> rcases hg : b.xattrs.get (xattrOverlayWhiteout name) with _ | v <;>
    simp [hf, hg]

theorem KeepsWhiteouts.of_view
    (same : ∀ i, (w.inodes i).isSome →
      (w'.inodes i).map Inode.whiteoutView = (w.inodes i).map Inode.whiteoutView) :
    w.KeepsWhiteouts w' := fun i n wo => by
  obtain ⟨b, hb, -⟩ := overlayHasWhiteout_iff.mp wo
  rwa [overlayHasWhiteout_eq_of (same i (by simp [hb]))]

theorem KeepsWhiteouts.of_inodes (same : w'.inodes = w.inodes) : w.KeepsWhiteouts w' :=
  .of_view fun i _ => by rw [same]

theorem KeepsWhiteouts.acquire (h : w.KeepsWhiteouts w') (x : Hold) :
    w.KeepsWhiteouts (w'.acquire x) :=
  h

theorem KeepsWhiteouts.of_setInode {b b' : Inode} (hb : w.inodes i = some b)
    (view : b'.whiteoutView = b.whiteoutView) : w.KeepsWhiteouts (w.setInode i b') := by
  refine .of_view fun j _ => ?_
  by_cases same : j = i
  · subst same; simp [setInode, hb, view]
  · simp [setInode, Function.update_noteq same]

theorem KeepsWhiteouts.of_modify {f : Inode → Inode} (view : ∀ b, (f b).whiteoutView = b.whiteoutView) :
    w.KeepsWhiteouts (w.modify i f) := by
  unfold modify
  split
  · exact .of_setInode ‹_› (view _)
  · exact fun _ _ => id

/-! ### The backing calls -/

theorem keepsWhiteouts_mknod (ok : w.BackingOk) {t : InodeType} {target : String}
    {ep : Option Nat} (made : w.mknod dir name t target ep = .ok (i, w')) : w.KeepsWhiteouts w' := by
  obtain ⟨b, hb, -, rfl, rfl⟩ := mknod_spec made
  refine .of_view fun j live => ?_
  have ne : j ≠ ⟨dir.layer, w.nextIno⟩ := by rintro rfl; simp [ok.fresh ⟨dir.layer, w.nextIno⟩ le_rfl] at live
  by_cases same : j = dir
  · subst same; simp [setInode, Function.update_noteq ne, hb, Inode.whiteoutView]
  · simp [setInode, Function.update_noteq ne, Function.update_noteq same]

theorem keepsWhiteouts_mknod_snd (ok : w.BackingOk) {t : InodeType} {target : String}
    {ep : Option Nat} (made : (w.mknod dir name t target ep).map Prod.snd = .ok w') :
    w.KeepsWhiteouts w' := by
  rcases hm : w.mknod dir name t target ep with e | ⟨i, w1⟩ <;> rw [hm] at made <;> cases made
  exact keepsWhiteouts_mknod ok hm

theorem keepsWhiteouts_create (ok : w.BackingOk) (made : w.create dir name = .ok (i, w')) :
    w.KeepsWhiteouts w' := by
  unfold create at made
  split at made <;> cases made
  exact ((keepsWhiteouts_mknod ok ‹_›).acquire _).acquire _

theorem keepsWhiteouts_bind (ok : w.BackingOk) {data : Nat}
    (made : w.bind dir name data = .ok (i, w')) : w.KeepsWhiteouts w' := by
  unfold bind at made
  split at made <;> cases made
  exact (keepsWhiteouts_mknod ok ‹_›).acquire _

theorem keepsWhiteouts_createHardLink {target : Ino}
    (made : w.createHardLink dir target name = .ok w') : w.KeepsWhiteouts w' := by
  obtain ⟨b, hb, -, rfl⟩ := createHardLink_spec made
  exact .of_setInode hb rfl

theorem keepsWhiteouts_remove (made : w.remove dir name = .ok w') : w.KeepsWhiteouts w' := by
  obtain ⟨b, -, hb, -, -, rfl⟩ := remove_spec made
  exact .of_setInode hb rfl

theorem keepsWhiteouts_removeDirectory (made : w.removeDirectory dir name = .ok w') :
    w.KeepsWhiteouts w' := by
  obtain ⟨b, -, hb, -, -, -, rfl⟩ := removeDirectory_spec made
  exact .of_setInode hb rfl

theorem keepsWhiteouts_cleanupUpper (dir : Ino) (name : String) :
    w.KeepsWhiteouts (cleanupUpper w dir name) := by
  unfold cleanupUpper
  split
  · exact keepsWhiteouts_remove ‹_›
  · exact fun _ _ => id

theorem keepsWhiteouts_rename {oldDir newDir : Ino} {oldName newName : String}
    {replacement : Bool} (made : w.rename oldDir oldName newDir newName replacement = .ok w') :
    w.KeepsWhiteouts w' := by
  obtain ⟨-, -, c, -, -, -, -, rfl⟩ := rename_spec made
  unfold move
  refine (KeepsWhiteouts.of_modify ?_).trans (.of_modify ?_) <;> intro <;> rfl

theorem keepsWhiteouts_createWhiteout (made : overlayCreateWhiteout w dir name = .ok w') :
    w.KeepsWhiteouts w' := by
  obtain ⟨b, hb, rfl⟩ := setxattr_spec made
  intro j n wo
  obtain ⟨c, hc, fault, get⟩ := overlayHasWhiteout_iff.mp wo
  by_cases same : j = dir
  · subst same
    obtain rfl : c = b := Option.some.inj (hc.symm.trans hb)
    refine overlayHasWhiteout_iff.mpr
      ⟨{ c with xattrs := c.xattrs.set (xattrOverlayWhiteout name) "y" }, by simp [setInode], fault, ?_⟩
    by_cases key : xattrOverlayWhiteout name = xattrOverlayWhiteout n <;> simp [key, get]
  · exact overlayHasWhiteout_iff.mpr ⟨c, by simp [setInode, Function.update_noteq same, hc], fault, get⟩

theorem keepsWhiteouts_setAttr {f : Inode → Inode} (made : w.setAttr i f = .ok w')
    (view : ∀ b, (f b).whiteoutView = b.whiteoutView) : w.KeepsWhiteouts w' := by
  obtain ⟨b, hb, rfl⟩ := setAttr_spec made
  exact .of_setInode hb (view b)

theorem keepsWhiteouts_setPermissions (u : Ino) (perms : Nat) :
    w.KeepsWhiteouts (w.setPermissions u perms).2 := by
  unfold setPermissions
  split
  · rename_i made
    exact keepsWhiteouts_setAttr made fun _ => rfl
  · exact fun _ _ => id

theorem keepsWhiteouts_write {f : File} {bytes : List Nat} (made : w.write f bytes = .ok w') :
    w.KeepsWhiteouts w' := by
  unfold write at made
  split at made
  · cases made
  · exact keepsWhiteouts_setAttr made fun _ => rfl

end World

open World

theorem CopyKept.whiteouts : CopyKept KeepsWhiteouts where
  trans := KeepsWhiteouts.trans
  same h := fun i n wo => by rwa [h.overlayHasWhiteout_eq]
  copy {w} inv d := fun i n wo => by
    have fresh : w.CopiedFresh (copyUp w d).2 := copiedFresh_copyUpLockedForRename _ w d inv
    obtain ⟨b, hb, -⟩ := overlayHasWhiteout_iff.mp wo
    rwa [(fresh.whiteouts i (by simp [hb])).2 n]

/-! ## Every operation keeps every whiteout -/

section Steps
variable (check : EntryCheck) (readdirOne : World → OverlayEntry → Except Errno (List String))
  {w : World}

theorem exec_keepsWhiteouts (inv : w.Invariant) (op : Op) :
    w.KeepsWhiteouts (exec check readdirOne w op).2 := by
  have hR := CopyKept.whiteouts
  cases op with
  | lookup parent name =>
    exact hR.keeps_exec_lookup check readdirOne inv parent name fun _ _ _ _ =>
      .of_inodes attach_inodes
  | create parent name flags =>
    exact hR.keeps_exec_create check readdirOne inv parent name flags
      (fun _ _ _ _ ok made => ⟨keepsWhiteouts_create ok made,
        ((keepsWhiteouts_create ok made).acquire _).trans
          (keepsWhiteouts_cleanupUpper _ _)⟩)
      fun _ _ _ _ => .of_inodes attach_inodes
  | createDirectory parent _ | createLink parent _ _ | createFifo parent _ =>
    exact hR.keeps_overlayCreateUpper inv parent fun _ _ _ ok made =>
      keepsWhiteouts_mknod_snd ok made
  | createHardLink parent target name =>
    exact hR.keeps_overlayCreateHardLink inv parent target name fun _ _ _ _ _ made =>
      keepsWhiteouts_createHardLink made
  | bind parent name data =>
    exact hR.keeps_exec_bind check readdirOne inv parent name data
      (fun _ _ _ _ ok made => keepsWhiteouts_bind ok made) fun _ _ _ _ => .of_inodes attach_inodes
  | remove child =>
    exact hR.keeps_exec_remove check readdirOne inv child
      (fun _ _ _ _ made => keepsWhiteouts_removeDirectory made)
      (fun _ _ _ _ made => keepsWhiteouts_remove made)
      fun _ _ _ _ made => keepsWhiteouts_createWhiteout made
  | rename renamed newParent newName replacement =>
    exact hR.keeps_exec_rename check readdirOne inv renamed newParent newName replacement
      (fun _ _ _ _ _ _ made => keepsWhiteouts_rename made)
      (fun _ _ _ _ made => keepsWhiteouts_createWhiteout made) fun _ =>
        .of_inodes moveDirent_inodes
  | setPermissions d perms =>
    exact hR.keeps_overlaySetPermissions inv d perms fun _ u => keepsWhiteouts_setPermissions u perms
  | setOwner d _ | setTimestamps d _ | truncate d _ =>
    exact hR.keeps_overlaySetAttr inv d fun _ _ _ made => keepsWhiteouts_setAttr made fun _ => rfl
  | writeOut d => exact hR.keeps_exec_writeOut check readdirOne d
  | write d flags bytes =>
    exact hR.keeps_exec_write check readdirOne inv d flags bytes fun _ _ _ made =>
      keepsWhiteouts_write made

end Steps

/-! ## A lookup under a whiteout -/

section Lookup
variable (check : EntryCheck) {w : World} (name : String)

theorem overlayLookup_whiteout_upper {parent : EntryId} {p : OverlayEntry} {pu : Ino}
    (found : w.entries parent = some p) (hu : p.upper = some pu)
    (whited : overlayHasWhiteout w pu name = true) {e : OverlayEntry} {s : StableAttr} {b : Bool}
    (looked : (overlayLookup check w parent name).1 = .ok (.positive e s, b)) : e.lower = none := by
  rw [overlayLookup_fst w name parent p found (by simp [hu])] at looked
  have same := lookupUpper_inodes (w.acquire (.reader parent)) pu name
  simp only [overlayLookupLocked, hu] at looked
  revert same looked
  generalize lookupUpper (w.acquire (.reader parent)) pu name = x
  rcases x with ⟨_ | ⟨u, neg⟩, w1⟩ <;> intro same looked
  · cases looked
  have whited1 : overlayHasWhiteout w1 pu name = true := by
    rwa [overlayHasWhiteout_congr w same]
  simp only [whited1, if_true, overlayLookupWhiteout_fst] at looked
  obtain ⟨u', -, rfl⟩ := whiteoutOutcome_positive looked
  rfl

end Lookup

/-! ## Runs -/

section Run
variable (check : EntryCheck) (readdirOne : World → OverlayEntry → Except Errno (List String))

theorem run_keeps_whiteouts {w w' : World} (inv : w.Invariant)
    (run : Relation.ReflTransGen (fun a b => ∃ op, (exec check readdirOne a op).2 = b) w w') :
    w.KeepsWhiteouts w' ∧ (∀ d u, w.upperOf d = some u → w'.upperOf d = some u) ∧ w'.Invariant := by
  induction run with
  | refl => exact ⟨fun _ _ => id, fun _ _ => id, inv⟩
  | tail _ step ih =>
    obtain ⟨op, rfl⟩ := step
    obtain ⟨kept, upper, inv1⟩ := ih
    exact ⟨kept.trans (exec_keepsWhiteouts check readdirOne inv1 op),
      fun d u hu => (exec_step check readdirOne inv1 op).upperOf_eq inv1 (upper d u hu),
      (exec_invariant check readdirOne inv1 op).1⟩

/-- Once a name is whited out, no later lookup under its Dirent returns a lower object. -/
theorem run_whiteout_hides {w w' : World} (inv : w.Invariant)
    (run : Relation.ReflTransGen (fun a b => ∃ op, (exec check readdirOne a op).2 = b) w w')
    {parent : DirentId} {pu : Ino} {name : String} (hu : w.upperOf parent = some pu)
    (whited : overlayHasWhiteout w pu name = true) {pd : Dirent}
    (hp : w'.dirents parent = some pd) {e : OverlayEntry} {s : StableAttr} {b : Bool}
    (looked : (overlayLookup check w' pd.entry name).1 = .ok (.positive e s, b)) :
    e.lower = none := by
  obtain ⟨kept, upper, -⟩ := run_keeps_whiteouts check readdirOne inv run
  have up := upper parent pu hu
  simp only [upperOf, Option.bind_eq_some] at up
  obtain ⟨pd', hpd, p, found, hup⟩ := up
  obtain rfl : pd' = pd := Option.some.inj (hpd.symm.trans hp)
  exact overlayLookup_whiteout_upper check name found hup (kept pu name whited) looked

def lowerFileRemoved : World :=
  execAll (fun _ _ _ => none) (fun _ _ => .ok []) lowerFileMount [.lookup 0 "f", .remove 1]

def lowerFileRemade : World :=
  (exec (fun _ _ _ => none) (fun _ _ => .ok []) lowerFileRemoved (.createDirectory 0 "f")).2

theorem run_whiteout_hides_mkdir :
    lowerFileRemoved.Invariant ∧
      Relation.ReflTransGen
        (fun a b => ∃ op, (exec (fun _ _ _ => none) (fun _ _ => .ok []) a op).2 = b)
        lowerFileRemoved lowerFileRemade ∧
      lowerFileRemoved.upperOf 0 = some ⟨.upper, 0⟩ ∧
      overlayHasWhiteout lowerFileRemoved ⟨.upper, 0⟩ "f" = true ∧
      lowerFileRemade.dirents 0 = some ⟨"", none, 0, ⟨.directory, 0, 0⟩⟩ ∧
      (overlayLookup (fun _ _ _ => none) lowerFileRemade 0 "f").1 =
        .ok (.positive ⟨some ⟨.upper, 3⟩, none, false⟩ ⟨.directory, 0, 3⟩, true) ∧
      (⟨some ⟨.upper, 3⟩, none, false⟩ : OverlayEntry).lower = none := by
  have inv : lowerFileRemoved.Invariant :=
    ((lowerFileMount_reach.step (.lookup 0 "f") rfl).step (.remove 1) (by decide)).invariant
  have run : Relation.ReflTransGen
      (fun a b => ∃ op, (exec (fun _ _ _ => none) (fun _ _ => .ok []) a op).2 = b)
      lowerFileRemoved lowerFileRemade := .single ⟨_, rfl⟩
  refine ⟨inv, run, ?hu, ?whited, ?hp, ?looked,
    run_whiteout_hides _ _ inv run ?hu ?whited ?hp ?looked⟩ <;> decide

end Run

end ContainerFs.Fs
