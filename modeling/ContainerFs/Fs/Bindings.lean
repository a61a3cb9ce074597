import ContainerFs.Fs.Frame
import ContainerFs.Fs.Progress

/-! Only a remove or a rename unbinds a name: every other operation, whatever its outcome, keeps
every name bound in a backing directory bound to the same inode, and so does every run of such
operations (`run_keeps_bound`). -/

set_option autoImplicit false

namespace ContainerFs.Fs

def Op.unbinds : Op → Bool
  | .remove .. | .rename .. => true
  | _ => false

namespace World

variable {w w' w'' : World} {i dir : Ino} {name : String}

theorem KeepsBound.of_sameContent (h : w.SameContent w') : w.KeepsBound w' :=
  fun dir n _ bound => (h.slot_eq dir n).trans bound

theorem KeepsBound.acquire (h : w.KeepsBound w') (k : Hold) : w.KeepsBound (w'.acquire k) :=
  h.trans (.of_inodes rfl)

theorem slot_setInode_of {b b' : Inode} (hb : w.inodes i = some b)
    (children : b'.children = b.children) : (w.setInode i b').slot = w.slot := by
  funext d n
  by_cases same : d = i
  · subst same; simp [slot, setInode, hb, children]
  · simp [slot, setInode, Function.update_noteq same]

theorem KeepsBound.of_setInode {b b' : Inode} (hb : w.inodes i = some b)
    (children : b'.children = b.children) : w.KeepsBound (w.setInode i b') :=
  fun _ _ _ bound => by rwa [slot_setInode_of hb children]

theorem slot_setInode_other {b b' : Inode} (hb : w.inodes dir = some b)
    (others : ∀ n, n ≠ name → b'.children.get n = b.children.get n) {d : Ino} {n : String}
    (ne : (d, n) ≠ (dir, name)) : (w.setInode dir b').slot d n = w.slot d n := by
  by_cases same : d = dir
  · subst same
    have other : n ≠ name := fun h => ne (by rw [h])
    simp [slot, setInode, hb, others n other]
  · simp [slot, setInode, Function.update_noteq same]

theorem KeepsBound.of_setFree {b : Inode} {s : Slot} (hb : w.inodes dir = some b)
    (free : ∀ j, w.slot dir name ≠ some (.bound j)) :
    w.KeepsBound (w.setInode dir { b with children := b.children.set name s }) := by
  intro d n j bound
  have ne : (d, n) ≠ (dir, name) := by rintro ⟨⟩; exact free j bound
  rwa [slot_setInode_other hb (fun n other => by simp [Ne.symm other]) ne]

theorem KeepsBound.remove (h : w.KeepsBound w') (free : ∀ j, w.slot dir name ≠ some (.bound j))
    (made : w'.remove dir name = .ok w'') : w.KeepsBound w'' := by
  obtain ⟨b, -, hb, -, -, rfl⟩ := remove_spec made
  intro d n j bound
  have ne : (d, n) ≠ (dir, name) := by rintro ⟨⟩; exact free j bound
  rw [slot_setInode_other hb (fun n other => by simp [Ne.symm other]) ne]
  exact h d n j bound

theorem KeepsBound.cleanup (h : w.KeepsBound w')
    (free : ∀ j, w.slot dir name ≠ some (.bound j)) :
    w.KeepsBound (cleanupUpper w' dir name) := by
  unfold cleanupUpper
  split
  · exact h.remove free ‹_›
  · exact h

/-! ### The backing calls -/

theorem mknod_free {t : InodeType} {target : String} {ep : Option Nat}
    (made : w.mknod dir name t target ep = .ok (i, w')) :
    ∀ j, w.slot dir name ≠ some (.bound j) := by
  unfold mknod at made
  rcases hl : w.live dir with e | b <;> simp only [hl] at made
  · cases made
  split at made
  · cases made
  split at made
  · cases made
  rename_i free
  intro j
  simpa [slot, live_ok hl] using free j

theorem keepsBound_create (ok : w.BackingOk) (made : w.create dir name = .ok (i, w')) :
    w.KeepsBound w' ∧ ∀ j, w.slot dir name ≠ some (.bound j) := by
  unfold create at made
  split at made <;> cases made
  rename_i made
  exact ⟨((keepsBound_mknod ok made).acquire _).acquire _, mknod_free made⟩

theorem keepsBound_bind (ok : w.BackingOk) {data : Nat}
    (made : w.bind dir name data = .ok (i, w')) : w.KeepsBound w' := by
  unfold bind at made
  split at made <;> cases made
  exact (keepsBound_mknod ok ‹_›).acquire _

theorem keepsBound_mknod_snd (ok : w.BackingOk) {t : InodeType} {target : String}
    {ep : Option Nat} (made : (w.mknod dir name t target ep).map Prod.snd = .ok w') :
    w.KeepsBound w' := by
  rcases hm : w.mknod dir name t target ep with e | ⟨i, w1⟩ <;> rw [hm] at made <;> cases made
  exact keepsBound_mknod ok hm

theorem keepsBound_createHardLink {target : Ino}
    (made : w.createHardLink dir target name = .ok w') : w.KeepsBound w' := by
  unfold createHardLink at made
  rcases hl : w.live dir with e | b <;> simp only [hl] at made
  · cases made
  split at made
  · cases made
  split at made
  · cases made
  rename_i free
  cases made
  exact .of_setFree (live_ok hl) fun j => by simpa [slot, live_ok hl] using free j

theorem keepsBound_setAttr {f : Inode → Inode} (made : w.setAttr i f = .ok w')
    (children : ∀ b, (f b).children = b.children) : w.KeepsBound w' := by
  obtain ⟨b, hb, rfl⟩ := setAttr_spec made
  exact .of_setInode hb (children b)

theorem keepsBound_setxattr {key value : String} (made : w.setxattr i key value = .ok w') :
    w.KeepsBound w' := by
  obtain ⟨b, hb, rfl⟩ := setxattr_spec made
  exact .of_setInode hb rfl

theorem keepsBound_setPermissions (u : Ino) (perms : Nat) :
    w.KeepsBound (w.setPermissions u perms).2 := by
  unfold setPermissions
  split
  · rename_i made
    exact keepsBound_setAttr made fun _ => rfl
  · exact .refl w

theorem keepsBound_write {f : File} {bytes : List Nat} (made : w.write f bytes = .ok w') :
    w.KeepsBound w' := by
  unfold write at made
  split at made
  · cases made
  · exact keepsBound_setAttr made fun _ => rfl

end World

open World

theorem CopyKept.bound : CopyKept KeepsBound :=
  ⟨KeepsBound.trans, KeepsBound.of_sameContent, keepsBound_copyUp⟩

/-! ## Every operation but a remove or a rename -/

section Steps
variable (check : EntryCheck) (readdirOne : World → OverlayEntry → Except Errno (List String))
  {w : World}

theorem exec_keepsBound (inv : w.Invariant) (op : Op) (keeps : op.unbinds = false) :
    w.KeepsBound (exec check readdirOne w op).2 := by
  have hR := CopyKept.bound
  cases op with
  | lookup parent name =>
    exact hR.keeps_exec_lookup check readdirOne inv parent name fun _ _ _ _ =>
      .of_inodes attach_inodes
  | create parent name flags =>
    exact hR.keeps_exec_create check readdirOne inv parent name flags
      (fun _ _ _ _ ok made => ⟨(keepsBound_create ok made).1,
        ((keepsBound_create ok made).1.acquire _).cleanup (keepsBound_create ok made).2⟩)
      fun _ _ _ _ => .of_inodes attach_inodes
  | createDirectory parent _ | createLink parent _ _ | createFifo parent _ =>
    exact hR.keeps_overlayCreateUpper inv parent fun _ _ _ ok made => keepsBound_mknod_snd ok made
  | createHardLink parent target name =>
    exact hR.keeps_overlayCreateHardLink inv parent target name fun _ _ _ _ _ made =>
      keepsBound_createHardLink made
  | bind parent name data =>
    exact hR.keeps_exec_bind check readdirOne inv parent name data
      (fun _ _ _ _ ok made => keepsBound_bind ok made) fun _ _ _ _ => .of_inodes attach_inodes
  | remove child => cases keeps
  | rename renamed newParent newName replacement => cases keeps
  | setPermissions d perms =>
    exact hR.keeps_overlaySetPermissions inv d perms fun _ u => keepsBound_setPermissions u perms
  | setOwner d _ | setTimestamps d _ | truncate d _ =>
    exact hR.keeps_overlaySetAttr inv d fun _ _ _ made => keepsBound_setAttr made fun _ => rfl
  | writeOut d => exact hR.keeps_exec_writeOut check readdirOne d
  | write d flags bytes =>
    exact hR.keeps_exec_write check readdirOne inv d flags bytes fun _ _ _ made =>
      keepsBound_write made

end Steps

/-! ## A remove or a rename unbinds only the names it targets -/

/-- The names a remove or a rename may unbind, each with the Dirent it is unbound under. -/
def Op.targets (w : World) : Op → List (DirentId × String)
  | .remove child =>
    match w.dirents child with
    | some cd =>
      match cd.parent with
      | some parent => [(parent, cd.name)]
      | none => []
    | none => []
  | .rename renamed newParent newName _ =>
    match w.dirents renamed with
    | some rd =>
      match rd.parent with
      | some oldParent => [(oldParent, rd.name), (newParent, newName)]
      | none => []
    | none => []
  | _ => []

namespace World

/-- Every bound name stays bound unless targeted, and every upper counterpart stays. -/
structure KeepsBoundBut (targets : List (DirentId × String)) (w w' : World) : Prop where
  bound : ∀ dir n i, w.slot dir n = some (.bound i) →
    w'.slot dir n = some (.bound i) ∨ ∃ d, (d, n) ∈ targets ∧ w'.upperOf d = some dir
  upper : ∀ d u, w.upperOf d = some u → w'.upperOf d = some u

variable {w w' w'' : World} {ts ts' : List (DirentId × String)} {dir : Ino} {name : String}

theorem KeepsBoundBut.trans (h : w.KeepsBoundBut ts w') (h' : w'.KeepsBoundBut ts w'') :
    w.KeepsBoundBut ts w'' := by
  refine ⟨fun dir n i bound => ?_, fun d u hu => h'.upper d u (h.upper d u hu)⟩
  rcases h.bound dir n i bound with kept | ⟨d, mem, hd⟩
  · exact h'.bound dir n i kept
  · exact .inr ⟨d, mem, h'.upper d dir hd⟩

theorem KeepsBoundBut.mono (h : w.KeepsBoundBut ts w') (sub : ts ⊆ ts') :
    w.KeepsBoundBut ts' w' :=
  ⟨fun dir n i bound => (h.bound dir n i bound).imp_right fun ⟨d, mem, hd⟩ => ⟨d, sub mem, hd⟩,
    h.upper⟩

theorem KeepsBoundBut.of_keepsBound (h : w.KeepsBound w')
    (upper : ∀ d u, w.upperOf d = some u → w'.upperOf d = some u) : w.KeepsBoundBut ts w' :=
  ⟨fun dir n i bound => .inl (h dir n i bound), upper⟩

theorem upperOf_of (entries : w'.entries = w.entries) (dirents : w'.dirents = w.dirents) :
    w'.upperOf = w.upperOf := by
  funext d; simp only [upperOf, entries, dirents]

theorem ExecStep.upperOf_eq (inv : w.Invariant) (h : w.ExecStep w') {d : DirentId} {u : Ino}
    (hu : w.upperOf d = some u) : w'.upperOf d = some u := by
  cases h with
  | evolve ev => exact ev.upperOf_eq hu
  | attach name e s ev _ =>
    have has := isSome_dirents_of_upperOf (by rw [ev.upperOf_eq hu]; rfl)
    rw [(ev.invariant inv).upperOf_attach ((ev.invariant inv).dirent_ne has)]
    exact ev.upperOf_eq hu
  | move newParent newName ev _ => rw [upperOf_moveDirent]; exact ev.upperOf_eq hu

theorem keepsBoundBut_setInode {b b' : Inode} {x : DirentId} (hb : w.inodes dir = some b)
    (others : ∀ n, n ≠ name → b'.children.get n = b.children.get n)
    (hx : w.upperOf x = some dir) (mem : (x, name) ∈ ts) :
    w.KeepsBoundBut ts (w.setInode dir b') := by
  have up : (w.setInode dir b').upperOf = w.upperOf := upperOf_of rfl rfl
  refine ⟨fun d n i bound => ?_, fun d u hu => by rwa [up]⟩
  by_cases same : (d, n) = (dir, name)
  · obtain ⟨rfl, rfl⟩ := Prod.mk.inj same
    exact .inr ⟨x, mem, by rwa [up]⟩
  · exact .inl (by rwa [slot_setInode_other hb others same])

theorem keepsBoundBut_modify {f : Inode → Inode} {x : DirentId}
    (others : ∀ b n, n ≠ name → (f b).children.get n = b.children.get n)
    (hx : w.upperOf x = some dir) (mem : (x, name) ∈ ts) : w.KeepsBoundBut ts (w.modify dir f) := by
  unfold modify
  split
  · exact keepsBoundBut_setInode ‹_› (others _) hx mem
  · exact ⟨fun _ _ _ bound => .inl bound, fun _ _ hu => hu⟩

theorem keepsBoundBut_remove {x : DirentId} (made : w.remove dir name = .ok w')
    (hx : w.upperOf x = some dir) (mem : (x, name) ∈ ts) : w.KeepsBoundBut ts w' := by
  obtain ⟨b, -, hb, -, -, rfl⟩ := remove_spec made
  exact keepsBoundBut_setInode hb (fun n other => by simp [Ne.symm other]) hx mem

theorem keepsBoundBut_removeDirectory {x : DirentId} (made : w.removeDirectory dir name = .ok w')
    (hx : w.upperOf x = some dir) (mem : (x, name) ∈ ts) : w.KeepsBoundBut ts w' := by
  obtain ⟨b, -, hb, -, -, -, rfl⟩ := removeDirectory_spec made
  exact keepsBoundBut_setInode hb (fun n other => by simp [Ne.symm other]) hx mem

theorem keepsBoundBut_rename {oldDir newDir : Ino} {oldName newName : String}
    {replacement : Bool} {x y : DirentId}
    (made : w.rename oldDir oldName newDir newName replacement = .ok w')
    (hx : w.upperOf x = some oldDir) (hy : w.upperOf y = some newDir) (memx : (x, oldName) ∈ ts)
    (memy : (y, newName) ∈ ts) : w.KeepsBoundBut ts w' := by
  obtain ⟨-, -, c, -, -, -, -, rfl⟩ := rename_spec made
  have hy' : (w.modify oldDir fun b => { b with children := b.children.erase oldName }).upperOf y =
      some newDir := by rwa [upperOf_of (modify_entries _) (modify_dirents _)]
  exact (keepsBoundBut_modify (fun _ n other => by simp [Ne.symm other]) hx memx).trans
    (keepsBoundBut_modify (fun _ n other => by simp [Ne.symm other]) hy' memy)

theorem keepsBoundBut_setxattr {key value : String} {i : Ino}
    (made : w.setxattr i key value = .ok w') : w.KeepsBoundBut ts w' := by
  obtain ⟨b, hb, rfl⟩ := setxattr_spec made
  exact .of_keepsBound (keepsBound_setxattr made) fun _ _ hu => by rwa [upperOf_of rfl rfl]

theorem keepsBoundBut_moveDirent (d newParent : DirentId) (newName : String) :
    w.KeepsBoundBut ts (w.moveDirent d newParent newName) :=
  .of_keepsBound (.of_inodes moveDirent_inodes) fun _ _ hu => by rwa [upperOf_moveDirent]

end World

open World

theorem CopyKept.boundBut (ts : List (DirentId × String)) : CopyKept (KeepsBoundBut ts) where
  trans := KeepsBoundBut.trans
  same h := .of_keepsBound (.of_sameContent h) fun _ _ hu => by rwa [upperOf_of h.entries h.dirents]
  copy inv d :=
    .of_keepsBound (keepsBound_copyUp inv d) fun _ _ hu => (evolves_copyUp inv d).upperOf_eq hu

section Targets
variable (check : EntryCheck) (readdirOne : World → OverlayEntry → Except Errno (List String))
  {w : World}

theorem exec_keepsBoundBut (inv : w.Invariant) (op : Op) :
    w.KeepsBoundBut (op.targets w) (exec check readdirOne w op).2 := by
  have upper : ∀ d u, w.upperOf d = some u → (exec check readdirOne w op).2.upperOf d = some u :=
    fun _ _ hu => (exec_step check readdirOne inv op).upperOf_eq inv hu
  cases hu : op.unbinds
  · exact .of_keepsBound (exec_keepsBound check readdirOne inv op hu) upper
  cases op
  case remove child =>
    simp only [exec, Op.targets]
    rcases hc : w.dirents child with _ | cd <;> simp only [hc]
    · exact (CopyKept.boundBut _).refl w
    rcases hq : cd.parent with _ | parent <;> simp only [hq]
    · exact (CopyKept.boundBut _).refl w
    have hR := CopyKept.boundBut [(parent, cd.name)]
    refine hR.keeps_overlayRemove inv parent child fun w1 cd' ce ev hc' => ?_
    obtain rfl : cd' = cd := Option.some.inj (hc'.symm.trans (by rw [ev.dirents]; exact hc))
    exact hR.keeps_overlayRemoveLocked parent cd' ce
      (fun _ _ hou made => keepsBoundBut_removeDirectory made hou (List.mem_singleton_self _))
      (fun _ _ hou made => keepsBoundBut_remove made hou (List.mem_singleton_self _))
      fun _ _ _ made => keepsBoundBut_setxattr made
  case rename renamed newParent newName replacement =>
    simp only [exec, Op.targets]
    rcases hr : w.dirents renamed with _ | rd <;> simp only [hr]
    · exact (CopyKept.boundBut _).refl w
    rcases hq : rd.parent with _ | oldParent <;> simp only [hq]
    · exact (CopyKept.boundBut _).refl w
    have kept := (CopyKept.boundBut [(oldParent, rd.name), (newParent, newName)]).keeps_overlayRename
      check readdirOne inv oldParent renamed newParent newName replacement
      (fun w3 rd' ou nu repl w4 same hr' ho hn made => by
        obtain rfl : rd' = rd := Option.some.inj (hr'.symm.trans (by rw [same]; exact hr))
        exact keepsBoundBut_rename made ho hn (by simp) (by simp))
      fun _ _ _ _ made => keepsBoundBut_setxattr made
    revert kept
    generalize overlayRename check readdirOne w oldParent renamed newParent newName replacement = x
    rcases x with ⟨_ | _ | _, w1⟩ <;> intro kept
    · exact kept.trans (keepsBoundBut_moveDirent ..)
    · exact kept
    · exact kept
  all_goals cases hu

end Targets

/-! ## Runs -/

section Run
variable (check : EntryCheck) (readdirOne : World → OverlayEntry → Except Errno (List String))

/-- One operation from `w` to `w'` that is neither a remove nor a rename. -/
def NoUnbindNext (w w' : World) : Prop :=
  ∃ op, op.unbinds = false ∧ (exec check readdirOne w op).2 = w'

/-- Over a run with no remove and no rename, every bound name stays bound to the same inode. -/
theorem run_keeps_bound {w w' : World} (inv : w.Invariant)
    (run : Relation.ReflTransGen (NoUnbindNext check readdirOne) w w') : w.KeepsBound w' := by
  have both : w.KeepsBound w' ∧ w'.Invariant := by
    induction run with
    | refl => exact ⟨.refl w, inv⟩
    | tail _ step ih =>
      obtain ⟨op, keeps, rfl⟩ := step
      exact ⟨ih.1.trans (exec_keepsBound check readdirOne ih.2 op keeps),
        (exec_invariant check readdirOne ih.2 op).1⟩
  exact both.1

theorem run_keeps_bound_written :
    lowerFileMount.Invariant ∧
      Relation.ReflTransGen (NoUnbindNext (fun _ _ _ => none) (fun _ _ => .ok [])) lowerFileMount
        lowerFileWritten ∧
      lowerFileMount.KeepsBound lowerFileWritten := by
  have run : Relation.ReflTransGen (NoUnbindNext (fun _ _ _ => none) (fun _ _ => .ok []))
      lowerFileMount lowerFileWritten :=
    .tail (.single ⟨.lookup 0 "f", rfl, rfl⟩) ⟨.write 1 ⟨false, true⟩ [7], rfl, rfl⟩
  exact ⟨lowerFileMount_reach.invariant, run,
    run_keeps_bound _ _ lowerFileMount_reach.invariant run⟩

/-- The state operations `ops` leave, run one after another from `w`. -/
def execAll (w : World) : List Op → World
  | [] => w
  | op :: ops => execAll (exec check readdirOne w op).2 ops

/-- The targets of operations `ops` run one after another from `w`. -/
def targetsAll (w : World) : List Op → List (DirentId × String)
  | [] => []
  | op :: ops => op.targets w ++ targetsAll (exec check readdirOne w op).2 ops

/-- Over every run, only the names a remove or a rename targets are unbound. -/
theorem run_keeps_untargeted {w : World} (inv : w.Invariant) (ops : List Op) :
    w.KeepsBoundBut (targetsAll check readdirOne w ops) (execAll check readdirOne w ops) := by
  induction ops generalizing w with
  | nil => exact (CopyKept.boundBut []).refl w
  | cons op ops ih =>
    exact ((exec_keepsBoundBut check readdirOne inv op).mono (List.subset_append_left _ _)).trans
      ((ih (exec_invariant check readdirOne inv op).1).mono (List.subset_append_right _ _))

theorem run_keeps_untargeted_remove :
    lowerFileMount.Invariant ∧
      lowerFileMount.KeepsBoundBut
        (targetsAll (fun _ _ _ => none) (fun _ _ => .ok []) lowerFileMount [.lookup 0 "f", .remove 1])
        (execAll (fun _ _ _ => none) (fun _ _ => .ok []) lowerFileMount [.lookup 0 "f", .remove 1]) :=
  ⟨lowerFileMount_reach.invariant,
    run_keeps_untargeted _ _ lowerFileMount_reach.invariant [.lookup 0 "f", .remove 1]⟩

end Run

end ContainerFs.Fs
