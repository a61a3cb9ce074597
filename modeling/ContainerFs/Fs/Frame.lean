import ContainerFs.Fs.Rename

/-! Only a setter or a write changes what the overlay shows (`run_keeps_shown`). The frame lemmas
of the operations are stated once for every relation that composes and survives copy-up and
content-keeping steps (`CopyKept`), so that other kept properties reuse them. -/

set_option autoImplicit false

namespace ContainerFs.Fs

def Op.setsShown : Op → Bool
  | .setPermissions .. | .setOwner .. | .setTimestamps .. | .truncate .. | .write .. => true
  | _ => false

namespace World

variable {w w' : World} {i dir : Ino} {name : String}

theorem KeepsShown.acquire (h : w.KeepsShown w') (k : Hold) : w.KeepsShown (w'.acquire k) := h

theorem KeepsShown.release (h : w.KeepsShown w') (k : Hold) : w.KeepsShown (w'.release k) := h

theorem contentOf_modify {f : Inode → Inode} (content : ∀ b, (f b).content = b.content)
    (fault : ∀ b, (f b).fault = b.fault) : (w.modify i f).contentOf = w.contentOf := by
  unfold modify
  split
  · exact contentOf_setInode_of ‹_› (content _) (fault _)
  · rfl

theorem KeepsShown.of_setInode {b b' : Inode} (hb : w.inodes i = some b)
    (content : b'.content = b.content) (fault : b'.fault = b.fault) :
    w.KeepsShown (w.setInode i b') :=
  .of_eq shownIno_setInode (contentOf_setInode_of hb content fault)

theorem SameContent.contentOf_eq (h : w.SameContent w') : w'.contentOf = w.contentOf := by
  funext i
  have view : (w'.inodes i).map (fun b => (b.fault, b.content)) =
      (w.inodes i).map fun b => (b.fault, b.content) := by
    simpa only [Option.map_map] using
      congrArg (Option.map fun b : Inode => (b.fault, b.content)) (h.inodes i)
  rcases h' : w'.inodes i with _ | b' <;> rcases h0 : w.inodes i with _ | b <;>
    simp only [h', h0, Option.map, Option.some.injEq, Prod.mk.injEq, reduceCtorEq] at view
  · simp [contentOf, live, h', h0]
  · rcases hf : b.fault <;> simp [contentOf, live, h', h0, hf, view.1, view.2, Except.toOption]

theorem KeepsShown.of_sameContent (h : w.SameContent w') : w.KeepsShown w' :=
  .of_eq (shownIno_of h.entries h.dirents) h.contentOf_eq

/-! ### The backing calls -/

theorem keepsShown_mknod (ok : w.BackingOk) {t : InodeType} {target : String} {ep : Option Nat}
    (made : w.mknod dir name t target ep = .ok (i, w')) : w.KeepsShown w' := by
  obtain ⟨b, hb, -, rfl, rfl⟩ := mknod_spec made
  have bound : (w.setInode dir
      { b with children := b.children.set name (.bound ⟨dir.layer, w.nextIno⟩) }).contentOf =
      w.contentOf := contentOf_setInode_of hb rfl rfl
  intro x v shows
  obtain ⟨j, hj, hv⟩ := Option.bind_eq_some.mp shows
  have ne : j ≠ ⟨dir.layer, w.nextIno⟩ := by
    rintro rfl
    obtain ⟨c, hc, -⟩ := contentOf_eq_some.mp hv
    cases (ok.fresh _ le_rfl).symm.trans (live_ok hc)
  refine Option.bind_eq_some.mpr ⟨j, hj, ?_⟩
  exact (contentOf_setInode_ne (b := Inode.fresh t _ target ep) ne).trans
    ((congrFun bound j).trans hv)

theorem keepsShown_mknod_snd (ok : w.BackingOk) {t : InodeType} {target : String} {ep : Option Nat}
    (made : (w.mknod dir name t target ep).map Prod.snd = .ok w') : w.KeepsShown w' := by
  rcases hm : w.mknod dir name t target ep with e | ⟨i, w1⟩ <;> rw [hm] at made <;> cases made
  exact keepsShown_mknod ok hm

theorem keepsShown_create (ok : w.BackingOk) (made : w.create dir name = .ok (i, w')) :
    w.KeepsShown w' := by
  unfold create at made
  split at made <;> cases made
  exact ((keepsShown_mknod ok ‹_›).acquire _).acquire _

theorem keepsShown_bind (ok : w.BackingOk) {data : Nat}
    (made : w.bind dir name data = .ok (i, w')) : w.KeepsShown w' := by
  unfold bind at made
  split at made <;> cases made
  exact (keepsShown_mknod ok ‹_›).acquire _

theorem keepsShown_createHardLink {target : Ino}
    (made : w.createHardLink dir target name = .ok w') : w.KeepsShown w' := by
  obtain ⟨b, hb, -, rfl⟩ := createHardLink_spec made
  exact .of_setInode hb rfl rfl

theorem keepsShown_remove (made : w.remove dir name = .ok w') : w.KeepsShown w' := by
  obtain ⟨b, -, hb, -, -, rfl⟩ := remove_spec made
  exact .of_setInode hb rfl rfl

theorem keepsShown_removeDirectory (made : w.removeDirectory dir name = .ok w') :
    w.KeepsShown w' := by
  obtain ⟨b, -, hb, -, -, -, rfl⟩ := removeDirectory_spec made
  exact .of_setInode hb rfl rfl

theorem keepsShown_setxattr {key value : String} (made : w.setxattr i key value = .ok w') :
    w.KeepsShown w' := by
  obtain ⟨b, hb, rfl⟩ := setxattr_spec made
  exact .of_setInode hb rfl rfl

theorem keepsShown_cleanupUpper (dir : Ino) (name : String) :
    w.KeepsShown (cleanupUpper w dir name) := by
  unfold cleanupUpper
  split
  · exact keepsShown_remove ‹_›
  · exact .refl w

theorem keepsShown_rename {oldDir newDir : Ino} {oldName newName : String} {replacement : Bool}
    (made : w.rename oldDir oldName newDir newName replacement = .ok w') : w.KeepsShown w' := by
  obtain ⟨-, -, c, -, -, -, -, rfl⟩ := rename_spec made
  refine .of_eq (shownIno_of (by simp [move]) (by simp [move])) ?_
  rw [move, contentOf_modify, contentOf_modify] <;> intro <;> rfl

/-! ### The Dirent tree -/

theorem Invariant.shownIno_attach (inv : w.Invariant) {parent d : DirentId} {e : OverlayEntry}
    {s : StableAttr} (has : (w.dirents d).isSome) :
    (w.attach parent name e s).shownIno d = w.shownIno d := by
  obtain ⟨dd, hd⟩ := Option.isSome_iff_exists.mp has
  simp only [shownIno, attach_dirents, Function.update_noteq (inv.dirent_ne has), hd,
    Option.some_bind, attach_entries,
    Function.update_noteq (inv.entry_ne (inv.direntEntry d dd hd))]

theorem Invariant.keepsShown_attach (inv : w.Invariant) (parent : DirentId) (name : String)
    (e : OverlayEntry) (s : StableAttr) : w.KeepsShown (w.attach parent name e s) := by
  intro x v shows
  have has : (w.dirents x).isSome := by
    rcases hx : w.dirents x with _ | dx
    · simp [shown, shownIno, hx] at shows
    · rfl
  simpa only [shown, inv.shownIno_attach has] using shows

theorem shownIno_moveDirent (d newParent : DirentId) (newName : String) :
    (w.moveDirent d newParent newName).shownIno = w.shownIno := by
  funext x
  unfold moveDirent
  rcases hd : w.dirents d with _ | dd
  · rfl
  by_cases same : x = d
  · subst same; simp [shownIno, hd]
  · simp [shownIno, Function.update_noteq same]

end World

open World

/-! ## Frames of the overlay operations, for any relation copy-up keeps -/

/-- A relation the frame lemmas need: it composes and survives content-keeping steps and copy-up. -/
structure CopyKept (R : World → World → Prop) : Prop where
  trans : ∀ {w w' w''}, R w w' → R w' w'' → R w w''
  same : ∀ {w w'}, w.SameContent w' → R w w'
  copy : ∀ {w}, w.Invariant → ∀ d, R w (copyUp w d).2

namespace CopyKept

variable {R : World → World → Prop} {w : World}

theorem refl (hR : CopyKept R) (w : World) : R w w := hR.same (.of_holds rfl)

theorem keeps_afterCopyUp (hR : CopyKept R) {α : Type} (inv : w.Invariant) (d : DirentId)
    {k : World → Step α} (hk : ∀ w', w.Evolves w' → R w' (k w').2) :
    R w (afterCopyUp w d k).2 := by
  have copy := hR.copy inv d
  have ev := evolves_copyUp inv d
  unfold afterCopyUp
  revert copy ev
  generalize copyUp w d = x
  rcases x with ⟨_ | _ | _, w1⟩ <;> intro copy ev
  · exact hR.trans copy (hk w1 ev)
  · exact copy
  · exact copy

theorem keeps_withUpper (hR : CopyKept R) {α : Type} (d : DirentId) {k : Ino → Step α}
    (hk : ∀ u, w.upperOf d = some u → R w (k u).2) : R w (withUpper w d k).2 := by
  unfold withUpper
  split
  · exact hk _ ‹_›
  · exact hR.refl w

theorem keeps_stepOf (hR : CopyKept R) {r : Except Errno World}
    (h : ∀ w', r = .ok w' → R w w') : R w (stepOf w r).2 := by
  cases r with
  | error e => exact hR.refl w
  | ok w' => exact h w' rfl

variable (check : EntryCheck)

theorem keeps_overlayCreate (hR : CopyKept R) (inv : w.Invariant) (parent : DirentId)
    (name : String) (flags : FileFlags)
    (made : ∀ w w' dir i, w.BackingOk → w.create dir name = .ok (i, w') →
      R w w' ∧ R w (cleanupUpper (w'.acquire (.inode i)) dir name)) :
    R w (overlayCreate check w parent name flags).2 := by
  refine hR.keeps_afterCopyUp inv parent fun w1 ev => hR.keeps_withUpper parent fun ou _ => ?_
  rcases hc : w1.create ou name with e | ⟨i, w2⟩
  · exact hR.refl w1
  obtain ⟨kept, cleaned⟩ := made _ _ _ _ (ev.invariant inv).backing hc
  have held : R w1 (w2.acquire (.inode i)) := hR.trans kept (hR.same (.of_holds rfl))
  simp only [hc]
  split
  · exact cleaned
  · exact held
  · exact hR.trans held (hR.same (.of_holds rfl))

theorem keeps_overlayCreateUpper (hR : CopyKept R) (inv : w.Invariant) (parent : DirentId)
    {make : World → Ino → Except Errno World}
    (hm : ∀ w' u w'', w'.BackingOk → make w' u = .ok w'' → R w' w'') :
    R w (overlayCreateUpper w parent make).2 :=
  hR.keeps_afterCopyUp inv parent fun w1 ev => hR.keeps_withUpper parent fun ou _ =>
    hR.keeps_stepOf fun _ made => hm w1 ou _ (ev.invariant inv).backing made

theorem keeps_overlayCreateHardLink (hR : CopyKept R) (inv : w.Invariant)
    (parent target : DirentId) (name : String)
    (link : ∀ w w' dir t, w.upperOf target = some t → w.createHardLink dir t name = .ok w' →
      R w w') :
    R w (overlayCreateHardLink w parent target name).2 :=
  hR.keeps_afterCopyUp inv parent fun _ ev1 =>
    hR.keeps_afterCopyUp (ev1.invariant inv) target fun _ _ =>
      hR.keeps_withUpper parent fun _ _ => hR.keeps_withUpper target fun _ up =>
        hR.keeps_stepOf fun _ made => link _ _ _ _ up made

theorem keeps_overlayBind (hR : CopyKept R) (inv : w.Invariant) (o : EntryId) (name : String)
    (data : Nat) (made : ∀ w w' dir i, w.BackingOk → w.bind dir name data = .ok (i, w') → R w w') :
    R w (overlayBind check w o name data).2 := by
  unfold overlayBind
  rcases he : w.entries o with _ | oe
  · exact hR.refl w
  refine hR.trans ?_ (hR.same (sameContent_release _))
  rcases hu : oe.upper with _ | ou
  · exact hR.same (.of_holds rfl)
  rcases hb : (w.acquire (.reader o)).bind ou name data with e | ⟨i, w2⟩
  · simp only [hb]; exact hR.same (.of_holds rfl)
  have bound : R w w2 := hR.trans (hR.same (.of_holds rfl))
    (made _ _ _ _ (upperChange_acquire inv.backing _).backing hb)
  have held : R w ((w2.acquire (.inode i)).release (.dirent ou name)) :=
    hR.trans bound (hR.same (.of_holds rfl))
  simp only [hb]
  split
  · exact hR.trans held (hR.same (sameContent_release _))
  · exact held
  · exact held

theorem keeps_overlaySetAttr (hR : CopyKept R) (inv : w.Invariant) (d : DirentId)
    {set : World → Ino → Except Errno World} (hs : ∀ w u w', set w u = .ok w' → R w w') :
    R w (overlaySetAttr w d set).2 :=
  hR.keeps_afterCopyUp inv d fun _ _ => hR.keeps_withUpper d fun _ _ =>
    hR.keeps_stepOf fun _ made => hs _ _ _ made

theorem keeps_overlayWriteOut (hR : CopyKept R) (o : EntryId) : R w (overlayWriteOut w o).2 :=
  hR.same (by unfold overlayWriteOut; split <;> exact .of_holds rfl)

theorem keeps_overlayGetFile (hR : CopyKept R) (inv : w.Invariant) (d : DirentId)
    (flags : FileFlags) : R w (overlayGetFile w d flags).2 := by
  have opened : ∀ w : World, R w (overlayOpen w d flags).2 := fun w => by
    obtain ⟨inodes, entries, dirents⟩ := overlayOpen_snd w d flags
    exact hR.same ⟨fun i => by rw [inodes], entries, dirents⟩
  unfold overlayGetFile
  split
  · exact hR.keeps_afterCopyUp inv d fun w1 _ => opened w1
  · exact opened w

theorem keeps_overlayRemoveLocked (hR : CopyKept R) (parent : DirentId) (cd : Dirent)
    (ce : OverlayEntry)
    (directory : ∀ ou w', w.upperOf parent = some ou → w.removeDirectory ou cd.name = .ok w' →
      R w w')
    (file : ∀ ou w', w.upperOf parent = some ou → w.remove ou cd.name = .ok w' → R w w')
    (whiteout : ∀ w1 ou w2, overlayCreateWhiteout w1 ou cd.name = .ok w2 → R w1 w2) :
    R w (overlayRemoveLocked w parent cd ce).2 := by
  have first : R w (if ce.upper.isSome then removeUpper w parent cd else (.ok (), w)).2 := by
    split
    · refine hR.keeps_withUpper parent fun ou hou => hR.keeps_stepOf fun _ made => ?_
      split at made
      · exact directory ou _ hou made
      · exact file ou _ hou made
    · exact hR.refl w
  unfold overlayRemoveLocked
  revert first
  generalize (if ce.upper.isSome then removeUpper w parent cd else (.ok (), w)) = x
  rcases x with ⟨_ | _ | _, w1⟩ <;> intro first
  · dsimp only
    split
    · exact hR.trans first (hR.keeps_withUpper parent fun _ _ =>
        hR.keeps_stepOf fun _ made => whiteout _ _ _ made)
    · exact first
  · exact first
  · exact first

theorem keeps_overlayRemove (hR : CopyKept R) (inv : w.Invariant) (parent child : DirentId)
    (locked : ∀ w1 cd ce, w.Evolves w1 → w1.dirents child = some cd →
      R w1 (overlayRemoveLocked w1 parent cd ce).2) :
    R w (overlayRemove w parent child).2 := by
  refine hR.keeps_afterCopyUp inv parent fun w1 ev => ?_
  rcases hc : w1.dirents child with _ | cd
  · simp only [hc]; exact hR.refl w1
  rcases he : w1.entries cd.entry with _ | ce
  · simp only [hc, he]; exact hR.refl w1
  simp only [hc, he]
  exact hR.trans (hR.same (.of_holds rfl))
    (hR.trans (locked _ cd ce (ev.acquire _) hc) (hR.same (sameContent_release _)))

variable (readdirOne : World → OverlayEntry → Except Errno (List String))

theorem keeps_overlayRename (hR : CopyKept R) (inv : w.Invariant)
    (oldParent renamed newParent : DirentId) (newName : String) (replacement : Bool)
    (moved : ∀ w3 rd ou nu repl w4, w3.dirents = w.dirents → w3.dirents renamed = some rd →
      w3.upperOf oldParent = some ou → w3.upperOf newParent = some nu →
      w3.rename ou rd.name nu newName repl = .ok w4 → R w3 w4)
    (whiteout : ∀ w4 ou name w5, overlayCreateWhiteout w4 ou name = .ok w5 → R w4 w5) :
    R w (overlayRename check readdirOne w oldParent renamed newParent newName replacement).2 := by
  have same := sameContent_renameReplaced check readdirOne (w := w) newParent newName replacement
  have ev := evolves_renameReplaced check readdirOne inv newParent newName replacement
  unfold overlayRename
  revert same ev
  generalize renameReplaced check readdirOne w newParent newName replacement = x
  rcases x with ⟨_ | _ | _, w1⟩ <;> intro same ev
  · rename_i repl
    dsimp only
    refine hR.trans (hR.same same) (hR.keeps_afterCopyUp (ev.invariant inv) renamed
      fun w2 ev2 => ?_)
    refine hR.keeps_afterCopyUp (ev2.invariant (ev.invariant inv)) newParent fun w3 ev3 => ?_
    rcases hr : w3.dirents renamed with _ | rd
    · exact hR.refl w3
    rcases ho : w3.upperOf oldParent with _ | ou
    · exact hR.refl w3
    rcases hn : w3.upperOf newParent with _ | nu
    · exact hR.refl w3
    dsimp only
    rcases made : w3.rename ou rd.name nu newName repl with e | w4
    · exact hR.refl w3
    have m := moved w3 rd ou nu repl w4 (by rw [ev3.dirents, ev2.dirents, same.dirents]) hr ho hn
      made
    dsimp only
    rcases w4.entries rd.entry with _ | re
    · exact m
    · dsimp only
      split
      · exact hR.trans m (hR.keeps_stepOf fun _ wo => whiteout _ _ _ _ wo)
      · exact m
  · exact hR.same same
  · exact hR.same same

theorem keeps_overlaySetPermissions (hR : CopyKept R) (inv : w.Invariant) (d : DirentId)
    (perms : Nat) (set : ∀ w u, R w (w.setPermissions u perms).2) :
    R w (overlaySetPermissions w d perms).2 := by
  have copy := hR.copy inv d
  unfold overlaySetPermissions
  revert copy
  generalize copyUp w d = x
  rcases x with ⟨_ | _ | _, w1⟩ <;> intro copy
  · exact hR.trans copy (hR.keeps_withUpper d fun u _ => set w1 u)
  · exact copy
  · exact copy

/-! ### The operations of the filesystem layer -/

theorem keeps_exec_lookup (hR : CopyKept R) (inv : w.Invariant) (parent : DirentId)
    (name : String) (attach : ∀ w1 : World, w1.Invariant → ∀ e s, R w1 (w1.attach parent name e s)) :
    R w (exec check readdirOne w (.lookup parent name)).2 := by
  simp only [exec]
  rcases hp : w.dirents parent with _ | pd
  · exact hR.refl w
  have ch := upperChange_overlayLookup check name inv.backing pd.entry (inv.upperLayer pd.entry)
  have looked : R w (overlayLookup check w pd.entry name).2 :=
    hR.same (sameContent_overlayLookup check name pd.entry)
  simp only
  revert ch looked
  generalize overlayLookup check w pd.entry name = x
  rcases x with ⟨⟨_ | ⟨e, s⟩, b⟩ | _ | _, w1⟩ <;> intro ch looked
  · exact looked
  · exact hR.trans looked (attach w1 (ch.evolves.invariant inv) e s)
  · exact looked
  · exact looked

theorem keeps_exec_create (hR : CopyKept R) (inv : w.Invariant) (parent : DirentId)
    (name : String) (flags : FileFlags)
    (made : ∀ w w' dir i, w.BackingOk → w.create dir name = .ok (i, w') →
      R w w' ∧ R w (cleanupUpper (w'.acquire (.inode i)) dir name))
    (attach : ∀ w1 : World, w1.Invariant → ∀ e s, R w1 (w1.attach parent name e s)) :
    R w (exec check readdirOne w (.create parent name flags)).2 := by
  have kept := hR.keeps_overlayCreate check inv parent name flags made
  have ev := evolves_overlayCreate check inv parent name flags
  simp only [exec]
  revert kept ev
  generalize overlayCreate check w parent name flags = x
  rcases x with ⟨⟨n, f⟩ | _ | _, w1⟩ <;> intro kept ev
  · exact hR.trans kept (attach w1 (ev.invariant inv) _ _)
  · exact kept
  · exact kept

theorem keeps_exec_bind (hR : CopyKept R) (inv : w.Invariant) (parent : DirentId)
    (name : String) (data : Nat)
    (made : ∀ w w' dir i, w.BackingOk → w.bind dir name data = .ok (i, w') → R w w')
    (attach : ∀ w1 : World, w1.Invariant → ∀ e s, R w1 (w1.attach parent name e s)) :
    R w (exec check readdirOne w (.bind parent name data)).2 := by
  simp only [exec]
  rcases hp : w.dirents parent with _ | pd
  · exact hR.refl w
  have kept := hR.keeps_overlayBind check inv pd.entry name data made
  have ev := evolves_overlayBind check inv pd.entry name data
  simp only
  revert kept ev
  generalize overlayBind check w pd.entry name data = x
  rcases x with ⟨n | _ | _, w1⟩ <;> intro kept ev
  · exact hR.trans kept (attach w1 (ev.invariant inv) _ _)
  · exact kept
  · exact kept

theorem keeps_exec_remove (hR : CopyKept R) (inv : w.Invariant) (child : DirentId)
    (directory : ∀ w w' ou name, w.removeDirectory ou name = .ok w' → R w w')
    (file : ∀ w w' ou name, w.remove ou name = .ok w' → R w w')
    (whiteout : ∀ w1 ou name w2, overlayCreateWhiteout w1 ou name = .ok w2 → R w1 w2) :
    R w (exec check readdirOne w (.remove child)).2 := by
  simp only [exec]
  rcases hc : w.dirents child with _ | cd <;> simp only [hc]
  · exact hR.refl w
  rcases hq : cd.parent with _ | parent <;> simp only [hq]
  · exact hR.refl w
  · exact hR.keeps_overlayRemove inv parent child fun _ cd ce _ _ =>
      hR.keeps_overlayRemoveLocked parent cd ce (fun _ _ _ made => directory _ _ _ _ made)
        (fun _ _ _ made => file _ _ _ _ made) fun _ _ _ made => whiteout _ _ _ _ made

theorem keeps_exec_rename (hR : CopyKept R) (inv : w.Invariant) (renamed newParent : DirentId)
    (newName : String) (replacement : Bool)
    (moved : ∀ w w' oldDir oldName newDir repl,
      w.rename oldDir oldName newDir newName repl = .ok w' → R w w')
    (whiteout : ∀ w1 ou name w2, overlayCreateWhiteout w1 ou name = .ok w2 → R w1 w2)
    (move : ∀ w1 : World, R w1 (w1.moveDirent renamed newParent newName)) :
    R w (exec check readdirOne w (.rename renamed newParent newName replacement)).2 := by
  simp only [exec]
  rcases hr : w.dirents renamed with _ | rd <;> simp only [hr]
  · exact hR.refl w
  rcases hq : rd.parent with _ | oldParent <;> simp only [hq]
  · exact hR.refl w
  have kept := hR.keeps_overlayRename check readdirOne inv oldParent renamed newParent newName
    replacement (fun _ _ _ _ _ _ _ _ _ _ made => moved _ _ _ _ _ _ made) whiteout
  revert kept
  generalize overlayRename check readdirOne w oldParent renamed newParent newName replacement = x
  rcases x with ⟨_ | _ | _, w1⟩ <;> intro kept
  · exact hR.trans kept (move w1)
  · exact kept
  · exact kept

theorem keeps_exec_writeOut (hR : CopyKept R) (d : DirentId) :
    R w (exec check readdirOne w (.writeOut d)).2 := by
  simp only [exec]
  rcases w.dirents d with _ | dd
  · exact hR.refl w
  · exact hR.keeps_overlayWriteOut dd.entry

theorem keeps_exec_write (hR : CopyKept R) (inv : w.Invariant) (d : DirentId) (flags : FileFlags)
    (bytes : List Nat) (write : ∀ w f w', w.write f bytes = .ok w' → R w w') :
    R w (exec check readdirOne w (.write d flags bytes)).2 := by
  have kept := hR.keeps_overlayGetFile inv d flags
  simp only [exec]
  revert kept
  generalize overlayGetFile w d flags = x
  rcases x with ⟨f | _ | _, w1⟩ <;> intro kept
  · exact hR.trans kept (hR.keeps_stepOf fun _ made => write _ _ _ made)
  · exact kept
  · exact kept

theorem shown : CopyKept KeepsShown := ⟨KeepsShown.trans, KeepsShown.of_sameContent, keepsShown_copyUp⟩

end CopyKept

/-! ## A setter that does not succeed -/

section Steps
variable (check : EntryCheck) (readdirOne : World → OverlayEntry → Except Errno (List String))
  {w : World}

theorem overlaySetAttr_fails {d : DirentId} {set : World → Ino → Except Errno World}
    (fails : (overlaySetAttr w d set).1 ≠ .ok ()) :
    (overlaySetAttr w d set).2 = (copyUp w d).2 := by
  rcases hc : copyUp w d with ⟨_ | _ | _, w1⟩ <;>
    simp only [overlaySetAttr, afterCopyUp, hc] at fails ⊢
  rcases hu : w1.upperOf d with _ | u <;> simp only [withUpper, hu] at fails ⊢
  rcases hs : set w1 u with e | w2 <;> simp only [stepOf, hs] at fails ⊢
  exact absurd rfl fails

theorem overlaySetPermissions_fails {d : DirentId} {perms : Nat}
    (fails : (overlaySetPermissions w d perms).1.map (fun _ => ()) ≠ .ok ()) :
    (overlaySetPermissions w d perms).2 = (copyUp w d).2 := by
  rcases hc : copyUp w d with ⟨_ | _ | _, w1⟩ <;>
    simp only [overlaySetPermissions, hc] at fails ⊢
  rcases hu : w1.upperOf d with _ | u <;> simp only [withUpper, hu] at fails ⊢
  exact absurd rfl fails

/-! ## Every operation but a setter or a write that succeeds -/

theorem exec_keepsShown (inv : w.Invariant) (op : Op)
    (quiet : op.setsShown = false ∨ (exec check readdirOne w op).1 ≠ .ok ()) :
    w.KeepsShown (exec check readdirOne w op).2 := by
  have hR := CopyKept.shown
  cases op with
  | lookup parent name =>
    exact hR.keeps_exec_lookup check readdirOne inv parent name fun _ inv1 _ _ =>
      inv1.keepsShown_attach _ _ _ _
  | create parent name flags =>
    exact hR.keeps_exec_create check readdirOne inv parent name flags
      (fun _ _ _ _ ok made => ⟨keepsShown_create ok made,
        ((keepsShown_create ok made).acquire _).trans (keepsShown_cleanupUpper _ _)⟩)
      fun _ inv1 _ _ => inv1.keepsShown_attach _ _ _ _
  | createDirectory parent _ | createLink parent _ _ | createFifo parent _ =>
    exact hR.keeps_overlayCreateUpper inv parent fun _ _ _ ok made => keepsShown_mknod_snd ok made
  | createHardLink parent target name =>
    exact hR.keeps_overlayCreateHardLink inv parent target name fun _ _ _ _ _ made =>
      keepsShown_createHardLink made
  | bind parent name data =>
    exact hR.keeps_exec_bind check readdirOne inv parent name data
      (fun _ _ _ _ ok made => keepsShown_bind ok made) fun _ inv1 _ _ =>
        inv1.keepsShown_attach _ _ _ _
  | remove child =>
    exact hR.keeps_exec_remove check readdirOne inv child
      (fun _ _ _ _ made => keepsShown_removeDirectory made)
      (fun _ _ _ _ made => keepsShown_remove made) fun _ _ _ _ made => keepsShown_setxattr made
  | rename renamed newParent newName replacement =>
    exact hR.keeps_exec_rename check readdirOne inv renamed newParent newName replacement
      (fun _ _ _ _ _ _ made => keepsShown_rename made) (fun _ _ _ _ made => keepsShown_setxattr made)
      fun _ => .of_eq (shownIno_moveDirent ..) (contentOf_of_inodes moveDirent_inodes)
  | setPermissions d perms =>
    simp only [exec] at quiet ⊢
    rw [overlaySetPermissions_fails (quiet.resolve_left (by simp [Op.setsShown]))]
    exact keepsShown_copyUp inv d
  | setOwner d _ | setTimestamps d _ | truncate d _ =>
    simp only [exec, overlaySetOwner, overlaySetTimestamps, overlayTruncate] at quiet ⊢
    rw [overlaySetAttr_fails (quiet.resolve_left (by simp [Op.setsShown]))]
    exact keepsShown_copyUp inv d
  | writeOut d => exact hR.keeps_exec_writeOut check readdirOne d
  | write d flags bytes =>
    have fails := quiet.resolve_left (by simp [Op.setsShown])
    have kept := hR.keeps_overlayGetFile inv d flags
    simp only [exec] at fails ⊢
    revert fails kept
    generalize overlayGetFile w d flags = x
    rcases x with ⟨f | _ | _, w1⟩ <;> intro fails kept
    · rcases hw : w1.write f bytes with e | w2 <;> simp only [stepOf, hw] at fails ⊢
      · exact kept
      · exact absurd rfl fails
    · exact kept
    · exact kept

end Steps

/-! ## Runs -/

section Run
variable (check : EntryCheck) (readdirOne : World → OverlayEntry → Except Errno (List String))

/-- One operation from `w` to `w'` that is not a setter or a write, or that does not succeed. -/
def QuietNext (w w' : World) : Prop :=
  ∃ op, (op.setsShown = false ∨ (exec check readdirOne w op).1 ≠ .ok ()) ∧
    (exec check readdirOne w op).2 = w'

/-- Over a run in which no setter and no write succeeds, what the overlay shows stays. -/
theorem run_keeps_shown {w w' : World} (inv : w.Invariant)
    (run : Relation.ReflTransGen (QuietNext check readdirOne) w w') : w.KeepsShown w' := by
  have both : w.KeepsShown w' ∧ w'.Invariant := by
    induction run with
    | refl => exact ⟨.refl w, inv⟩
    | tail _ step ih =>
      obtain ⟨op, quiet, rfl⟩ := step
      exact ⟨ih.1.trans (exec_keepsShown check readdirOne ih.2 op quiet),
        (exec_invariant check readdirOne ih.2 op).1⟩
  exact both.1

theorem run_keeps_shown_link :
    lowerFileMount.Invariant ∧
      Relation.ReflTransGen (QuietNext (fun _ _ _ => none) (fun _ _ => .ok [])) lowerFileMount
        lowerFileLinked ∧
      lowerFileMount.KeepsShown lowerFileLinked := by
  have run : Relation.ReflTransGen (QuietNext (fun _ _ _ => none) (fun _ _ => .ok []))
      lowerFileMount lowerFileLinked :=
    .tail (.single ⟨.lookup 0 "f", .inl rfl, rfl⟩) ⟨.createHardLink 0 1 "g", .inl rfl, rfl⟩
  exact ⟨lowerFileMount_reach.invariant, run,
    run_keeps_shown _ _ lowerFileMount_reach.invariant run⟩

end Run

end ContainerFs.Fs
