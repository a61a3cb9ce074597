import ContainerFs.Fs.Mutate

/-! The invariant of an overlay mount's state, and the frame of every call the overlay makes into
the upper layer: each keeps the backing half and leaves every lower inode as it was. -/

set_option autoImplicit false

namespace ContainerFs.Fs

/-- Inode `b` binds names only if it is a directory, and only to inodes of `layer`. -/
def Inode.Binds (b : Inode) (layer : Layer) : Prop :=
  ∀ n i, b.children.get n = some (.bound i) → i.layer = layer ∧ isDir b.stable

namespace Inode

variable {b b' : Inode} {layer : Layer}

theorem Binds.congr (h : b.Binds layer) (children : b'.children = b.children)
    (stable : b'.stable = b.stable) : b'.Binds layer := by
  intro n i hi
  rw [children] at hi
  rw [stable]
  exact h n i hi

theorem Binds.erase (h : b.Binds layer) (name : String) :
    ({ b with children := b.children.erase name } : Inode).Binds layer := by
  intro n i hi
  simp only [Assoc.get_erase] at hi
  split at hi
  · cases hi
  · exact h n i hi

theorem Binds.set (h : b.Binds layer) (dir : isDir b.stable) {i : Ino} (same : i.layer = layer)
    (name : String) : ({ b with children := b.children.set name (.bound i) } : Inode).Binds layer := by
  intro n j hj
  simp only [Assoc.get_set] at hj
  split at hj
  · cases hj; exact ⟨same, dir⟩
  · exact h n j hj

theorem fresh_binds (t : InodeType) (i : Ino) (target : String) (ep : Option Nat) :
    (Inode.fresh t i target ep).Binds layer := by
  intro n j hj
  simp [Inode.fresh, Assoc.get] at hj

end Inode

namespace World

/-- The backing filesystems are well formed. -/
structure BackingOk (w : World) : Prop where
  binds : ∀ dir b, w.inodes dir = some b → b.Binds dir.layer
  fresh : ∀ i, w.nextIno ≤ i.num → w.inodes i = none

/-- A change of upper inodes only, keeping the backing filesystems well formed. -/
structure UpperChange (w w' : World) : Prop where
  backing : w'.BackingOk
  lowerFixed : ∀ i, i.layer = .lower → w'.inodes i = w.inodes i
  entries : w'.entries = w.entries
  dirents : w'.dirents = w.dirents
  nextEntry : w'.nextEntry = w.nextEntry
  nextDirent : w'.nextDirent = w.nextDirent

variable {w w' w'' : World} {i dir : Ino} {b b' : Inode}

theorem BackingOk.lt (ok : w.BackingOk) (live : w.inodes i = some b) : i.num < w.nextIno := by
  by_contra past
  simp [ok.fresh i (Nat.le_of_not_lt past)] at live

theorem UpperChange.upperOf_eq (h : w.UpperChange w') : w'.upperOf = w.upperOf := by
  funext d; unfold World.upperOf; rw [h.entries, h.dirents]

theorem UpperChange.trans (h : w.UpperChange w') (h' : w'.UpperChange w'') : w.UpperChange w'' where
  backing := h'.backing
  lowerFixed i lower := (h'.lowerFixed i lower).trans (h.lowerFixed i lower)
  entries := h'.entries.trans h.entries
  dirents := h'.dirents.trans h.dirents
  nextEntry := h'.nextEntry.trans h.nextEntry
  nextDirent := h'.nextDirent.trans h.nextDirent

theorem UpperChange.of_inodes (ok : w.BackingOk) (inodes : w'.inodes = w.inodes)
    (nextIno : w'.nextIno = w.nextIno) (entries : w'.entries = w.entries)
    (dirents : w'.dirents = w.dirents) (nextEntry : w'.nextEntry = w.nextEntry)
    (nextDirent : w'.nextDirent = w.nextDirent) : w.UpperChange w' where
  backing := ⟨by rw [inodes]; exact ok.binds, by rw [inodes, nextIno]; exact ok.fresh⟩
  lowerFixed i _ := by rw [inodes]
  entries := entries
  dirents := dirents
  nextEntry := nextEntry
  nextDirent := nextDirent

theorem UpperChange.of_holds (ok : w.BackingOk) (h : w' = { w with holds := w'.holds }) :
    w.UpperChange w' := by
  rw [h]; exact .of_inodes ok rfl rfl rfl rfl rfl rfl

theorem upperChange_acquire (ok : w.BackingOk) (h : Hold) : w.UpperChange (w.acquire h) :=
  .of_inodes ok rfl rfl rfl rfl rfl rfl

theorem upperChange_release (ok : w.BackingOk) (h : Hold) : w.UpperChange (w.release h) :=
  .of_inodes ok rfl rfl rfl rfl rfl rfl

theorem upperChange_releaseSome (ok : w.BackingOk) (o : Option Ino) :
    w.UpperChange (w.releaseSome o) := by
  cases o
  · exact .of_inodes ok rfl rfl rfl rfl rfl rfl
  · exact upperChange_release ok _

theorem backingOk_setInode (ok : w.BackingOk) (live : w.inodes i = some b)
    (binds : b'.Binds i.layer) : (w.setInode i b').BackingOk where
  binds dir c hc := by
    by_cases same : dir = i
    · subst same; simp at hc; exact hc ▸ binds
    · simp [Function.update_noteq same] at hc; exact ok.binds dir c hc
  fresh j past := by
    have : j ≠ i := fun same => by have := ok.lt live; subst same; simp at past; omega
    simp [Function.update_noteq this, ok.fresh j past]

theorem upperChange_setInode (ok : w.BackingOk) (live : w.inodes i = some b)
    (upper : i.layer = .upper) (binds : b'.Binds i.layer) : w.UpperChange (w.setInode i b') where
  backing := backingOk_setInode ok live binds
  lowerFixed j lower := by
    have : j ≠ i := by rintro rfl; simp [upper] at lower
    simp [Function.update_noteq this]
  entries := rfl
  dirents := rfl
  nextEntry := rfl
  nextDirent := rfl

theorem upperChange_modify (ok : w.BackingOk) (upper : i.layer = .upper) (f : Inode → Inode)
    (binds : ∀ b, w.inodes i = some b → (f b).Binds i.layer) : w.UpperChange (w.modify i f) := by
  unfold modify
  split
  · rename_i b hb; exact upperChange_setInode ok hb upper (binds b hb)
  · exact .of_inodes ok rfl rfl rfl rfl rfl rfl

/-! ## The upper-layer calls -/

section Calls
variable {w w' : World} {i dir : Ino} {name : String}

theorem upperChange_mknod {t : InodeType} {target : String} {ep : Option Nat}
    (ok : w.BackingOk) (upper : dir.layer = .upper) (made : w.mknod dir name t target ep = .ok (i, w')) :
    w.UpperChange w' ∧ i.layer = .upper ∧ w'.inodes i = some (Inode.fresh t i target ep) := by
  obtain ⟨b, hb, d, rfl, rfl⟩ := World.mknod_spec made
  have step := upperChange_setInode ok hb upper
    ((ok.binds dir b hb).set d (i := ⟨dir.layer, w.nextIno⟩) rfl name)
  have newNe : ∀ j : Ino, j.layer = .lower → j ≠ ⟨dir.layer, w.nextIno⟩ := by
    rintro j lower rfl; simp [upper] at lower
  refine ⟨⟨⟨fun j c hc => ?_, fun j past => ?_⟩, fun j lower => ?_, rfl, rfl, rfl, rfl⟩,
    upper, by simp⟩
  · by_cases same : j = ⟨dir.layer, w.nextIno⟩
    · subst same; simp at hc; exact hc ▸ Inode.fresh_binds _ _ _ _
    · simp [Function.update_noteq same] at hc; exact step.backing.binds j c hc
  · have : j ≠ ⟨dir.layer, w.nextIno⟩ := by rintro rfl; exact Nat.not_succ_le_self _ past
    simp only [setInode_inodes, Function.update_noteq this]
    exact step.backing.fresh j (by simp at past ⊢; omega)
  · simp only [setInode_inodes, Function.update_noteq (newNe j lower)]
    exact step.lowerFixed j lower

theorem upperChange_create (ok : w.BackingOk) (upper : dir.layer = .upper)
    (made : w.create dir name = .ok (i, w')) : w.UpperChange w' ∧ i.layer = .upper := by
  unfold World.create at made
  split at made <;> cases made
  rename_i made
  obtain ⟨ch, hi, -⟩ := upperChange_mknod ok upper made
  exact ⟨(ch.trans (upperChange_acquire ch.backing _)).trans
    (upperChange_acquire (upperChange_acquire ch.backing _).backing _), hi⟩

theorem upperChange_bind {data : Nat} (ok : w.BackingOk) (upper : dir.layer = .upper)
    (made : w.bind dir name data = .ok (i, w')) : w.UpperChange w' ∧ i.layer = .upper := by
  unfold World.bind at made
  split at made <;> cases made
  rename_i made
  obtain ⟨ch, hi, -⟩ := upperChange_mknod ok upper made
  exact ⟨ch.trans (upperChange_acquire ch.backing _), hi⟩

theorem upperChange_mknod_snd {t : InodeType} {target : String} {ep : Option Nat}
    (ok : w.BackingOk) (upper : dir.layer = .upper)
    (made : (w.mknod dir name t target ep).map Prod.snd = .ok w') : w.UpperChange w' := by
  rcases hm : w.mknod dir name t target ep with e | ⟨i, w1⟩ <;> rw [hm] at made <;> cases made
  exact (upperChange_mknod ok upper hm).1

theorem upperChange_createHardLink {target : Ino} (ok : w.BackingOk) (upper : dir.layer = .upper)
    (same : target.layer = dir.layer) (made : w.createHardLink dir target name = .ok w') :
    w.UpperChange w' := by
  obtain ⟨b, hb, d, rfl⟩ := World.createHardLink_spec made
  exact upperChange_setInode ok hb upper ((ok.binds dir b hb).set d same name)

theorem upperChange_remove (ok : w.BackingOk) (upper : dir.layer = .upper)
    (made : w.remove dir name = .ok w') : w.UpperChange w' := by
  obtain ⟨b, -, hb, -, -, rfl⟩ := World.remove_spec made
  exact upperChange_setInode ok hb upper ((ok.binds dir b hb).erase name)

theorem upperChange_removeDirectory (ok : w.BackingOk) (upper : dir.layer = .upper)
    (made : w.removeDirectory dir name = .ok w') : w.UpperChange w' := by
  obtain ⟨b, -, hb, -, -, -, rfl⟩ := World.removeDirectory_spec made
  exact upperChange_setInode ok hb upper ((ok.binds dir b hb).erase name)

theorem upperChange_setxattr {key value : String} (ok : w.BackingOk) (upper : i.layer = .upper)
    (made : w.setxattr i key value = .ok w') : w.UpperChange w' := by
  obtain ⟨b, hb, rfl⟩ := World.setxattr_spec made
  exact upperChange_setInode ok hb upper ((ok.binds i b hb).congr rfl rfl)

theorem upperChange_setAttr {f : Inode → Inode} (ok : w.BackingOk) (upper : i.layer = .upper)
    (keeps : ∀ b, (f b).children = b.children ∧ (f b).stable = b.stable)
    (made : w.setAttr i f = .ok w') : w.UpperChange w' := by
  obtain ⟨b, hb, rfl⟩ := World.setAttr_spec made
  exact upperChange_setInode ok hb upper ((ok.binds i b hb).congr (keeps b).1 (keeps b).2)

theorem upperChange_rename {oldDir newDir : Ino} {oldName newName : String} {replacement : Bool}
    (ok : w.BackingOk) (oldUpper : oldDir.layer = .upper) (newUpper : newDir.layer = .upper)
    (made : w.rename oldDir oldName newDir newName replacement = .ok w') : w.UpperChange w' := by
  obtain ⟨bo, bn, c, ho, hn, d, hc, rfl⟩ := World.rename_spec made
  have first := upperChange_setInode ok ho oldUpper ((ok.binds oldDir bo ho).erase oldName)
  have moved : (w.modify oldDir fun b => { b with children := b.children.erase oldName }) =
      w.setInode oldDir { bo with children := bo.children.erase oldName } := by
    simp [World.modify, ho]
  unfold World.move
  rw [moved]
  refine first.trans (upperChange_modify first.backing newUpper _ fun b hb => ?_)
  have layer : c.layer = newDir.layer := ((ok.binds oldDir bo ho) oldName c hc).1.trans
    (oldUpper.trans newUpper.symm)
  by_cases same : newDir = oldDir
  · subst same
    obtain rfl : bo = bn := Option.some.inj (ho.symm.trans hn)
    simp at hb
    subst hb
    exact ((ok.binds newDir bo ho).erase oldName).set d layer newName
  · simp [Function.update_noteq same, hn] at hb
    subst hb
    exact (ok.binds newDir bn hn).set d layer newName

end Calls

end World

/-! ## The overlay's own state -/

/-- Entry `o'` is `o`, or `o` given an upper counterpart by copy-up. -/
def OverlayEntry.CopiedUp (o o' : OverlayEntry) : Prop :=
  o' = o ∨ (o.upper = none ∧ (∃ u, o'.upper = some u ∧ u.layer = .upper) ∧
    (o'.lower = o.lower ∨ o'.lower = none) ∧ o'.lowerExists = o.lowerExists)

theorem OverlayEntry.CopiedUp.trans {o o' o'' : OverlayEntry} (h : o.CopiedUp o')
    (h' : o'.CopiedUp o'') : o.CopiedUp o'' := by
  rcases h with rfl | ⟨none, ⟨u, hu, _⟩, lower, le⟩
  · exact h'
  · rcases h' with rfl | ⟨none', _⟩
    · exact .inr ⟨none, ⟨u, hu, by assumption⟩, lower, le⟩
    · simp [hu] at none'

theorem OverlayEntry.CopiedUp.upper_isSome {o o' : OverlayEntry} (h : o.CopiedUp o')
    (has : o.upper.isSome) : o'.upper.isSome := by
  rcases h with rfl | ⟨none, -⟩
  · exact has
  · simp [none] at has

theorem OverlayEntry.CopiedUp.lowerExists_eq {o o' : OverlayEntry} (h : o.CopiedUp o') :
    o'.lowerExists = o.lowerExists := by
  rcases h with rfl | ⟨-, -, -, le⟩
  · rfl
  · exact le

theorem OverlayEntry.CopiedUp.wellFormed {o o' : OverlayEntry} (h : o.CopiedUp o')
    (wf : o.WellFormed) : o'.WellFormed := by
  rcases h with rfl | ⟨-, ⟨u, hu, -⟩, lower, le⟩
  · exact wf
  · refine ⟨.inl (by simp [hu]), fun has => le ▸ wf.lowerExists ?_⟩
    rcases lower with same | gone
    · exact same ▸ has
    · simp [gone] at has

namespace World

/-- The invariant of a mounted overlay's state. -/
structure Invariant (w : World) : Prop where
  backing : w.BackingOk
  upperLayer : ∀ e o u, w.entries e = some o → o.upper = some u → u.layer = .upper
  lowerLayer : ∀ e o l, w.entries e = some o → o.lower = some l → l.layer = .lower
  wellFormed : ∀ e o, w.entries e = some o → o.WellFormed
  entriesFresh : ∀ e, w.nextEntry ≤ e → w.entries e = none
  direntsFresh : ∀ d, w.nextDirent ≤ d → w.dirents d = none
  direntEntry : ∀ d dd, w.dirents d = some dd → (w.entries dd.entry).isSome
  parentLive : ∀ d dd p, w.dirents d = some dd → dd.parent = some p → (w.dirents p).isSome
  entryOwner : ∀ d d' dd dd', w.dirents d = some dd → w.dirents d' = some dd' →
    dd.entry = dd'.entry → d = d'
  upperTree : ∀ d dd p, w.dirents d = some dd → dd.parent = some p →
    (w.upperOf d).isSome → (w.upperOf p).isSome

/-- What an overlay operation may do to the mount's state. -/
structure Evolves (w w' : World) : Prop where
  backing : w'.BackingOk
  lowerFixed : ∀ i, i.layer = .lower → w'.inodes i = w.inodes i
  dirents : w'.dirents = w.dirents
  nextEntry : w'.nextEntry = w.nextEntry
  nextDirent : w'.nextDirent = w.nextDirent
  entries : ∀ e o, w.entries e = some o → ∃ o', w'.entries e = some o' ∧ o.CopiedUp o'
  unallocated : ∀ e, w.entries e = none → w'.entries e = none
  parentFirst : ∀ d dd p, w.dirents d = some dd → dd.parent = some p →
    (w'.upperOf d).isSome → (w.upperOf d).isSome ∨ (w'.upperOf p).isSome

variable {w w' w'' : World}

theorem UpperChange.evolves (h : w.UpperChange w') : w.Evolves w' where
  backing := h.backing
  lowerFixed := h.lowerFixed
  dirents := h.dirents
  nextEntry := h.nextEntry
  nextDirent := h.nextDirent
  entries e o found := ⟨o, h.entries ▸ found, .inl rfl⟩
  unallocated e none := h.entries ▸ none
  parentFirst d dd p _ _ has := .inl (by simpa [upperOf, h.entries, h.dirents] using has)

theorem Evolves.refl (ok : w.BackingOk) : w.Evolves w :=
  (UpperChange.of_inodes ok rfl rfl rfl rfl rfl rfl).evolves

theorem Evolves.upperOf_isSome (h : w.Evolves w') {d : DirentId} (has : (w.upperOf d).isSome) :
    (w'.upperOf d).isSome := by
  unfold upperOf at has ⊢
  rw [h.dirents]
  rcases hd : w.dirents d with _ | dd
  · simp [hd] at has
  · rcases he : w.entries dd.entry with _ | o
    · simp [hd, he] at has
    · obtain ⟨o', h', copied⟩ := h.entries _ o he
      simpa [h'] using copied.upper_isSome (by simpa [hd, he] using has)

theorem Evolves.trans (h : w.Evolves w') (h' : w'.Evolves w'') : w.Evolves w'' where
  backing := h'.backing
  lowerFixed i lower := (h'.lowerFixed i lower).trans (h.lowerFixed i lower)
  dirents := h'.dirents.trans h.dirents
  nextEntry := h'.nextEntry.trans h.nextEntry
  nextDirent := h'.nextDirent.trans h.nextDirent
  entries e o found := by
    obtain ⟨o', f', c⟩ := h.entries e o found
    obtain ⟨o'', f'', c'⟩ := h'.entries e o' f'
    exact ⟨o'', f'', c.trans c'⟩
  unallocated e none := h'.unallocated e (h.unallocated e none)
  parentFirst d dd p hd hp has := by
    rcases h'.parentFirst d dd p (h.dirents ▸ hd) hp has with had | parent
    · rcases h.parentFirst d dd p hd hp had with old | parent
      · exact .inl old
      · exact .inr (h'.upperOf_isSome parent)
    · exact .inr parent

theorem Evolves.release (h : w.Evolves w') (k : Hold) : w.Evolves (w'.release k) :=
  h.trans (upperChange_release h.backing k).evolves

theorem Evolves.acquire (h : w.Evolves w') (k : Hold) : w.Evolves (w'.acquire k) :=
  h.trans (upperChange_acquire h.backing k).evolves

theorem Evolves.entries_eq_some (h : w.Evolves w') {e : EntryId} {o' : OverlayEntry}
    (found : w'.entries e = some o') : ∃ o, w.entries e = some o ∧ o.CopiedUp o' := by
  rcases he : w.entries e with _ | o
  · simp [h.unallocated e he] at found
  · obtain ⟨o'', f', c⟩ := h.entries e o he
    exact ⟨o, rfl, Option.some.inj (f'.symm.trans found) ▸ c⟩

theorem Evolves.invariant (inv : w.Invariant) (h : w.Evolves w') : w'.Invariant where
  backing := h.backing
  upperLayer e o' u found hu := by
    obtain ⟨o, he, c⟩ := h.entries_eq_some found
    rcases c with rfl | ⟨-, ⟨v, hv, layer⟩, -⟩
    · exact inv.upperLayer e o' u he hu
    · exact (Option.some.inj (hv.symm.trans hu)) ▸ layer
  lowerLayer e o' l found hl := by
    obtain ⟨o, he, c⟩ := h.entries_eq_some found
    rcases c with rfl | ⟨-, -, same | gone, -⟩
    · exact inv.lowerLayer e o' l he hl
    · exact inv.lowerLayer e o l he (same ▸ hl)
    · simp [gone] at hl
  wellFormed e o' found := by
    obtain ⟨o, he, c⟩ := h.entries_eq_some found
    exact c.wellFormed (inv.wellFormed e o he)
  entriesFresh e past := h.unallocated e (inv.entriesFresh e (h.nextEntry ▸ past))
  direntsFresh d past := h.dirents ▸ inv.direntsFresh d (h.nextDirent ▸ past)
  direntEntry d dd hd := by
    obtain ⟨o, ho⟩ := Option.isSome_iff_exists.mp (inv.direntEntry d dd (h.dirents ▸ hd))
    obtain ⟨o', f', -⟩ := h.entries _ o ho
    simp [f']
  parentLive d dd p hd hp := h.dirents ▸ inv.parentLive d dd p (h.dirents ▸ hd) hp
  entryOwner d d' dd dd' hd hd' := inv.entryOwner d d' dd dd' (h.dirents ▸ hd) (h.dirents ▸ hd')
  upperTree d dd p hd hp has := by
    rcases h.parentFirst d dd p (h.dirents ▸ hd) hp has with old | parent
    · exact h.upperOf_isSome (inv.upperTree d dd p (h.dirents ▸ hd) hp old)
    · exact parent

end World

end ContainerFs.Fs
