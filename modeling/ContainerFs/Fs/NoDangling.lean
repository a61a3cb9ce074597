import ContainerFs.Fs.Whiteouts

/-! No operation leaves a pointer dangling (`run_no_dangling`). Go's pointers are read as inode
numbers: a name a backing directory binds names an existing inode (`SlotsLive`), and so do the
counterparts of every overlay entry (`NoDangling`). -/

set_option autoImplicit false

namespace ContainerFs.Fs

namespace World

variable {w w' : World} {i dir : Ino} {name : String}

/-- No pointer dangles: backing names and entry counterparts name existing inodes. -/
structure NoDangling (w : World) : Prop where
  slots : w.SlotsLive
  upper : ∀ e o u, w.entries e = some o → o.upper = some u → (w.inodes u).isSome
  lower : ∀ e o l, w.entries e = some o → o.lower = some l → (w.inodes l).isSome

def KeepsLive (w w' : World) : Prop := w.NoDangling → w'.NoDangling

theorem NoDangling.upperOf (h : w.NoDangling) {x : DirentId} {u : Ino}
    (up : w.upperOf x = some u) : (w.inodes u).isSome := by
  simp only [World.upperOf, Option.bind_eq_some] at up
  obtain ⟨_, -, o, found, hu⟩ := up
  exact h.upper _ o u found hu

theorem NoDangling.of_grow (h : w.NoDangling)
    (grow : ∀ i, (w.inodes i).isSome → (w'.inodes i).isSome)
    (slots : ∀ dir b' n c, w'.inodes dir = some b' → b'.children.get n = some (.bound c) →
      (w'.inodes c).isSome ∨ ∃ b, w.inodes dir = some b ∧ b.children.get n = some (.bound c))
    (entries : w'.entries = w.entries) : w'.NoDangling where
  slots := h.slots.of_grow grow slots
  upper e o u found hu := grow u (h.upper e o u (entries ▸ found) hu)
  lower e o l found hl := grow l (h.lower e o l (entries ▸ found) hl)

theorem NoDangling.of_slot (h : w.NoDangling) (slot : ∀ i n, w'.slot i n = w.slot i n)
    (isSome : ∀ i, (w'.inodes i).isSome = (w.inodes i).isSome) (entries : w'.entries = w.entries) :
    w'.NoDangling where
  slots := h.slots.of_slot slot isSome
  upper e o u found hu := (isSome u).trans (h.upper e o u (entries ▸ found) hu)
  lower e o l found hl := (isSome l).trans (h.lower e o l (entries ▸ found) hl)

theorem NoDangling.of_inodes (h : w.NoDangling) (inodes : w'.inodes = w.inodes)
    (entries : w'.entries = w.entries) : w'.NoDangling :=
  h.of_slot (fun _ _ => by rw [slot_congr inodes]) (by simp [inodes]) entries

theorem isSome_setInode {b : Inode} (hb : w.inodes i = some b) (b' : Inode) {j : Ino}
    (live : (w.inodes j).isSome) : ((w.setInode i b').inodes j).isSome := by
  by_cases same : j = i
  · subst same; simp
  · simpa [Function.update_noteq same] using live

@[simp] theorem isSome_modify (f : Inode → Inode) (j : Ino) :
    ((w.modify i f).inodes j).isSome = (w.inodes j).isSome := by
  unfold modify
  split
  · by_cases same : j = i
    · subst same; simp [*]
    · simp [Function.update_noteq same]
  · rfl

theorem NoDangling.setInode (h : w.NoDangling) {b b' : Inode} (hb : w.inodes i = some b)
    (sub : ∀ n c, b'.children.get n = some (.bound c) →
      b.children.get n = some (.bound c) ∨ (w.inodes c).isSome) :
    (w.setInode i b').NoDangling where
  slots := h.slots.setInode hb fun n c hc => (sub n c hc).imp_right (isSome_setInode hb b')
  upper e o u found hu := isSome_setInode hb b' (h.upper e o u found hu)
  lower e o l found hl := isSome_setInode hb b' (h.lower e o l found hl)

theorem NoDangling.modify (h : w.NoDangling) (i : Ino) {f : Inode → Inode}
    (sub : ∀ b n c, (f b).children.get n = some (.bound c) →
      b.children.get n = some (.bound c) ∨ (w.inodes c).isSome) :
    (w.modify i f).NoDangling := by
  unfold World.modify
  split
  · exact h.setInode ‹_› (sub _)
  · exact h

theorem NoDangling.attach (h : w.NoDangling) {parent : DirentId} {e : OverlayEntry}
    {s : StableAttr} (eu : ∀ u, e.upper = some u → (w.inodes u).isSome)
    (el : ∀ l, e.lower = some l → (w.inodes l).isSome) :
    (w.attach parent name e s).NoDangling where
  slots := h.slots.of_inodes attach_inodes
  upper x o u found hu := by
    rcases attach_entries_eq_some found with rfl | ⟨-, found⟩
    · exact eu u hu
    · exact h.upper x o u found hu
  lower x o l found hl := by
    rcases attach_entries_eq_some found with rfl | ⟨-, found⟩
    · exact el l hl
    · exact h.lower x o l found hl

/-! ### The backing calls -/

theorem keepsLive_mknod {t : InodeType} {target : String} {ep : Option Nat}
    (made : w.mknod dir name t target ep = .ok (i, w')) : w.KeepsLive w' := by
  intro h
  obtain ⟨b, hb, -, rfl, rfl⟩ := mknod_spec made
  refine h.of_grow (fun j hj => ?_) (fun d b2 n c hb2 hc => ?_) rfl
  · simp only [setInode_inodes, Function.update_apply]
    split_ifs <;> simp_all
  · simp only [setInode_inodes, Function.update_apply] at hb2 ⊢
    split_ifs at hb2 with h1 h2
    · cases hb2
      simp [Inode.fresh, Assoc.get] at hc
    · cases hb2
      by_cases same : n = name
      · subst same
        simp only [Assoc.get_set, if_true, Option.some.injEq, Slot.bound.injEq] at hc
        subst hc
        exact .inl (by simp)
      · simp only [Assoc.get_set, Ne.symm same, if_false] at hc
        exact .inr ⟨b, h2 ▸ hb, hc⟩
    · exact .inr ⟨b2, hb2, hc⟩

theorem keepsLive_mknod_snd {t : InodeType} {target : String} {ep : Option Nat}
    (made : (w.mknod dir name t target ep).map Prod.snd = .ok w') : w.KeepsLive w' := by
  rcases hm : w.mknod dir name t target ep with e | ⟨i, w1⟩ <;> rw [hm] at made <;> cases made
  exact keepsLive_mknod hm

theorem keepsLive_create (made : w.create dir name = .ok (i, w')) : w.KeepsLive w' := by
  unfold create at made
  split at made <;> cases made
  rename_i mk
  exact fun h => (keepsLive_mknod mk h).of_inodes rfl rfl

theorem keepsLive_bind {data : Nat} (made : w.bind dir name data = .ok (i, w')) :
    w.KeepsLive w' := by
  unfold bind at made
  split at made <;> cases made
  rename_i mk
  exact fun h => (keepsLive_mknod mk h).of_inodes rfl rfl

theorem keepsLive_createHardLink {x : DirentId} {target : Ino} (up : w.upperOf x = some target)
    (made : w.createHardLink dir target name = .ok w') : w.KeepsLive w' := by
  intro h
  obtain ⟨b, hb, -, rfl⟩ := createHardLink_spec made
  refine h.setInode hb fun n c hc => ?_
  by_cases same : name = n
  · subst same
    simp only [Assoc.get_set, if_true, Option.some.injEq, Slot.bound.injEq] at hc
    exact .inr (hc ▸ h.upperOf up)
  · simp only [Assoc.get_set, same, if_false] at hc
    exact .inl hc

theorem keepsLive_erase {b : Inode} (hb : w.inodes dir = some b) :
    w.KeepsLive (w.setInode dir { b with children := b.children.erase name }) := fun h =>
  h.setInode hb fun n c hc => .inl (by
    simp only [Assoc.get_erase] at hc
    split_ifs at hc
    exact hc)

theorem keepsLive_remove (made : w.remove dir name = .ok w') : w.KeepsLive w' := by
  obtain ⟨b, -, hb, -, -, rfl⟩ := remove_spec made
  exact keepsLive_erase hb

theorem keepsLive_removeDirectory (made : w.removeDirectory dir name = .ok w') :
    w.KeepsLive w' := by
  obtain ⟨b, -, hb, -, -, -, rfl⟩ := removeDirectory_spec made
  exact keepsLive_erase hb

theorem keepsLive_cleanupUpper (dir : Ino) (name : String) :
    w.KeepsLive (cleanupUpper w dir name) := by
  unfold cleanupUpper
  split
  · exact keepsLive_remove ‹_›
  · exact id

theorem keepsLive_rename {oldDir newDir : Ino} {oldName newName : String} {replacement : Bool}
    (made : w.rename oldDir oldName newDir newName replacement = .ok w') : w.KeepsLive w' := by
  intro h
  obtain ⟨bo, -, c, ho, -, -, hc, rfl⟩ := rename_spec made
  have live : (w.inodes c).isSome := h.slots oldDir bo oldName c ho hc
  refine (h.modify oldDir fun b n c' hc' => .inl ?_).modify newDir fun b n c' hc' => ?_
  · simp only [Assoc.get_erase] at hc'
    split_ifs at hc'
    exact hc'
  · by_cases same : newName = n
    · subst same
      simp only [Assoc.get_set, if_true, Option.some.injEq, Slot.bound.injEq] at hc'
      exact .inr (by rw [← hc', isSome_modify]; exact live)
    · simp only [Assoc.get_set, same, if_false] at hc'
      exact .inl hc'

theorem keepsLive_setAttr {f : Inode → Inode} (made : w.setAttr i f = .ok w')
    (children : ∀ b, (f b).children = b.children) : w.KeepsLive w' := by
  obtain ⟨b, hb, rfl⟩ := setAttr_spec made
  exact fun h => h.setInode hb fun n c hc => .inl (by rwa [children] at hc)

theorem keepsLive_createWhiteout (made : overlayCreateWhiteout w dir name = .ok w') :
    w.KeepsLive w' := by
  obtain ⟨b, hb, rfl⟩ := setxattr_spec made
  exact fun h => h.setInode hb fun n c hc => .inl hc

theorem keepsLive_setPermissions (u : Ino) (perms : Nat) :
    w.KeepsLive (w.setPermissions u perms).2 := by
  unfold setPermissions
  split
  · rename_i made
    exact keepsLive_setAttr made fun _ => rfl
  · exact id

theorem keepsLive_write {f : File} {bytes : List Nat} (made : w.write f bytes = .ok w') :
    w.KeepsLive w' := by
  unfold write at made
  split at made
  · cases made
  · exact keepsLive_setAttr made fun _ => rfl

theorem keepsLive_copyUp (inv : w.Invariant) (d : DirentId) : w.KeepsLive (copyUp w d).2 := by
  intro h
  have ev := evolves_copyUp inv d
  have fresh : w.CopiedFresh (copyUp w d).2 := copiedFresh_copyUpLockedForRename _ w d inv
  have old : ∀ e o', (copyUp w d).2.entries e = some o' →
      ∃ o, w.entries e = some o ∧ o.CopiedUp o' := fun e o' found' => by
    rcases hw : w.entries e with _ | o
    · simp [ev.unallocated e hw] at found'
    obtain ⟨o2, found2, copied⟩ := ev.entries e o hw
    exact ⟨o, rfl, Option.some.inj (found2.symm.trans found') ▸ copied⟩
  refine ⟨h.slots.copyUpLockedForRename _ w d, fun e o' u found' hu => ?_, fun e o' l found' hl => ?_⟩
  · obtain ⟨o, found, copied⟩ := old e o' found'
    rcases copied with rfl | ⟨none, -⟩
    · exact (fresh.whiteouts u (h.upper e _ u found hu)).1
    · exact (fresh.upper e o o' u found none found' hu).1
  · obtain ⟨o, found, copied⟩ := old e o' found'
    have lower : o.lower = some l := by
      rcases copied with rfl | ⟨-, -, same | gone, -⟩
      · exact hl
      · rwa [← same]
      · simp [gone] at hl
    exact (fresh.whiteouts l (h.lower e o l found lower)).1

end World

open World

theorem CopyKept.live : CopyKept KeepsLive where
  trans h h' := h' ∘ h
  same h live := live.of_slot h.slot_eq h.isSome_eq h.entries
  copy inv d := keepsLive_copyUp inv d

/-! ## What the operations cache -/

section Cached
variable {check : EntryCheck} {w w' : World} {name : String}

theorem ruleMerge_lower {s : Ino → StableAttr} {u : Option Ino} {neg : Bool} {lo : Option Looked}
    {e : OverlayEntry} {st : StableAttr} {b : Bool} {l : Ino}
    (h : ruleMerge check s u neg lo = .ok (.positive e st, b)) (hl : e.lower = some l) :
    lo.bind Looked.positive? = some l := by
  unfold ruleMerge at h
  rcases clean : lo.bind Looked.failure with _ | f <;> simp only [clean] at h
  · rcases hp : lo.bind Looked.positive? with _ | l' <;> rcases u with _ | u <;>
      simp only [hp, Option.filter] at h
    · cases neg <;> cases h
    · obtain rfl := ruleEntry_positive h; cases hl
    · obtain rfl := ruleEntry_positive h; cases hl; rfl
    · by_cases c : compatible (s u) (s l') <;>
        simp only [c, Option.all_some, if_true, if_false] at h
      · obtain rfl := ruleEntry_positive h; split at hl <;> cases hl; rfl
      · obtain rfl := ruleEntry_positive h; cases hl
  · cases h

theorem overlayLookup_counterparts_live (live : w.SlotsLive) {parent : EntryId}
    {p : OverlayEntry} (found : w.entries parent = some p) {e : OverlayEntry} {st : StableAttr}
    {b : Bool} (looked : (overlayLookup check w parent name).1 = .ok (.positive e st, b)) :
    (∀ u, e.upper = some u → (w.inodes u).isSome) ∧ ∀ l, e.lower = some l → (w.inodes l).isSome := by
  have lower : ∀ {u neg l}, ruleMerge check w.stableOf u neg
      (p.lower.map fun d => (w.lookup d name).1) = .ok (.positive e st, b) →
      e.lower = some l → (w.inodes l).isSome := fun merged hl => by
    have bound := ruleMerge_lower merged hl
    rcases hpl : p.lower with _ | pl <;> simp only [hpl, Option.map_none', Option.map_some',
      Option.none_bind, Option.some_bind] at bound
    · cases bound
    · exact live.bound (slot_of_positive bound)
  rcases hu : p.upper with _ | pu
  · rcases hl : p.lower with _ | pl
    · simp [overlayLookup, found, hu, hl] at looked
    · rw [overlayLookup_fst_lower check name found hu hl] at looked
      exact ⟨fun u h => by simp [(ruleMerge_positive looked).1] at h, fun l h => lower (by rwa [hl]) h⟩
  · obtain ⟨⟨neg, step⟩, -⟩ := overlayLookup_positive_upper live found hu looked
    refine ⟨fun u h => live.bound (upperStep_some_slot (h ▸ step)), fun l h => ?_⟩
    rw [overlayLookup_fst_upper check live name found hu step] at looked
    split at looked
    · obtain ⟨_, -, rfl⟩ := whiteoutOutcome_positive looked; cases h
    · exact lower looked h

theorem overlayCreate_entry {parent : DirentId} {flags : FileFlags} {n : NewInode} {f : File}
    (h : overlayCreate check w parent name flags = (.ok (n, f), w')) :
    ∃ i, n.entry = ⟨some i, none, false⟩ ∧ (w'.inodes i).isSome := by
  obtain ⟨w1, -, h⟩ := afterCopyUp_ok h
  obtain ⟨pu, -, h⟩ := withUpper_ok h
  rcases hc : w1.create pu name with e | ⟨i, w2⟩ <;> simp only [hc] at h
  · cases h
  unfold World.create at hc
  rcases mk : w1.mknod pu name .regularFile "" none with e | ⟨i', w3⟩ <;> simp only [mk] at hc
  · cases hc
  obtain ⟨rfl, rfl⟩ := Prod.mk.inj (Except.ok.inj hc)
  have live : (w3.inodes i').isSome := by
    obtain ⟨b, -, -, rfl, rfl⟩ := mknod_spec mk
    simp [setInode]
  rcases hk : check (some i') none false with _ | e <;> simp [newOverlayEntry, hk] at h
  obtain ⟨⟨rfl, -⟩, rfl⟩ := h
  exact ⟨i', rfl, live⟩

theorem overlayBind_entry {o : EntryId} {data : Nat} {n : NewInode}
    (h : overlayBind check w o name data = (.ok n, w')) :
    ∃ i, n.entry = ⟨some i, none, false⟩ ∧ (w'.inodes i).isSome := by
  rcases found : w.entries o with _ | oe <;> simp only [overlayBind, found] at h
  · cases h
  rcases hu : oe.upper with _ | ou <;> simp only [hu] at h
  · cases h
  rcases hb : (w.acquire (.reader o)).bind ou name data with e | ⟨i, w2⟩ <;> simp only [hb] at h
  · cases h
  unfold World.bind at hb
  rcases mk : (w.acquire (.reader o)).mknod ou name .socket "" (some data) with e | ⟨i', w3⟩ <;>
    simp only [mk] at hb
  · cases hb
  obtain ⟨rfl, rfl⟩ := Prod.mk.inj (Except.ok.inj hb)
  have live : (w3.inodes i').isSome := by
    obtain ⟨b, -, -, rfl, rfl⟩ := mknod_spec mk
    simp [setInode]
  rcases hk : check (some i') none false with _ | e <;> simp [newOverlayEntry, hk] at h
  obtain ⟨rfl, rfl⟩ := h
  exact ⟨i', rfl, live⟩

theorem World.NoDangling.attach_new {parent : DirentId} {n : NewInode} {i : Ino}
    (h : w.NoDangling) (entry : n.entry = ⟨some i, none, false⟩) (live : (w.inodes i).isSome) :
    (w.attach parent name n.entry n.stable).NoDangling :=
  h.attach (fun u hu => by rw [entry] at hu; cases hu; exact live) fun l hl => by
    rw [entry] at hl; cases hl

end Cached

/-! ## Every operation keeps every pointer live -/

section Steps
variable (check : EntryCheck) (readdirOne : World → OverlayEntry → Except Errno (List String))
  {w : World}

theorem exec_keepsLive (inv : w.Invariant) (op : Op) : w.KeepsLive (exec check readdirOne w op).2 := by
  have hR := CopyKept.live
  cases op with
  | lookup parent name =>
    simp only [exec]
    rcases hp : w.dirents parent with _ | pd
    · exact id
    obtain ⟨p, found⟩ := Option.isSome_iff_exists.mp (inv.direntEntry parent pd hp)
    have same := sameContent_overlayLookup check name pd.entry (w := w)
    have looked : w.KeepsLive (overlayLookup check w pd.entry name).2 := hR.same same
    simp only
    revert same looked
    generalize hx : overlayLookup check w pd.entry name = x
    rcases x with ⟨⟨_ | ⟨e, s⟩, b⟩ | _ | _, w1⟩ <;> intro same looked live
    · exact looked live
    · obtain ⟨eu, el⟩ := overlayLookup_counterparts_live live.slots found (by rw [hx])
      exact (looked live).attach (fun u hu => (same.isSome_eq u).trans (eu u hu))
        fun l hl => (same.isSome_eq l).trans (el l hl)
    · exact looked live
    · exact looked live
  | create parent name flags =>
    have kept := hR.keeps_overlayCreate check inv parent name flags fun _ _ _ _ _ made =>
      ⟨keepsLive_create made, fun h =>
        keepsLive_cleanupUpper _ _ ((keepsLive_create made h).of_inodes rfl rfl)⟩
    simp only [exec]
    revert kept
    generalize hx : overlayCreate check w parent name flags = x
    rcases x with ⟨⟨n, f⟩ | _ | _, w1⟩ <;> intro kept live
    · obtain ⟨i, entry, hi⟩ := overlayCreate_entry hx
      exact (kept live).attach_new entry hi
    · exact kept live
    · exact kept live
  | createDirectory parent _ | createLink parent _ _ | createFifo parent _ =>
    exact hR.keeps_overlayCreateUpper inv parent fun _ _ _ _ made => keepsLive_mknod_snd made
  | createHardLink parent target name =>
    exact hR.keeps_overlayCreateHardLink inv parent target name fun _ _ _ _ up made =>
      keepsLive_createHardLink up made
  | bind parent name data =>
    simp only [exec]
    rcases hp : w.dirents parent with _ | pd
    · exact id
    have kept := hR.keeps_overlayBind check inv pd.entry name data fun _ _ _ _ _ made =>
      keepsLive_bind made
    simp only
    revert kept
    generalize hx : overlayBind check w pd.entry name data = x
    rcases x with ⟨n | _ | _, w1⟩ <;> intro kept live
    · obtain ⟨i, entry, hi⟩ := overlayBind_entry hx
      exact (kept live).attach_new entry hi
    · exact kept live
    · exact kept live
  | remove child =>
    exact hR.keeps_exec_remove check readdirOne inv child
      (fun _ _ _ _ made => keepsLive_removeDirectory made)
      (fun _ _ _ _ made => keepsLive_remove made) fun _ _ _ _ made => keepsLive_createWhiteout made
  | rename renamed newParent newName replacement =>
    exact hR.keeps_exec_rename check readdirOne inv renamed newParent newName replacement
      (fun _ _ _ _ _ _ made => keepsLive_rename made)
      (fun _ _ _ _ made => keepsLive_createWhiteout made) fun _ live =>
        live.of_inodes moveDirent_inodes moveDirent_entries
  | setPermissions d perms =>
    exact hR.keeps_overlaySetPermissions inv d perms fun _ u => keepsLive_setPermissions u perms
  | setOwner d _ | setTimestamps d _ | truncate d _ =>
    exact hR.keeps_overlaySetAttr inv d fun _ _ _ made => keepsLive_setAttr made fun _ => rfl
  | writeOut d => exact hR.keeps_exec_writeOut check readdirOne d
  | write d flags bytes =>
    exact hR.keeps_exec_write check readdirOne inv d flags bytes fun _ _ _ made =>
      keepsLive_write made

end Steps

/-! ## Runs -/

section Run
variable (check : EntryCheck) (readdirOne : World → OverlayEntry → Except Errno (List String))

/-- Every run from a state with no dangling pointer reaches only such states. -/
theorem run_no_dangling {w w' : World} (inv : w.Invariant) (live : w.NoDangling)
    (run : Relation.ReflTransGen (fun a b => ∃ op, (exec check readdirOne a op).2 = b) w w') :
    w'.NoDangling := by
  suffices w'.Invariant ∧ w'.NoDangling from this.2
  induction run with
  | refl => exact ⟨inv, live⟩
  | tail _ step ih =>
    obtain ⟨op, rfl⟩ := step
    exact ⟨(exec_invariant check readdirOne ih.1 op).1, exec_keepsLive check readdirOne ih.1 op ih.2⟩

theorem lowerFileMount_noDangling : lowerFileMount.NoDangling where
  slots := (World.build_slotsLive [] [] (by decide) :
    (World.build lowerFileInodes [] []).SlotsLive).of_inodes rfl
  upper e o u found hu := by
    simp only [lowerFileMount, mount] at found
    split_ifs at found
    cases found; cases hu; rfl
  lower e o l found hl := by
    simp only [lowerFileMount, mount] at found
    split_ifs at found
    cases found; cases hl; rfl

theorem run_no_dangling_linked :
    lowerFileMount.Invariant ∧ lowerFileMount.NoDangling ∧
      Relation.ReflTransGen
        (fun a b => ∃ op, (exec (fun _ _ _ => none) (fun _ _ => .ok []) a op).2 = b) lowerFileMount
        (execAll (fun _ _ _ => none) (fun _ _ => .ok []) lowerFileMount
          [.lookup 0 "f", .createHardLink 0 1 "g", .remove 1]) ∧
      (execAll (fun _ _ _ => none) (fun _ _ => .ok []) lowerFileMount
          [.lookup 0 "f", .createHardLink 0 1 "g", .remove 1]).NoDangling :=
  have run : Relation.ReflTransGen
      (fun a b => ∃ op, (exec (fun _ _ _ => none) (fun _ _ => .ok []) a op).2 = b) lowerFileMount
      (execAll (fun _ _ _ => none) (fun _ _ => .ok []) lowerFileMount
        [.lookup 0 "f", .createHardLink 0 1 "g", .remove 1]) :=
    .tail (.tail (.single ⟨.lookup 0 "f", rfl⟩) ⟨.createHardLink 0 1 "g", rfl⟩) ⟨.remove 1, rfl⟩
  ⟨lowerFileMount_reach.invariant, lowerFileMount_noDangling, run,
    run_no_dangling _ _ lowerFileMount_reach.invariant lowerFileMount_noDangling run⟩

end Run

end ContainerFs.Fs
