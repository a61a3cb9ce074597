import ContainerFs.Fs.Remove

/-! What a lookup sees after an operation that makes an object: the next lookup of the name under
the parent finds it as its upper match, and a whiteout left on the name does not hide it
(`exec_create_shows`). -/

set_option autoImplicit false

namespace ContainerFs.Fs

open World

def Op.creates : Op → Option (DirentId × String)
  | .create parent name _ | .createDirectory parent name | .createLink parent _ name
  | .createFifo parent name | .bind parent name _ => some (parent, name)
  | _ => none

namespace World

/-- What an operation that made `i` as `name` in the upper directory `pu` of `parent` leaves. -/
structure Made (w : World) (parent : DirentId) (pd : Dirent) (name : String) (pu i : Ino) :
    Prop where
  dirent : w.dirents parent = some pd
  upper : w.upperOf parent = some pu
  bound : w.slot pu name = some (.bound i)
  live : w.SlotsLive

variable {w w' : World} {parent : DirentId} {pd : Dirent} {name : String} {pu i : Ino}

theorem Made.congr (h : w.Made parent pd name pu i) (inodes : w'.inodes = w.inodes)
    (entries : w'.entries = w.entries) (dirents : w'.dirents = w.dirents) :
    w'.Made parent pd name pu i where
  dirent := dirents ▸ h.dirent
  upper := by rw [← h.upper]; simp only [upperOf, entries, dirents]
  bound := by rw [slot_congr inodes]; exact h.bound
  live := h.live.of_inodes inodes

theorem Made.mknod (ok : w.BackingOk) (live : w.SlotsLive) (hp : w.dirents parent = some pd)
    (up : w.upperOf parent = some pu) {t : InodeType} {target : String} {ep : Option Nat}
    (made : w.mknod pu name t target ep = .ok (i, w')) : w'.Made parent pd name pu i := by
  obtain ⟨b, hb, -, rfl, rfl⟩ := World.mknod_spec made
  have ne : pu ≠ ⟨pu.layer, w.nextIno⟩ := fun same => by
    have := ok.lt hb
    rw [same] at this
    exact Nat.lt_irrefl _ this
  refine ⟨hp, by simpa only [upperOf] using up, ?_, ?_⟩
  · simp [World.slot, Function.update_noteq ne]
  · refine live.of_grow (fun j hj => ?_) fun d b2 n c hb2 hc => ?_
    · simp only [setInode_inodes, Function.update_apply]
      split_ifs <;> simp_all
    · simp only [setInode_inodes, Function.update_apply] at hb2 ⊢
      split_ifs at hb2 with h1 h2
      · cases hb2
        simp [Inode.fresh, Assoc.get] at hc
      · cases hb2
        by_cases same : n = name
        · subst same
          simp only [Assoc.get_set, if_true, Option.some.injEq, Slot.bound.injEq] at hc
          subst hc
          exact .inl (by simp)
        · simp only [Assoc.get_set, Ne.symm same, if_false] at hc
          exact .inr ⟨b, h2 ▸ hb, hc⟩
      · exact .inr ⟨b2, hb2, hc⟩

theorem mknod_fresh (ok : w.BackingOk) {dir : Ino} {t : InodeType} {target : String}
    {ep : Option Nat} (made : w.mknod dir name t target ep = .ok (i, w')) : w.inodes i = none := by
  obtain ⟨b, -, -, rfl, -⟩ := World.mknod_spec made
  exact ok.fresh _ le_rfl

theorem Made.attach (inv : w.Invariant) (h : w.Made parent pd name pu i) (parent' : DirentId)
    (name' : String) (e : OverlayEntry) (s : StableAttr) :
    (w.attach parent' name' e s).Made parent pd name pu i where
  dirent := by
    rw [attach_dirents, Function.update_noteq (inv.dirent_ne (by simp [h.dirent])), h.dirent]
  upper := by rw [inv.upperOf_attach (inv.dirent_ne (by simp [h.dirent])), h.upper]
  bound := h.bound
  live := h.live.of_inodes rfl

theorem overlayLookup_bound (check : EntryCheck) (live : w.SlotsLive) {x : EntryId}
    {p : OverlayEntry} (found : w.entries x = some p) (hu : p.upper = some pu)
    (bound : w.slot pu name = some (.bound i)) :
    (overlayLookup check w x name).1 =
      if overlayHasWhiteout w pu name then ruleEntry check (some i) none false (w.stableOf i)
      else ruleMerge check w.stableOf (some i) false (p.lower.map fun d => (w.lookup d name).1) := by
  have step : upperStep (w.lookup pu name).1 = .ok (some i, false) := by
    simp [World.lookup, bound, upperStep]
  rw [overlayLookup_fst_upper check live name found hu step, whiteoutOutcome_eq]

end World

section Create
variable (check : EntryCheck) {w w' : World} {parent : DirentId} {pd : Dirent} {name : String}

theorem copyUp_made (inv : w.Invariant) (live : w.SlotsLive) (hp : w.dirents parent = some pd)
    {w1 : World} (cu : copyUp w parent = (.ok (), w1)) :
    w1.Invariant ∧ w1.SlotsLive ∧ w1.dirents parent = some pd ∧
      ∀ i, w1.inodes i = none → w.inodes i = none := by
  obtain ⟨ev, -⟩ := copyUp_ok inv cu
  have live1 := World.SlotsLive.copyUpLockedForRename w.nextDirent w parent live
  have fresh := copiedFresh_copyUpLockedForRename w.nextDirent w parent inv
  rw [show copyUpLockedForRename w.nextDirent w parent = copyUp w parent from rfl, cu] at live1 fresh
  refine ⟨ev.invariant inv, live1, ev.dirents ▸ hp, fun i gone => ?_⟩
  rcases h : w.inodes i with _ | b
  · rfl
  · simpa [gone] using (fresh.whiteouts i (by simp [h])).1

theorem overlayCreateUpper_made (inv : w.Invariant) (live : w.SlotsLive)
    (hp : w.dirents parent = some pd) {t : InodeType} {target : String} {ep : Option Nat}
    (h : overlayCreateUpper w parent (fun w ou => (w.mknod ou name t target ep).map Prod.snd) =
      (.ok (), w')) : ∃ pu i, w.inodes i = none ∧ w'.Made parent pd name pu i := by
  obtain ⟨w1, cu, h⟩ := afterCopyUp_ok h
  obtain ⟨inv1, live1, hp1, grows⟩ := copyUp_made inv live hp cu
  obtain ⟨pu, hpu, h⟩ := withUpper_ok h
  have made : (w1.mknod pu name t target ep).map Prod.snd = .ok w' := stepOf_ok h
  rcases mk : w1.mknod pu name t target ep with e | ⟨i, w2⟩ <;> rw [mk] at made
  · cases made
  obtain rfl : w2 = w' := Except.ok.inj made
  exact ⟨pu, i, grows i (mknod_fresh inv1.backing mk), .mknod inv1.backing live1 hp1 hpu mk⟩

theorem overlayCreate_made (inv : w.Invariant) (live : w.SlotsLive)
    (hp : w.dirents parent = some pd) {flags : FileFlags} {r : NewInode × File}
    (h : overlayCreate check w parent name flags = (.ok r, w')) :
    ∃ pu i, w.inodes i = none ∧ w'.Made parent pd name pu i := by
  obtain ⟨w1, cu, h⟩ := afterCopyUp_ok h
  obtain ⟨inv1, live1, hp1, grows⟩ := copyUp_made inv live hp cu
  obtain ⟨pu, hpu, h⟩ := withUpper_ok h
  rcases hc : w1.create pu name with e | ⟨i, w2⟩ <;> simp only [hc] at h
  · cases h
  unfold World.create at hc
  rcases mk : w1.mknod pu name .regularFile "" none with e | ⟨i', w3⟩ <;> simp only [mk] at hc
  · cases hc
  obtain ⟨rfl, rfl⟩ := Prod.mk.inj (Except.ok.inj hc)
  have made := Made.mknod inv1.backing live1 hp1 hpu mk
  rcases hk : check (some i') none false with _ | e <;> simp [newOverlayEntry, hk] at h
  obtain ⟨-, rfl⟩ := h
  exact ⟨pu, i', grows i' (mknod_fresh inv1.backing mk), made.congr (by simp) (by simp) (by simp)⟩

theorem overlayBind_made (inv : w.Invariant) (live : w.SlotsLive)
    (hp : w.dirents parent = some pd) {data : Nat} {n : NewInode}
    (h : overlayBind check w pd.entry name data = (.ok n, w')) :
    ∃ pu i, w.inodes i = none ∧ w'.Made parent pd name pu i := by
  obtain ⟨oe, found⟩ := Option.isSome_iff_exists.mp (inv.direntEntry parent pd hp)
  simp only [overlayBind, found] at h
  rcases hu : oe.upper with _ | ou <;> simp only [hu] at h
  · cases h
  rcases hb : (w.acquire (.reader pd.entry)).bind ou name data with e | ⟨i, w2⟩ <;>
    simp only [hb] at h
  · cases h
  unfold World.bind at hb
  rcases mk : (w.acquire (.reader pd.entry)).mknod ou name .socket "" (some data) with
    e | ⟨i', w3⟩ <;> simp only [mk] at hb
  · cases hb
  obtain ⟨rfl, rfl⟩ := Prod.mk.inj (Except.ok.inj hb)
  have up : (w.acquire (.reader pd.entry)).upperOf parent = some ou := by
    simp [upperOf, hp, found, hu]
  have made := Made.mknod (upperChange_acquire inv.backing _).backing (live.of_inodes rfl)
    (show (w.acquire (.reader pd.entry)).dirents parent = some pd from hp) up mk
  rcases hk : check (some i') none false with _ | e <;> simp [newOverlayEntry, hk] at h
  obtain ⟨-, rfl⟩ := h
  have fresh := mknod_fresh (upperChange_acquire inv.backing _).backing mk
  exact ⟨ou, i', fresh, made.congr (by simp) (by simp) (by simp)⟩

variable (readdirOne : World → OverlayEntry → Except Errno (List String))

theorem exec_made (inv : w.Invariant) (live : w.SlotsLive) {op : Op}
    (creates : op.creates = some (parent, name)) (hp : w.dirents parent = some pd)
    (done : exec check readdirOne w op = (.ok (), w')) :
    ∃ pu i, w.inodes i = none ∧ w'.Made parent pd name pu i := by
  cases op with
  | create parent' name' flags =>
    obtain ⟨h1, h2⟩ := Prod.mk.inj (Option.some.inj creates)
    subst parent' name'
    simp only [exec] at done
    have ev := evolves_overlayCreate check inv parent name flags
    revert done ev
    generalize hx : overlayCreate check w parent name flags = x
    rcases x with ⟨r | _ | _, w1⟩ <;> intro done ev <;> cases done
    obtain ⟨pu, i, fresh, made⟩ := overlayCreate_made check inv live hp hx
    exact ⟨pu, i, fresh, made.attach (ev.invariant inv) ..⟩
  | createDirectory parent' name' =>
    obtain ⟨h1, h2⟩ := Prod.mk.inj (Option.some.inj creates)
    subst parent' name'
    exact overlayCreateUpper_made inv live hp done
  | createLink parent' oldname name' =>
    obtain ⟨h1, h2⟩ := Prod.mk.inj (Option.some.inj creates)
    subst parent' name'
    exact overlayCreateUpper_made inv live hp done
  | createFifo parent' name' =>
    obtain ⟨h1, h2⟩ := Prod.mk.inj (Option.some.inj creates)
    subst parent' name'
    exact overlayCreateUpper_made inv live hp done
  | bind parent' name' data =>
    obtain ⟨h1, h2⟩ := Prod.mk.inj (Option.some.inj creates)
    subst parent' name'
    simp only [exec, hp] at done
    have ev := evolves_overlayBind check inv pd.entry name data
    revert done ev
    generalize hx : overlayBind check w pd.entry name data = x
    rcases x with ⟨n | _ | _, w1⟩ <;> intro done ev <;> cases done
    obtain ⟨pu, i, fresh, made⟩ := overlayBind_made check inv live hp hx
    exact ⟨pu, i, fresh, made.attach (ev.invariant inv) ..⟩
  | _ => cases creates

/-- A successful create binds the name to a fresh inode that the next lookup finds. -/
theorem exec_create_shows (inv : w.Invariant) (live : w.SlotsLive) {op : Op}
    (creates : op.creates = some (parent, name)) (hp : w.dirents parent = some pd)
    (done : exec check readdirOne w op = (.ok (), w')) :
    ∃ p pu i, w.inodes i = none ∧ w'.entries pd.entry = some p ∧ p.upper = some pu ∧
      w'.slot pu name = some (.bound i) ∧ (overlayLookup check w' pd.entry name).1 =
        if overlayHasWhiteout w' pu name then ruleEntry check (some i) none false (w'.stableOf i)
        else ruleMerge check w'.stableOf (some i) false (p.lower.map fun d => (w'.lookup d name).1) := by
  obtain ⟨pu, i, fresh, made⟩ := exec_made check readdirOne inv live creates hp done
  have up := made.upper
  simp only [upperOf, made.dirent, Option.some_bind, Option.bind_eq_some] at up
  obtain ⟨p, found, hu⟩ := up
  exact ⟨p, pu, i, fresh, found, hu, made.bound,
    overlayLookup_bound check made.live found hu made.bound⟩

end Create

def splitMkdir : World :=
  (exec (fun _ _ _ => none) (fun _ _ => .ok []) splitMount (.createDirectory 0 "k")).2

theorem exec_create_shows_mkdir :
    splitMount.Invariant ∧ splitMount.SlotsLive ∧ (Op.createDirectory 0 "k").creates = some (0, "k") ∧
      splitMount.dirents 0 = some ⟨"", none, 0, ⟨.directory, 0, 0⟩⟩ ∧
      exec (fun _ _ _ => none) (fun _ _ => .ok []) splitMount (.createDirectory 0 "k") =
        (.ok (), splitMkdir) ∧
      ∃ p pu i, splitMount.inodes i = none ∧ splitMkdir.entries 0 = some p ∧
        p.upper = some pu ∧ splitMkdir.slot pu "k" = some (.bound i) ∧
        (overlayLookup (fun _ _ _ => none) splitMkdir 0 "k").1 =
          if overlayHasWhiteout splitMkdir pu "k" then
            ruleEntry (fun _ _ _ => none) (some i) none false (splitMkdir.stableOf i)
          else ruleMerge (fun _ _ _ => none) splitMkdir.stableOf (some i) false
            (p.lower.map fun d => (splitMkdir.lookup d "k").1) := by
  have live : splitMount.SlotsLive :=
    (World.build_slotsLive [] [] (by decide) : (World.build splitInodes [] []).SlotsLive).of_inodes rfl
  have done : exec (fun _ _ _ => none) (fun _ _ => .ok []) splitMount (.createDirectory 0 "k") =
      (.ok (), splitMkdir) := Prod.ext (by decide) rfl
  have creates : (Op.createDirectory 0 "k").creates = some (0, "k") := rfl
  exact ⟨splitMount_reach.invariant, live, creates, rfl, done,
    exec_create_shows _ _ splitMount_reach.invariant live creates rfl done⟩

end ContainerFs.Fs
