import ContainerFs.Fs.Revalidate
import ContainerFs.Fs.Shown

/-! What a rename that succeeds does to the upper layer: the renamed Dirent's own upper counterpart
is moved to the new name (`exec_rename_moves`), and an old name that gets a whiteout looks up as
absent under the old parent (`exec_rename_hides`). -/

set_option autoImplicit false

namespace ContainerFs.Fs

namespace World

/-- Every name bound in a backing directory of `w` is bound alike in `w'`. -/
def KeepsBound (w w' : World) : Prop :=
  ∀ dir n i, w.slot dir n = some (.bound i) → w'.slot dir n = some (.bound i)

/-- Dirent `d`'s upper counterpart, if any, is bound under `name` in `p`'s. -/
def InStep (w : World) (d p : DirentId) (name : String) : Prop :=
  ∀ u, w.upperOf d = some u → ∃ pu, w.upperOf p = some pu ∧ w.slot pu name = some (.bound u)

variable {w w' w'' : World}

theorem KeepsBound.refl (w : World) : w.KeepsBound w := fun _ _ _ => id

theorem KeepsBound.trans (h : w.KeepsBound w') (h' : w'.KeepsBound w'') : w.KeepsBound w'' :=
  fun dir n i bound => h' dir n i (h dir n i bound)

theorem KeepsBound.of_inodes (same : w'.inodes = w.inodes) : w.KeepsBound w' :=
  fun _ _ _ bound => by rwa [slot_congr same]

theorem Evolves.upperOf_eq (h : w.Evolves w') {d : DirentId} {u : Ino}
    (hu : w.upperOf d = some u) : w'.upperOf d = some u := by
  simp only [upperOf, Option.bind_eq_some] at hu ⊢
  obtain ⟨dd, hd, o, he, hou⟩ := hu
  obtain ⟨o', he', c⟩ := h.entries dd.entry o he
  rcases c with rfl | ⟨none, -⟩
  · exact ⟨dd, h.dirents ▸ hd, _, he', hou⟩
  · simp [hou] at none

theorem InStep.keep {d p : DirentId} {name : String} (h : w.InStep d p name) (ev : w.Evolves w')
    (kb : w.KeepsBound w') (has : (w.upperOf d).isSome) : w'.InStep d p name := by
  obtain ⟨u, hu⟩ := Option.isSome_iff_exists.mp has
  obtain ⟨pu, hpu, bound⟩ := h u hu
  intro u' hu'
  obtain rfl : u = u' := Option.some.inj ((ev.upperOf_eq hu).symm.trans hu')
  exact ⟨pu, ev.upperOf_eq hpu, kb _ _ _ bound⟩

theorem keepsBound_mknod (ok : w.BackingOk) {dir i : Ino} {name : String} {t : InodeType}
    {target : String} {ep : Option Nat} (made : w.mknod dir name t target ep = .ok (i, w')) :
    w.KeepsBound w' := by
  unfold mknod at made
  rcases hl : w.live dir with e | b <;> simp only [hl] at made
  · cases made
  split at made
  · cases made
  split at made
  · cases made
  rename_i unbound
  obtain ⟨rfl, rfl⟩ := Prod.mk.inj (Except.ok.inj made)
  intro d n j bound
  have fresh : w.inodes ⟨dir.layer, w.nextIno⟩ = none := ok.fresh _ le_rfl
  have ne : d ≠ ⟨dir.layer, w.nextIno⟩ := by rintro rfl; simp [slot, fresh] at bound
  simp only [slot, Option.bind_eq_some] at bound
  obtain ⟨bd, hbd, hget⟩ := bound
  by_cases same : d = dir
  · subst same
    obtain rfl : bd = b := Option.some.inj (hbd.symm.trans (live_ok hl))
    have other : name ≠ n := by rintro rfl; exact unbound j hget
    simp [slot, Function.update_noteq ne, hget, other]
  · simp [slot, Function.update_noteq ne, Function.update_noteq same, hbd, hget]

theorem keepsBound_copyUpObject (ok : w.BackingOk) {dir l u : Ino} {name : String}
    (made : copyUpObject w dir name l = .ok (u, w')) : w.KeepsBound w' := by
  obtain ⟨b, t, w1, -, -, mk, rfl⟩ := copyUpObject_ok made
  refine (keepsBound_mknod ok mk).trans fun d n j bound => ?_
  unfold World.modify
  split
  · rename_i c hc
    by_cases same : d = u
    · subst same
      simpa [slot, hc] using bound
    · simpa [slot, Function.update_noteq same] using bound
  · exact bound

theorem keepsBound_doCopyUp (ok : w.BackingOk) (x : DirentId) : w.KeepsBound (doCopyUp w x).2 := by
  rcases doCopyUp_cases (w := w) x with ⟨same, -⟩ | ⟨_, _, _, _, _, _, -, -, -, -, -, made, -,
    inodes, -⟩
  · rw [same]; exact .refl w
  · exact (keepsBound_copyUpObject ok made).trans (.of_inodes inodes)

theorem InStep.of_sameContent {d p : DirentId} {name : String} (h : w.InStep d p name)
    (same : w.SameContent w') : w'.InStep d p name := by
  have up : w'.upperOf = w.upperOf := by funext x; simp only [upperOf, same.entries, same.dirents]
  intro u hu
  obtain ⟨pu, hpu, bound⟩ := h u (up ▸ hu)
  exact ⟨pu, up ▸ hpu, (same.slot_eq pu name).trans bound⟩

theorem rename_moves {oldDir newDir c : Ino} {oldName newName : String} {replacement : Bool}
    (made : w.rename oldDir oldName newDir newName replacement = .ok w')
    (bound : w.slot oldDir oldName = some (.bound c)) :
    w'.slot newDir newName = some (.bound c) ∧
      ((oldDir, oldName) ≠ (newDir, newName) → w'.slot oldDir oldName = none) ∧
      w'.entries = w.entries ∧ w'.dirents = w.dirents := by
  obtain ⟨bo, bn, c', ho, hn, -, hc, rfl⟩ := rename_spec made
  obtain rfl : c' = c := by simpa [slot, ho, hc] using bound
  refine ⟨?_, fun ne => ?_, by simp [move], by simp [move]⟩
  · unfold move modify
    rcases ho : w.inodes oldDir with _ | bo
    · simp [hn, slot]
    · by_cases same : newDir = oldDir
      · subst same; simp [slot, ho]
      · simp [slot, Function.update_noteq same, hn]
  · unfold move modify
    by_cases same : oldDir = newDir
    · subst same
      have other : newName ≠ oldName := fun h => ne (by rw [h])
      simp [slot, ho, other]
    · simp [slot, Function.update_noteq same, Function.update_noteq (Ne.symm same), ho, hn]

theorem overlayCreateWhiteout_ok {dir : Ino} {name : String}
    (made : overlayCreateWhiteout w dir name = .ok w') :
    overlayHasWhiteout w' dir name = true ∧ w'.slot = w.slot ∧ w'.entries = w.entries ∧
      w'.dirents = w.dirents := by
  unfold overlayCreateWhiteout setxattr at made
  rcases hl : w.live dir with e | b <;> simp only [hl, Except.map] at made
  · cases made
  obtain rfl := Except.ok.inj made
  have hb := live_ok hl
  have nf : b.fault = none := by
    unfold live at hl; simp only [hb] at hl; split at hl <;> simp_all
  refine ⟨by simp [overlayHasWhiteout, getxattr, live, nf], funext fun d => funext fun n => ?_, rfl,
    rfl⟩
  by_cases same : d = dir
  · subst same; simp [slot, hb]
  · simp [slot, Function.update_noteq same]

end World

open World

section Copy
variable {w w1 : World}

theorem keepsBound_copyUp (inv : w.Invariant) (d : DirentId) : w.KeepsBound (copyUp w d).2 :=
  copyUpLockedForRename_keeps KeepsBound KeepsBound.refl (fun h h' => h.trans h')
    (fun _ x inv => keepsBound_doCopyUp inv.backing x) _ w d inv

theorem copyUp_inStep (inv : w.Invariant) {d p : DirentId} {dd : Dirent}
    (hd : w.dirents d = some dd) (hp : dd.parent = some p) (h : w.InStep d p dd.name)
    (done : copyUp w d = (.ok (), w1)) : w1.InStep d p dd.name ∧ (w1.upperOf d).isSome := by
  rcases hu : w.upperOf d with _ | u
  swap
  · rw [copyUp_of_upper hu done]; exact ⟨h, by simp [hu]⟩
  obtain ⟨e, he⟩ := Option.isSome_iff_exists.mp (inv.direntEntry d dd hd)
  have eu : e.upper = none := by simpa [upperOf, hd, he] using hu
  obtain ⟨l, hl⟩ := Option.isSome_iff_exists.mp
    (((inv.wellFormed _ e he).hasLayer).resolve_left (by simp [eu]))
  obtain ⟨gp, wa, pu, c, w0, hgp, eva, -, hpu, made, inodes, dirents, entries⟩ :=
    copyUpLockedForRename_last inv hd he eu hl done
  obtain rfl : p = gp := Option.some.inj (hp.symm.trans hgp)
  obtain ⟨-, -, -, -, -, -, -, bound, -, entries0, dirents0⟩ := copyUpObject_made eva.backing made
  -- the parent is not the Dirent itself, so its entry is not the one the copy is installed on
  have ne : p ≠ d := fun same =>
    copyUpLockedForRename_acyclic hd hu hp _ _ done (by rw [same]; exact .refl d)
  obtain ⟨pd, hpd⟩ := Option.isSome_iff_exists.mp (inv.parentLive d dd p hd hp)
  have entry_ne : pd.entry ≠ dd.entry := fun same => ne (inv.entryOwner p d pd dd hpd hd same)
  have up1 : w1.upperOf d = some c := by
    simp [upperOf, dirents, dirents0, eva.dirents, hd, entries]
  have pu1 : w1.upperOf p = some pu := by
    rw [← hpu]
    simp only [upperOf, dirents, dirents0, eva.dirents, hpd, Option.some_bind, entries,
      Function.update_noteq entry_ne, entries0]
  refine ⟨fun u' hu' => ?_, by simp [up1]⟩
  obtain rfl : c = u' := Option.some.inj (up1.symm.trans hu')
  exact ⟨pu, pu1, by rw [slot_congr inodes]; exact bound⟩

end Copy

/-! ## The rename -/

section Rename
variable (check : EntryCheck) (readdirOne : World → OverlayEntry → Except Errno (List String))
  {w W w' : World}

theorem sameContent_renameReplaced (newParent : DirentId) (newName : String) (replacement : Bool) :
    w.SameContent (renameReplaced check readdirOne w newParent newName replacement).2 := by
  unfold renameReplaced
  cases replacement
  · exact .of_holds rfl
  rcases hd : w.dirents newParent with _ | np
  · simp only [hd]; exact .of_holds rfl
  have looked := sameContent_overlayLookup check newName (w := w) np.entry
  have drop : ∀ w1 f, w.SameContent w1 → w.SameContent (dropFound w1 f) := by
    intro w1 f h
    cases f
    · exact h
    · exact (h.trans (sameContent_releaseSome _)).trans (sameContent_releaseSome _)
  simp only [hd, Bool.not_true, Bool.false_eq_true, if_false]
  revert looked
  generalize overlayLookup check w np.entry newName = x
  rcases x with ⟨_ | e | why, w1⟩ <;> intro looked <;> dsimp only at looked ⊢
  · rename_i r
    rcases r with ⟨_ | ⟨e, stable⟩, inUpper⟩
    · exact looked
    · dsimp only
      split
      · split
        · exact drop w1 (.positive e stable) looked
        · split <;> exact drop w1 (.positive e stable) looked
      · exact drop w1 (.positive e stable) looked
  · split <;> exact looked
  · exact looked

theorem overlayRename_moves (inv : w.Invariant) {oldParent renamed newParent : DirentId}
    {newName : String} {replacement : Bool} {rd : Dirent} {re : OverlayEntry}
    (hr : w.dirents renamed = some rd) (hp : rd.parent = some oldParent)
    (he : w.entries rd.entry = some re) (inStep : w.InStep renamed oldParent rd.name)
    (h : overlayRename check readdirOne w oldParent renamed newParent newName replacement =
      (.ok (), W)) :
    ∃ ou nu c, W.upperOf oldParent = some ou ∧ W.upperOf newParent = some nu ∧
      W.upperOf renamed = some c ∧ W.slot nu newName = some (.bound c) ∧
      ((ou, rd.name) ≠ (nu, newName) → W.slot ou rd.name = none) ∧
      (re.lowerExists = true → overlayHasWhiteout W ou rd.name = true) ∧ W.dirents = w.dirents := by
  have ev1 := evolves_renameReplaced check readdirOne inv newParent newName replacement
  have same1 := sameContent_renameReplaced check readdirOne (w := w) newParent newName replacement
  unfold overlayRename at h
  revert h ev1 same1
  generalize renameReplaced check readdirOne w newParent newName replacement = x
  rcases x with ⟨repl | _ | _, w1⟩ <;> intro h ev1 same1
  rotate_left
  · cases h
  · cases h
  -- the two copy-ups leave the renamed Dirent's copy bound under its name in the old parent
  have inv1 := ev1.invariant inv
  obtain ⟨w2, cu2, h⟩ := afterCopyUp_ok h
  obtain ⟨ev2, -⟩ := copyUp_ok inv1 cu2
  obtain ⟨w3, cu3, h⟩ := afterCopyUp_ok h
  obtain ⟨ev3, up3⟩ := copyUp_ok (ev2.invariant inv1) cu3
  have inv3 := ev3.invariant (ev2.invariant inv1)
  have hr1 : w1.dirents renamed = some rd := same1.dirents ▸ hr
  obtain ⟨step2, has2⟩ := copyUp_inStep inv1 hr1 hp (inStep.of_sameContent same1) cu2
  have kept : w2.KeepsBound w3 := by simpa only [cu3] using keepsBound_copyUp (ev2.invariant inv1) newParent
  obtain ⟨c, hc⟩ := Option.isSome_iff_exists.mp (ev3.upperOf_isSome has2)
  obtain ⟨ou, ho3, bound3⟩ := step2.keep ev3 kept has2 c hc
  obtain ⟨nu, hn3⟩ := Option.isSome_iff_exists.mp up3
  have hr3 : w3.dirents renamed = some rd := by rw [ev3.dirents, ev2.dirents]; exact hr1
  simp only [hr3, ho3, hn3] at h
  -- the upper `Rename`
  rcases made : w3.rename ou rd.name nu newName repl with e | w4 <;> simp only [made] at h
  · cases h
  obtain ⟨new4, old4, entries4, dirents4⟩ := World.rename_moves made bound3
  have up4 : w4.upperOf = w3.upperOf := by funext x; simp only [upperOf, entries4, dirents4]
  have ev := ev1.trans (ev2.trans ev3)
  obtain ⟨re3, he3, copied⟩ := ev.entries rd.entry re he
  simp only [entries4, he3] at h
  have tree : w4.dirents = w.dirents := by rw [dirents4, ev.dirents]
  split at h
  · -- the whiteout of the old name
    rename_i lower
    obtain ⟨white, slots, entries5, dirents5⟩ := World.overlayCreateWhiteout_ok (stepOf_ok h)
    have up5 : W.upperOf = w3.upperOf := by
      rw [← up4]; funext x; simp only [upperOf, entries5, dirents5]
    exact ⟨ou, nu, c, up5 ▸ ho3, up5 ▸ hn3, up5 ▸ hc, slots ▸ new4, fun ne => slots ▸ old4 ne,
      fun _ => white, dirents5.trans tree⟩
  · rename_i noLower
    obtain ⟨-, rfl⟩ := Prod.mk.inj h
    refine ⟨ou, nu, c, up4 ▸ ho3, up4 ▸ hn3, up4 ▸ hc, new4, old4, fun le => ?_, tree⟩
    exact absurd (copied.lowerExists_eq.trans le) noLower

theorem exec_rename_ok {renamed newParent : DirentId} {newName : String} {replacement : Bool}
    {rd : Dirent} {oldParent : DirentId} (hr : w.dirents renamed = some rd)
    (hp : rd.parent = some oldParent)
    (done : exec check readdirOne w (.rename renamed newParent newName replacement) = (.ok (), w')) :
    ∃ W, overlayRename check readdirOne w oldParent renamed newParent newName replacement =
      (.ok (), W) ∧ w' = W.moveDirent renamed newParent newName := by
  simp only [exec, hr, hp] at done
  rcases hx : overlayRename check readdirOne w oldParent renamed newParent newName replacement with
    ⟨_ | _ | _, W⟩ <;> simp only [hx] at done
  rotate_left
  · cases done
  · cases done
  exact ⟨W, rfl, (Prod.mk.inj done).2.symm⟩

/-- A successful rename moves the upper binding and whites out a lower-backed old name. -/
theorem exec_rename_moves (inv : w.Invariant) {renamed newParent : DirentId} {newName : String}
    {replacement : Bool} {rd : Dirent} {oldParent : DirentId} {re : OverlayEntry}
    (hr : w.dirents renamed = some rd) (hp : rd.parent = some oldParent)
    (he : w.entries rd.entry = some re) (inStep : w.InStep renamed oldParent rd.name)
    (done : exec check readdirOne w (.rename renamed newParent newName replacement) = (.ok (), w')) :
    ∃ ou nu c, w'.upperOf oldParent = some ou ∧ w'.upperOf newParent = some nu ∧
      w'.upperOf renamed = some c ∧ w'.slot nu newName = some (.bound c) ∧
      ((ou, rd.name) ≠ (nu, newName) → w'.slot ou rd.name = none) ∧
      (re.lowerExists = true → overlayHasWhiteout w' ou rd.name = true) ∧
      w'.dirents renamed = some { rd with parent := some newParent, name := newName } := by
  obtain ⟨W, hx, rfl⟩ := exec_rename_ok check readdirOne hr hp done
  obtain ⟨ou, nu, c, ho, hn, hc, new, old, white, tree⟩ :=
    overlayRename_moves check readdirOne inv hr hp he inStep hx
  have moved : (W.moveDirent renamed newParent newName).inodes = W.inodes := moveDirent_inodes
  have slots := slot_congr moved
  have whiteouts := overlayHasWhiteout_congr (w := W) moved
  refine ⟨ou, nu, c, by simpa using ho, by simpa using hn, by simpa using hc, slots ▸ new,
    fun ne => slots ▸ old ne, fun le => whiteouts ▸ white le, ?_⟩
  simp [World.moveDirent, tree, hr]


theorem overlayLookup_whited {parent : EntryId} {p : OverlayEntry} {pu : Ino} {name : String}
    (found : W.entries parent = some p) (hu : p.upper = some pu) (erased : W.slot pu name = none)
    (whited : overlayHasWhiteout W pu name = true) :
    (overlayLookup check W parent name).1 = .err .ENOENT := by
  have same : (W.acquire (.reader parent)).inodes = W.inodes := rfl
  rw [overlayLookup_fst W name parent p found (by simp [hu]),
    overlayLookupLocked_fst _ name p fun dir u h bound => by
      obtain rfl : pu = dir := Option.some.inj (hu.symm.trans h)
      rw [slot_congr same, erased] at bound
      cases bound]
  simp only [hu, World.lookup_fst_congr same, upperStep_erased erased,
    overlayHasWhiteout_congr W same, whited, if_true, whiteoutOutcome]
  rfl

/-- After a successful rename the lower object never comes back under the old name. -/
theorem exec_rename_hides (inv : w.Invariant) {renamed newParent : DirentId} {newName : String}
    {replacement : Bool} {rd : Dirent} {oldParent : DirentId} {re : OverlayEntry}
    (hr : w.dirents renamed = some rd) (hp : rd.parent = some oldParent)
    (he : w.entries rd.entry = some re) (inStep : w.InStep renamed oldParent rd.name)
    (lower : re.lowerExists = true)
    (done : exec check readdirOne w (.rename renamed newParent newName replacement) = (.ok (), w')) :
    ∃ ou nu pd, w'.upperOf oldParent = some ou ∧ w'.upperOf newParent = some nu ∧
      w'.dirents oldParent = some pd ∧
      ((ou, rd.name) ≠ (nu, newName) → (overlayLookup check w' pd.entry rd.name).1 = .err .ENOENT) := by
  obtain ⟨W, hx, rfl⟩ := exec_rename_ok check readdirOne hr hp done
  obtain ⟨ou, nu, -, ho, hn, -, -, old, white, -⟩ :=
    overlayRename_moves check readdirOne inv hr hp he inStep hx
  have moved : (W.moveDirent renamed newParent newName).inodes = W.inodes := moveDirent_inodes
  have ho' : (W.moveDirent renamed newParent newName).upperOf oldParent = some ou := by simpa using ho
  have parent := ho'
  simp only [upperOf, Option.bind_eq_some] at parent
  obtain ⟨pd, hpd, p, hpe, hpu⟩ := parent
  refine ⟨ou, nu, pd, ho', by simpa using hn, hpd, fun ne => ?_⟩
  exact overlayLookup_whited check hpe hpu (slot_congr moved ▸ old ne)
    (overlayHasWhiteout_congr (w := W) moved ▸ white lower)

end Rename

def splitLooked : World :=
  (exec (fun _ _ _ => none) (fun _ _ => .ok [])
    (exec (fun _ _ _ => none) (fun _ _ => .ok []) splitMount (.lookup 0 "m")).2 (.lookup 0 "n")).2

theorem splitLooked_renames :
    splitLooked.Invariant ∧ splitLooked.dirents 1 = some ⟨"m", some 0, 1, ⟨.directory, 0, 1⟩⟩ ∧
      splitLooked.entries 1 = some ⟨some ⟨.upper, 1⟩, some ⟨.lower, 1⟩, true⟩ ∧
      splitLooked.InStep 1 0 "m" ∧
      exec (fun _ _ _ => none) (fun _ _ => .ok []) splitLooked (.rename 1 2 "m" false) =
        (.ok (), splitRenamed) := by
  refine ⟨(Reach.step _ (.step _ splitMount_reach (by decide)) (by decide)).invariant, by decide,
    by decide, fun u hu => ?_, Prod.ext (by decide) rfl⟩
  have up : splitLooked.upperOf 1 = some ⟨.upper, 1⟩ := by decide
  obtain rfl := Option.some.inj (up.symm.trans hu)
  exact ⟨⟨.upper, 0⟩, by decide, by decide⟩

theorem exec_rename_moves_split :
    splitLooked.Invariant ∧ splitLooked.dirents 1 = some ⟨"m", some 0, 1, ⟨.directory, 0, 1⟩⟩ ∧
      (⟨"m", some 0, 1, ⟨.directory, 0, 1⟩⟩ : Dirent).parent = some 0 ∧
      splitLooked.entries 1 = some ⟨some ⟨.upper, 1⟩, some ⟨.lower, 1⟩, true⟩ ∧
      splitLooked.InStep 1 0 "m" ∧
      exec (fun _ _ _ => none) (fun _ _ => .ok []) splitLooked (.rename 1 2 "m" false) =
        (.ok (), splitRenamed) ∧
      ∃ ou nu c, splitRenamed.upperOf 0 = some ou ∧ splitRenamed.upperOf 2 = some nu ∧
        splitRenamed.upperOf 1 = some c ∧ splitRenamed.slot nu "m" = some (.bound c) ∧
        ((ou, "m") ≠ (nu, "m") → splitRenamed.slot ou "m" = none) ∧
        (true = true → overlayHasWhiteout splitRenamed ou "m" = true) ∧
        splitRenamed.dirents 1 = some ⟨"m", some 2, 1, ⟨.directory, 0, 1⟩⟩ := by
  obtain ⟨inv, hr, he, inStep, done⟩ := splitLooked_renames
  exact ⟨inv, hr, rfl, he, inStep, done, exec_rename_moves _ _ inv hr rfl he inStep done⟩

theorem exec_rename_hides_split :
    splitLooked.Invariant ∧ splitLooked.dirents 1 = some ⟨"m", some 0, 1, ⟨.directory, 0, 1⟩⟩ ∧
      (⟨"m", some 0, 1, ⟨.directory, 0, 1⟩⟩ : Dirent).parent = some 0 ∧
      splitLooked.entries 1 = some ⟨some ⟨.upper, 1⟩, some ⟨.lower, 1⟩, true⟩ ∧
      splitLooked.InStep 1 0 "m" ∧ (⟨some ⟨.upper, 1⟩, some ⟨.lower, 1⟩, true⟩ : OverlayEntry).lowerExists = true ∧
      exec (fun _ _ _ => none) (fun _ _ => .ok []) splitLooked (.rename 1 2 "m" false) =
        (.ok (), splitRenamed) ∧
      ∃ ou nu pd, splitRenamed.upperOf 0 = some ou ∧ splitRenamed.upperOf 2 = some nu ∧
        splitRenamed.dirents 0 = some pd ∧
        ((ou, "m") ≠ (nu, "m") →
          (overlayLookup (fun _ _ _ => none) splitRenamed pd.entry "m").1 = .err .ENOENT) := by
  obtain ⟨inv, hr, he, inStep, done⟩ := splitLooked_renames
  exact ⟨inv, hr, rfl, he, inStep, rfl, done, exec_rename_hides _ _ inv hr rfl he inStep rfl done⟩

end ContainerFs.Fs
