import ContainerFs.Fs.Safety

/-! Progress of the overlay mount: from every reachable state an operation on Dirents of the tree
ends in a value or an error, never in a panic (`reach_exec_no_panic`). Beyond the invariant this
needs `Climbs`: the copy-up climb from every Dirent meets an upper counterpart within its fuel. -/

set_option autoImplicit false

namespace ContainerFs.Fs

/-- The Dirents an operation is handed; the kernel holds each of them. -/
def Op.dirents : Op → List DirentId
  | .lookup parent _ | .create parent _ _ | .createDirectory parent _ | .createLink parent _ _
  | .createFifo parent _ | .bind parent _ _ => [parent]
  | .createHardLink parent target _ => [parent, target]
  | .remove child => [child]
  | .rename renamed newParent _ _ => [renamed, newParent]
  | .setPermissions d _ | .setOwner d _ | .setTimestamps d _ | .truncate d _ | .writeOut d
  | .write d _ _ => [d]

@[simp] theorem Outcome.isPanic_ofExcept {α : Type} (x : Except Errno α) :
    (Outcome.ofExcept x).isPanic = false := by
  cases x <;> rfl

theorem Outcome.isPanic_eq_false {α : Type} {o : Outcome α} (h : ∀ why, o ≠ .panic why) :
    o.isPanic = false := by
  cases o with
  | panic why => exact absurd rfl (h why)
  | _ => rfl

namespace World

/-- The climb of `copyUpLockedForRename` from `x` meets an upper counterpart in `n` rounds. -/
inductive ClimbsIn (w : World) : Nat → DirentId → Prop
  | upper {n : Nat} {x : DirentId} : (w.upperOf x).isSome → w.ClimbsIn (n + 1) x
  | step {n : Nat} {x p : DirentId} {dx : Dirent} : w.dirents x = some dx → w.upperOf x = none →
      dx.parent = some p → w.ClimbsIn n p → w.ClimbsIn (n + 1) x

/-- Every Dirent climbs to an upper counterpart on the fuel `copyUp` gives its walk. -/
def Climbs (w : World) : Prop :=
  ∀ x, (w.dirents x).isSome → w.ClimbsIn w.nextDirent x

variable {w w' : World}

theorem ClimbsIn.mono {m n : Nat} {x : DirentId} (climb : w.ClimbsIn m x) (le : m ≤ n) :
    w.ClimbsIn n x := by
  induction climb generalizing n with
  | upper has =>
    obtain ⟨k, rfl⟩ : ∃ k, n = k + 1 := ⟨n - 1, by omega⟩
    exact .upper has
  | step hx hu hp _ ih =>
    obtain ⟨k, rfl⟩ : ∃ k, n = k + 1 := ⟨n - 1, by omega⟩
    exact .step hx hu hp (ih (by omega))

theorem ClimbsIn.evolves (ev : w.Evolves w') {n : Nat} {x : DirentId} (climb : w.ClimbsIn n x) :
    w'.ClimbsIn n x := by
  induction climb with
  | upper has => exact .upper (ev.upperOf_isSome has)
  | @step n x p dx hx _ hp _ ih =>
    cases hu : w'.upperOf x with
    | none => exact .step (ev.dirents ▸ hx) hu hp ih
    | some u => exact .upper (by simp [hu])

theorem Climbs.evolves (cl : w.Climbs) (ev : w.Evolves w') : w'.Climbs := fun x live => by
  rw [ev.nextDirent]
  exact (cl x (ev.dirents ▸ live)).evolves ev

section Attach
variable {parent : DirentId} {name : String} {e : OverlayEntry} {s : StableAttr}

theorem ClimbsIn.attach (inv : w.Invariant) {n : Nat} {x : DirentId} (climb : w.ClimbsIn n x) :
    (w.attach parent name e s).ClimbsIn n x := by
  induction climb with
  | upper has =>
    exact .upper (by rwa [inv.upperOf_attach (inv.dirent_ne (isSome_dirents_of_upperOf has))])
  | @step n x p dx hx hu hp _ ih =>
    have old : x ≠ w.nextDirent := inv.dirent_ne (by simp [hx])
    refine .step ?_ (by rwa [inv.upperOf_attach old]) hp ih
    rw [attach_dirents, Function.update_noteq old, hx]

theorem Climbs.attach (inv : w.Invariant) (cl : w.Climbs) (live : (w.dirents parent).isSome) :
    (w.attach parent name e s).Climbs := by
  intro x hx
  rw [attach_nextDirent]
  by_cases fresh : x = w.nextDirent
  · subst fresh
    have cached : (w.attach parent name e s).dirents w.nextDirent =
        some ⟨name, some parent, w.nextEntry, s⟩ := by simp
    cases hu : (w.attach parent name e s).upperOf w.nextDirent with
    | some u => exact .upper (by simp [hu])
    | none => exact .step cached hu rfl ((cl parent live).attach inv)
  · have old : (w.dirents x).isSome := by rwa [attach_dirents, Function.update_noteq fresh] at hx
    exact ((cl x old).attach inv).mono (Nat.le_succ _)

end Attach

section Move
variable {d newParent : DirentId} {newName : String}

theorem moveDirent_dirents_ne {x : DirentId} (ne : x ≠ d) :
    (w.moveDirent d newParent newName).dirents x = w.dirents x := by
  unfold moveDirent
  split
  · rw [setDirent_dirents, Function.update_noteq ne]
  · rfl

theorem ClimbsIn.moveDirent (up : (w.upperOf d).isSome) {n : Nat} {x : DirentId}
    (climb : w.ClimbsIn n x) : (w.moveDirent d newParent newName).ClimbsIn n x := by
  induction climb with
  | upper has => exact .upper (by simpa using has)
  | @step n x p dx hx hu hp _ ih =>
    have ne : x ≠ d := by rintro rfl; simp [hu] at up
    exact .step ((moveDirent_dirents_ne ne).trans hx) ((upperOf_moveDirent x).trans hu) hp ih

theorem Climbs.moveDirent (cl : w.Climbs) (up : (w.upperOf d).isSome) :
    (w.moveDirent d newParent newName).Climbs := by
  intro x hx
  obtain ⟨dx, hx⟩ := Option.isSome_iff_exists.mp hx
  obtain ⟨dx0, h0, -⟩ := dirents_moveDirent hx
  rw [moveDirent_nextDirent]
  exact (cl x (by simp [h0])).moveDirent up

end Move

/-- What one operation does to the Dirent tree: cache a Dirent, move one, or nothing. -/
inductive ExecStep (w : World) : World → Prop
  | evolve {w' : World} : w.Evolves w' → w.ExecStep w'
  | attach {w' : World} {parent : DirentId} (name : String) (e : OverlayEntry) (s : StableAttr) :
      w.Evolves w' → (w'.dirents parent).isSome → w.ExecStep (w'.attach parent name e s)
  | move {w' : World} {d : DirentId} (newParent : DirentId) (newName : String) :
      w.Evolves w' → (w'.upperOf d).isSome → w.ExecStep (w'.moveDirent d newParent newName)

theorem ExecStep.climbs (inv : w.Invariant) (cl : w.Climbs) (h : w.ExecStep w') : w'.Climbs := by
  cases h with
  | evolve ev => exact cl.evolves ev
  | attach name e s ev live => exact (cl.evolves ev).attach (ev.invariant inv) live
  | move newParent newName ev up => exact (cl.evolves ev).moveDirent up

end World

open World

section Progress
variable (check : EntryCheck) (readdirOne : World → OverlayEntry → Except Errno (List String))
  {w : World}

theorem exec_step (inv : w.Invariant) (op : Op) : w.ExecStep (exec check readdirOne w op).2 := by
  cases op with
  | lookup parent name =>
    simp only [exec]
    rcases hp : w.dirents parent with _ | pd
    · exact .evolve (.refl inv.backing)
    have ch := upperChange_overlayLookup check name inv.backing pd.entry (inv.upperLayer pd.entry)
    simp only
    revert ch
    generalize overlayLookup check w pd.entry name = x
    rcases x with ⟨⟨_ | ⟨e, s⟩, b⟩ | _ | _, w1⟩ <;> intro ch
    · exact .evolve ch.evolves
    · exact .attach name e s ch.evolves (by rw [ch.dirents, hp]; rfl)
    · exact .evolve ch.evolves
    · exact .evolve ch.evolves
  | create parent name flags =>
    have ev := evolves_overlayCreate check inv parent name flags
    simp only [exec]
    revert ev
    generalize hx : overlayCreate check w parent name flags = x
    rcases x with ⟨⟨n, f⟩ | _ | _, w1⟩ <;> intro ev
    · obtain ⟨-, -, -, up⟩ := overlayCreate_ok check inv hx
      exact .attach name n.entry n.stable ev (isSome_dirents_of_upperOf up)
    · exact .evolve ev
    · exact .evolve ev
  | createDirectory parent name => exact .evolve (evolves_overlayCreateDirectory inv parent name)
  | createLink parent oldname newname =>
    exact .evolve (evolves_overlayCreateLink inv parent oldname newname)
  | createHardLink parent target name =>
    exact .evolve (evolves_overlayCreateHardLink inv parent target name)
  | createFifo parent name => exact .evolve (evolves_overlayCreateFifo inv parent name)
  | bind parent name data =>
    simp only [exec]
    rcases hp : w.dirents parent with _ | pd
    · exact .evolve (.refl inv.backing)
    obtain ⟨p, found⟩ := Option.isSome_iff_exists.mp (inv.direntEntry parent pd hp)
    have ev := evolves_overlayBind check inv pd.entry name data
    simp only
    revert ev
    generalize hx : overlayBind check w pd.entry name data = x
    rcases x with ⟨n | _ | _, w1⟩ <;> intro ev
    · obtain ⟨-, -, -, -, -, dirents⟩ := overlayBind_ok check inv found hx
      exact .attach name n.entry n.stable ev (by rw [dirents, hp]; rfl)
    · exact .evolve ev
    · exact .evolve ev
  | remove child =>
    simp only [exec]
    rcases hc : w.dirents child with _ | cd <;> simp only [hc]
    · exact .evolve (.refl inv.backing)
    rcases hq : cd.parent with _ | parent <;> simp only [hq]
    · exact .evolve (.refl inv.backing)
    · exact .evolve (evolves_overlayRemove inv parent child)
  | rename renamed newParent newName replacement =>
    simp only [exec]
    rcases hr : w.dirents renamed with _ | rd <;> simp only [hr]
    · exact .evolve (.refl inv.backing)
    rcases hq : rd.parent with _ | oldParent <;> simp only [hq]
    · exact .evolve (.refl inv.backing)
    have ev := evolves_overlayRename check readdirOne inv oldParent renamed newParent newName
      replacement
    revert ev
    generalize hx : overlayRename check readdirOne w oldParent renamed newParent newName
      replacement = x
    rcases x with ⟨_ | _ | _, w1⟩ <;> intro ev
    · exact .move newParent newName ev (overlayRename_ok check readdirOne inv hx).1
    · exact .evolve ev
    · exact .evolve ev
  | setPermissions d perms => exact .evolve (evolves_overlaySetPermissions inv d perms)
  | setOwner d owner => exact .evolve (evolves_overlaySetOwner inv d owner)
  | setTimestamps d mtime => exact .evolve (evolves_overlaySetTimestamps inv d mtime)
  | truncate d size => exact .evolve (evolves_overlayTruncate inv d size)
  | writeOut d =>
    simp only [exec]
    rcases w.dirents d with _ | dd
    · exact .evolve (.refl inv.backing)
    · exact .evolve (evolves_overlayWriteOut inv dd.entry)
  | write d flags bytes =>
    have ev := evolves_overlayGetFile inv d flags
    simp only [exec]
    revert ev
    generalize hx : overlayGetFile w d flags = x
    rcases x with ⟨f | _ | _, w1⟩ <;> intro ev
    · obtain ⟨flags_eq, upper⟩ := overlayGetFile_ok inv hx
      exact .evolve (ev.trans (evolves_write (ev.invariant inv) bytes (flags_eq ▸ upper)))
    · exact .evolve ev
    · exact .evolve ev

/-! ### Copy-up -/

theorem stepOf_no_panic (r : Except Errno World) : (stepOf w r).1.isPanic = false := by
  cases r <;> rfl

theorem withUpper_no_panic {α : Type} {d : DirentId} {k : Ino → Step α}
    (has : (w.upperOf d).isSome) (hk : ∀ u, w.upperOf d = some u → (k u).1.isPanic = false) :
    (withUpper w d k).1.isPanic = false := by
  obtain ⟨u, hu⟩ := Option.isSome_iff_exists.mp has
  simp only [withUpper, hu]
  exact hk u hu

theorem doCopyUp_no_panic (inv : w.Invariant) {d : DirentId} {dd : Dirent}
    (hd : w.dirents d = some dd) (up : (dd.parent.bind w.upperOf).isSome) :
    (doCopyUp w d).1.isPanic = false := by
  obtain ⟨e, he⟩ := Option.isSome_iff_exists.mp (inv.direntEntry d dd hd)
  obtain ⟨pu, hpu⟩ := Option.isSome_iff_exists.mp up
  have has := (inv.wellFormed _ e he).hasLayer
  rcases hu : e.upper with _ | u
  · rcases hl : e.lower with _ | l
    · simp [hu, hl] at has
    · simp only [doCopyUp, hd, he, hu, hl, hpu]
      split <;> rfl
  · simp only [doCopyUp, hd, he, hu]
    rfl

theorem copyUpLockedForRename_no_panic (inv : w.Invariant) {fuel : Nat} {d : DirentId}
    (climb : w.ClimbsIn fuel d) : (copyUpLockedForRename fuel w d).1.isPanic = false := by
  induction climb with
  | @upper n x has =>
    obtain ⟨dd, hd⟩ := Option.isSome_iff_exists.mp (isSome_dirents_of_upperOf has)
    obtain ⟨u, hu⟩ := Option.isSome_iff_exists.mp has
    simp only [copyUpLockedForRename, hd, hu]
    rfl
  | @step n x p dx hx hu hp _ ih =>
    have up : ∀ w1, copyUpLockedForRename n w p = (.ok (), w1) → (w1.upperOf p).isSome :=
      fun w1 => copyUpLockedForRename_upper n w w1 p
    have ev := evolves_copyUpLockedForRename n w p inv
    simp only [copyUpLockedForRename, hx, hu, hp]
    revert ih up ev
    generalize copyUpLockedForRename n w p = r
    rcases r with ⟨_ | _ | _, w1⟩ <;> intro ih up ev
    · exact doCopyUp_no_panic (ev.invariant inv) (ev.dirents ▸ hx) (by simpa [hp] using up w1 rfl)
    · rfl
    · exact ih

theorem copyUp_no_panic (inv : w.Invariant) (cl : w.Climbs) {d : DirentId}
    (live : (w.dirents d).isSome) : (copyUp w d).1.isPanic = false :=
  copyUpLockedForRename_no_panic inv (cl d live)

theorem afterCopyUp_no_panic {α : Type} (inv : w.Invariant) (cl : w.Climbs) {d : DirentId}
    (live : (w.dirents d).isSome) {k : World → Step α}
    (hk : ∀ w', w.Evolves w' → (w'.upperOf d).isSome → (k w').1.isPanic = false) :
    (afterCopyUp w d k).1.isPanic = false := by
  have ok : ∀ w', copyUp w d = (.ok (), w') → w.Evolves w' ∧ (w'.upperOf d).isSome :=
    fun _ h => copyUp_ok inv h
  have safe := copyUp_no_panic inv cl live
  unfold afterCopyUp
  revert ok safe
  generalize copyUp w d = r
  rcases r with ⟨_ | _ | _, w1⟩ <;> intro ok safe
  · exact hk w1 (ok w1 rfl).1 (ok w1 rfl).2
  · rfl
  · exact safe

/-! ### The operations -/

theorem newOverlayEntry_upper_ne_panic (i : Ino) (l : Option Ino) (le : Bool) (why : String) :
    newOverlayEntry check (some i) l le ≠ .panic why := by
  simp only [newOverlayEntry, reduceCtorEq, false_and, if_false]
  split <;> simp

theorem overlayCreate_no_panic (inv : w.Invariant) (cl : w.Climbs) {parent : DirentId}
    (live : (w.dirents parent).isSome) (name : String) (flags : FileFlags) :
    (overlayCreate check w parent name flags).1.isPanic = false :=
  afterCopyUp_no_panic inv cl live fun w1 _ up => withUpper_no_panic up fun ou _ => by
    rcases w1.create ou name with _ | ⟨i, w2⟩
    · rfl
    · dsimp only
      split
      · rfl
      · next why h => exact absurd h (newOverlayEntry_upper_ne_panic check i none false why)
      · rfl

theorem overlayCreateUpper_no_panic (inv : w.Invariant) (cl : w.Climbs) {parent : DirentId}
    (live : (w.dirents parent).isSome) (make : World → Ino → Except Errno World) :
    (overlayCreateUpper w parent make).1.isPanic = false :=
  afterCopyUp_no_panic inv cl live fun _ _ up => withUpper_no_panic up fun _ _ => stepOf_no_panic _

theorem overlayCreateHardLink_no_panic (inv : w.Invariant) (cl : w.Climbs) {parent target : DirentId}
    (liveParent : (w.dirents parent).isSome) (liveTarget : (w.dirents target).isSome)
    (name : String) : (overlayCreateHardLink w parent target name).1.isPanic = false :=
  afterCopyUp_no_panic inv cl liveParent fun _ ev1 up1 =>
    afterCopyUp_no_panic (ev1.invariant inv) (cl.evolves ev1) (ev1.dirents ▸ liveTarget)
      fun _ ev2 up2 => withUpper_no_panic (ev2.upperOf_isSome up1) fun _ _ =>
        withUpper_no_panic up2 fun _ _ => stepOf_no_panic _

theorem overlayBind_no_panic {o : EntryId} {oe : OverlayEntry} (found : w.entries o = some oe)
    (name : String) (data : Nat) : (overlayBind check w o name data).1.isPanic = false := by
  simp only [overlayBind, found]
  rcases hu : oe.upper with _ | ou <;> simp only [hu]
  · rfl
  rcases hb : (w.acquire (.reader o)).bind ou name data with _ | ⟨i, w2⟩ <;> simp only [hb]
  · rfl
  split
  · rfl
  · next why h => exact absurd h (newOverlayEntry_upper_ne_panic check i none false why)
  · rfl

theorem overlayRemoveLocked_no_panic (inv : w.Invariant) {parent : DirentId}
    (up : (w.upperOf parent).isSome) (cd : Dirent) (ce : OverlayEntry) :
    (overlayRemoveLocked w parent cd ce).1.isPanic = false := by
  obtain ⟨r, w1, hr, safe, ev⟩ : ∃ r w1,
      (if ce.upper.isSome then removeUpper w parent cd else (.ok (), w)) = (r, w1) ∧
        r.isPanic = false ∧ w.Evolves w1 := by
    split
    · exact ⟨_, _, rfl, withUpper_no_panic up fun _ _ => stepOf_no_panic _,
        evolves_removeUpper inv parent cd⟩
    · exact ⟨_, _, rfl, rfl, .refl inv.backing⟩
  unfold overlayRemoveLocked
  rw [hr]
  rcases r with _ | _ | _
  · dsimp only
    split
    · exact withUpper_no_panic (ev.upperOf_isSome up) fun _ _ => stepOf_no_panic _
    · rfl
  · rfl
  · exact safe

theorem overlayRemove_no_panic (inv : w.Invariant) (cl : w.Climbs) {parent child : DirentId}
    {cd : Dirent} (hc : w.dirents child = some cd) (hp : cd.parent = some parent) :
    (overlayRemove w parent child).1.isPanic = false :=
  afterCopyUp_no_panic inv cl (inv.parentLive child cd parent hc hp) fun w1 ev up => by
    have inv1 := ev.invariant inv
    have hc1 : w1.dirents child = some cd := ev.dirents ▸ hc
    obtain ⟨ce, he⟩ := Option.isSome_iff_exists.mp (inv1.direntEntry child cd hc1)
    have held := (Evolves.refl inv1.backing).acquire (.reader cd.entry)
    simp only [hc1, he]
    exact overlayRemoveLocked_no_panic (held.invariant inv1) (held.upperOf_isSome up) cd ce

theorem renameReplaced_no_panic (inv : w.Invariant) {newParent : DirentId}
    (live : (w.dirents newParent).isSome) (newName : String) (replacement : Bool) :
    (renameReplaced check readdirOne w newParent newName replacement).1.isPanic = false := by
  obtain ⟨np, hn⟩ := Option.isSome_iff_exists.mp live
  obtain ⟨p, found⟩ := Option.isSome_iff_exists.mp (inv.direntEntry newParent np hn)
  have safe : ∀ why, (overlayLookup check w np.entry newName).1 ≠ .panic why :=
    overlayLookup_ne_panic w newName np.entry p found (inv.wellFormed _ p found).hasLayer
  cases replacement
  · rfl
  simp only [renameReplaced, hn, Bool.not_true, Bool.false_eq_true, if_false]
  revert safe
  generalize overlayLookup check w np.entry newName = x
  rcases x with ⟨⟨_ | ⟨e, s⟩, b⟩ | err | why, w1⟩ <;> intro safe
  · rfl
  · dsimp only
    split
    · split
      · rfl
      · split <;> rfl
    · rfl
  · dsimp only
    split <;> rfl
  · exact absurd rfl (safe why)

theorem overlayRename_no_panic (inv : w.Invariant) (cl : w.Climbs)
    {oldParent renamed newParent : DirentId} {rd : Dirent} (hr : w.dirents renamed = some rd)
    (hq : rd.parent = some oldParent) (liveNew : (w.dirents newParent).isSome) (newName : String)
    (replacement : Bool) :
    (overlayRename check readdirOne w oldParent renamed newParent newName replacement).1.isPanic =
      false := by
  have safe := renameReplaced_no_panic check readdirOne inv liveNew newName replacement
  have ev := evolves_renameReplaced check readdirOne inv newParent newName replacement
  unfold overlayRename
  revert safe ev
  generalize renameReplaced check readdirOne w newParent newName replacement = x
  rcases x with ⟨repl | _ | _, w1⟩ <;> intro safe ev
  · refine afterCopyUp_no_panic (ev.invariant inv) (cl.evolves ev) (by rw [ev.dirents, hr]; rfl)
      fun w2 ev2 up2 => afterCopyUp_no_panic ((ev.trans ev2).invariant inv)
        ((cl.evolves ev).evolves ev2) (by rw [ev2.dirents, ev.dirents]; exact liveNew)
        fun w3 ev3 up3 => ?_
    have inv3 := (ev.trans (ev2.trans ev3)).invariant inv
    have hr3 : w3.dirents renamed = some rd := by rw [ev3.dirents, ev2.dirents, ev.dirents, hr]
    obtain ⟨ou, ho⟩ := Option.isSome_iff_exists.mp
      (inv3.upperTree renamed rd oldParent hr3 hq (ev3.upperOf_isSome up2))
    obtain ⟨nu, hn⟩ := Option.isSome_iff_exists.mp up3
    obtain ⟨re, he⟩ := Option.isSome_iff_exists.mp (inv3.direntEntry renamed rd hr3)
    simp only [hr3, ho, hn]
    rcases made : w3.rename ou rd.name nu newName repl with _ | w4
    · rfl
    · have ch := upperChange_rename inv3.backing (inv3.upperOf_layer ho) (inv3.upperOf_layer hn) made
      simp only [ch.entries, he]
      split
      · exact stepOf_no_panic _
      · rfl
  · rfl
  · exact safe

theorem overlaySetPermissions_no_panic (inv : w.Invariant) (cl : w.Climbs) {d : DirentId}
    (live : (w.dirents d).isSome) (perms : Nat) :
    (overlaySetPermissions w d perms).1.isPanic = false := by
  have ok : ∀ w', copyUp w d = (.ok (), w') → (w'.upperOf d).isSome := fun _ h => (copyUp_ok inv h).2
  have safe := copyUp_no_panic inv cl live
  unfold overlaySetPermissions
  revert ok safe
  generalize copyUp w d = r
  rcases r with ⟨_ | _ | _, w1⟩ <;> intro ok safe
  · exact withUpper_no_panic (ok w1 rfl) fun _ _ => rfl
  · rfl
  · exact safe

theorem overlaySetAttr_no_panic (inv : w.Invariant) (cl : w.Climbs) {d : DirentId}
    (live : (w.dirents d).isSome) (set : World → Ino → Except Errno World) :
    (overlaySetAttr w d set).1.isPanic = false :=
  afterCopyUp_no_panic inv cl live fun _ _ up => withUpper_no_panic up fun _ _ => stepOf_no_panic _

theorem overlayWriteOut_no_panic {o : EntryId} {e : OverlayEntry} (found : w.entries o = some e) :
    (overlayWriteOut w o).1.isPanic = false := by
  simp only [overlayWriteOut, found]
  split <;> simp [Outcome.isPanic]

theorem overlayGetFile_no_panic (inv : w.Invariant) (cl : w.Climbs) {d : DirentId} {dd : Dirent}
    (hd : w.dirents d = some dd) (flags : FileFlags) :
    (overlayGetFile w d flags).1.isPanic = false := by
  unfold overlayGetFile
  split
  · exact afterCopyUp_no_panic inv cl (by simp [hd]) fun _ ev _ =>
      Outcome.isPanic_eq_false (overlayOpen_ne_panic (ev.invariant inv) (ev.dirents ▸ hd) flags)
  · exact Outcome.isPanic_eq_false (overlayOpen_ne_panic inv hd flags)

theorem exec_no_panic (inv : w.Invariant) (cl : w.Climbs) (op : Op)
    (live : ∀ d ∈ op.dirents, (w.dirents d).isSome) :
    (exec check readdirOne w op).1.isPanic = false := by
  cases op with
  | lookup parent name =>
    obtain ⟨pd, hp⟩ := Option.isSome_iff_exists.mp (live parent (by simp [Op.dirents]))
    obtain ⟨p, found⟩ := Option.isSome_iff_exists.mp (inv.direntEntry parent pd hp)
    have safe : ∀ why, (overlayLookup check w pd.entry name).1 ≠ .panic why :=
      overlayLookup_ne_panic w name pd.entry p found (inv.wellFormed _ p found).hasLayer
    simp only [exec, hp]
    revert safe
    generalize overlayLookup check w pd.entry name = x
    rcases x with ⟨⟨_ | ⟨e, s⟩, b⟩ | _ | why, w1⟩ <;> intro safe
    · rfl
    · rfl
    · rfl
    · exact absurd rfl (safe why)
  | create parent name flags =>
    have safe := overlayCreate_no_panic check inv cl (live parent (by simp [Op.dirents])) name flags
    simp only [exec]
    revert safe
    generalize overlayCreate check w parent name flags = x
    rcases x with ⟨_ | _ | _, w1⟩ <;> intro safe <;> first | rfl | exact safe
  | createDirectory parent name =>
    exact overlayCreateUpper_no_panic inv cl (live parent (by simp [Op.dirents])) _
  | createLink parent oldname newname =>
    exact overlayCreateUpper_no_panic inv cl (live parent (by simp [Op.dirents])) _
  | createHardLink parent target name =>
    exact overlayCreateHardLink_no_panic inv cl (live parent (by simp [Op.dirents]))
      (live target (by simp [Op.dirents])) name
  | createFifo parent name =>
    exact overlayCreateUpper_no_panic inv cl (live parent (by simp [Op.dirents])) _
  | bind parent name data =>
    obtain ⟨pd, hp⟩ := Option.isSome_iff_exists.mp (live parent (by simp [Op.dirents]))
    obtain ⟨p, found⟩ := Option.isSome_iff_exists.mp (inv.direntEntry parent pd hp)
    have safe := overlayBind_no_panic check found name data
    simp only [exec, hp]
    revert safe
    generalize overlayBind check w pd.entry name data = x
    rcases x with ⟨_ | _ | _, w1⟩ <;> intro safe <;> first | rfl | exact safe
  | remove child =>
    obtain ⟨cd, hc⟩ := Option.isSome_iff_exists.mp (live child (by simp [Op.dirents]))
    simp only [exec, hc]
    rcases hq : cd.parent with _ | parent
    · rfl
    · exact overlayRemove_no_panic inv cl hc hq
  | rename renamed newParent newName replacement =>
    obtain ⟨rd, hr⟩ := Option.isSome_iff_exists.mp (live renamed (by simp [Op.dirents]))
    have safe := fun oldParent (hq : rd.parent = some oldParent) =>
      overlayRename_no_panic check readdirOne inv cl hr hq (live newParent (by simp [Op.dirents]))
        newName replacement
    simp only [exec, hr]
    rcases hq : rd.parent with _ | oldParent
    · rfl
    have safe := safe oldParent hq
    dsimp only
    revert safe
    generalize overlayRename check readdirOne w oldParent renamed newParent newName replacement = x
    rcases x with ⟨_ | _ | _, w1⟩ <;> intro safe <;> first | rfl | exact safe
  | setPermissions d perms =>
    have safe := overlaySetPermissions_no_panic inv cl (live d (by simp [Op.dirents])) perms
    simp only [exec]
    revert safe
    generalize overlaySetPermissions w d perms = x
    rcases x with ⟨_ | _ | _, w1⟩ <;> intro safe <;> first | rfl | exact safe
  | setOwner d owner => exact overlaySetAttr_no_panic inv cl (live d (by simp [Op.dirents])) _
  | setTimestamps d mtime => exact overlaySetAttr_no_panic inv cl (live d (by simp [Op.dirents])) _
  | truncate d size => exact overlaySetAttr_no_panic inv cl (live d (by simp [Op.dirents])) _
  | writeOut d =>
    obtain ⟨dd, hd⟩ := Option.isSome_iff_exists.mp (live d (by simp [Op.dirents]))
    obtain ⟨e, found⟩ := Option.isSome_iff_exists.mp (inv.direntEntry d dd hd)
    simp only [exec, hd]
    exact overlayWriteOut_no_panic found
  | write d flags bytes =>
    obtain ⟨dd, hd⟩ := Option.isSome_iff_exists.mp (live d (by simp [Op.dirents]))
    have safe := overlayGetFile_no_panic inv cl hd flags
    simp only [exec]
    revert safe
    generalize overlayGetFile w d flags = x
    rcases x with ⟨_ | _ | _, w1⟩ <;> intro safe
    · exact stepOf_no_panic _
    · rfl
    · exact safe

end Progress

section Reach
variable {check : EntryCheck} {readdirOne : World → OverlayEntry → Except Errno (List String)}
  {w : World}

theorem Reach.climbs (r : Reach check readdirOne w) : w.Climbs := by
  induction r with
  | mount rootStable ok =>
    intro x hx
    obtain ⟨dd, hd⟩ := Option.isSome_iff_exists.mp hx
    obtain ⟨rfl, rfl⟩ := mount_dirents_eq_some hd
    exact .upper (n := 0) (by simp [upperOf, Fs.mount])
  | step op prev _ ih => exact (exec_step check readdirOne prev.invariant op).climbs prev.invariant ih

/-- From every reachable state, no operation on Dirents of the tree panics. -/
theorem reach_exec_no_panic (r : Reach check readdirOne w) (op : Op)
    (live : ∀ d ∈ op.dirents, (w.dirents d).isSome) :
    (exec check readdirOne w op).1.isPanic = false :=
  exec_no_panic check readdirOne r.invariant r.climbs op live

theorem reach_exec_no_panic_lookup :
    Reach (fun _ _ _ => none) (fun _ _ => .ok []) splitMount ∧
      (∀ d ∈ (Op.lookup 0 "m").dirents, (splitMount.dirents d).isSome) ∧
      (exec (fun _ _ _ => none) (fun _ _ => .ok []) splitMount (.lookup 0 "m")).1.isPanic = false :=
  ⟨splitMount_reach, by simp [Op.dirents, splitMount, mount],
    reach_exec_no_panic splitMount_reach _ (by simp [Op.dirents, splitMount, mount])⟩

end Reach

end ContainerFs.Fs
