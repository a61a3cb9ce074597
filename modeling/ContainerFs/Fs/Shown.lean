import ContainerFs.Fs.Remove

/-! What the overlay shows of an object: the attributes and contents of the backing inode
`readLayer` picks. Copy-up keeps it, the setters and a write act on it whichever layer held the
object (`exec_sets_shown`), and `overlaySetPermissions` reports whether it changed. -/

set_option autoImplicit false

namespace ContainerFs.Fs

def Inode.content (b : Inode) : UnstableAttr × List Nat := (b.unstable, b.data)

/-- The change each setter and a write makes to what the overlay shows of its Dirent. -/
def Op.sets : Op → Option (DirentId × (UnstableAttr × List Nat → UnstableAttr × List Nat))
  | .setOwner d owner => some (d, fun v => ({ v.1 with owner := owner }, v.2))
  | .setTimestamps d mtime => some (d, fun v => ({ v.1 with mtime := mtime }, v.2))
  | .truncate d size => some (d, fun v => ({ v.1 with size := size }, v.2.take size))
  | .write d _ bytes => some (d, fun v => (v.1, v.2 ++ bytes))
  | _ => none

def OverlayEntry.shownIno (e : OverlayEntry) : Option Ino := e.upper <|> e.lower

namespace World

def contentOf (w : World) (i : Ino) : Option (UnstableAttr × List Nat) :=
  (w.live i).toOption.map Inode.content

def shownIno (w : World) (d : DirentId) : Option Ino :=
  (w.dirents d).bind fun dd => (w.entries dd.entry).bind OverlayEntry.shownIno

/-- What the overlay shows of Dirent `d`'s object. -/
def shown (w : World) (d : DirentId) : Option (UnstableAttr × List Nat) :=
  (w.shownIno d).bind w.contentOf

def KeepsShown (w w' : World) : Prop := ∀ x v, w.shown x = some v → w'.shown x = some v

/-- `w'` is `w` with `g` applied to what Dirent `d` shows, and nothing else changed. -/
structure SetsShown (w w' : World) (d : DirentId)
    (g : UnstableAttr × List Nat → UnstableAttr × List Nat) : Prop where
  self : ∃ v, w.shown d = some v ∧ w'.shown d = some (g v)
  others : ∀ x v, w.shown x = some v → w'.shown x = some v ∨ w'.shownIno x = w'.shownIno d

variable {w w' w'' : World} {i : Ino} {b : Inode}

theorem KeepsShown.refl (w : World) : w.KeepsShown w := fun _ _ => id

theorem KeepsShown.trans (h : w.KeepsShown w') (h' : w'.KeepsShown w'') : w.KeepsShown w'' :=
  fun x v shows => h' x v (h x v shows)

theorem contentOf_eq_some {v : UnstableAttr × List Nat} :
    w.contentOf i = some v ↔ ∃ b, w.live i = .ok b ∧ b.content = v := by
  rcases hl : w.live i with e | b <;> simp [contentOf, hl, Except.toOption]

theorem contentOf_of_inode (same : w'.inodes i = w.inodes i) : w'.contentOf i = w.contentOf i := by
  simp only [contentOf, live, same]

theorem contentOf_of_inodes (same : w'.inodes = w.inodes) : w'.contentOf = w.contentOf := by
  funext i; simp only [contentOf, live_congr same]

@[simp] theorem contentOf_setInode_self (ok : b.fault = none) :
    (w.setInode i b).contentOf i = some b.content := by
  simp [contentOf, live, ok, Except.toOption]

theorem contentOf_setInode_ne {j : Ino} (ne : j ≠ i) : (w.setInode i b).contentOf j = w.contentOf j := by
  simp [contentOf, live, Function.update_noteq ne]

theorem contentOf_setInode_of {b' : Inode} (hb : w.inodes i = some b) (content : b'.content = b.content)
    (fault : b'.fault = b.fault) : (w.setInode i b').contentOf = w.contentOf := by
  funext j
  by_cases same : j = i
  · subst same
    rcases hf : b.fault with _ | e <;> simp [contentOf, live, hb, hf, fault, content, Except.toOption]
  · exact contentOf_setInode_ne same

theorem shownIno_of (entries : w'.entries = w.entries) (dirents : w'.dirents = w.dirents) :
    w'.shownIno = w.shownIno := by
  funext d; simp only [shownIno, entries, dirents]

theorem shown_of (inodes : w'.inodes = w.inodes) (entries : w'.entries = w.entries)
    (dirents : w'.dirents = w.dirents) : w'.shown = w.shown := by
  funext d; simp only [shown, shownIno_of entries dirents, contentOf_of_inodes inodes]

@[simp] theorem shownIno_setInode : (w.setInode i b).shownIno = w.shownIno :=
  shownIno_of rfl rfl

theorem KeepsShown.of_eq (ino : w'.shownIno = w.shownIno) (content : w'.contentOf = w.contentOf) :
    w.KeepsShown w' := by
  intro x v shows
  simpa only [shown, ino, content] using shows

theorem shownIno_of_upperOf {d : DirentId} {u : Ino} (h : w.upperOf d = some u) :
    w.shownIno d = some u := by
  simp only [upperOf, Option.bind_eq_some] at h
  obtain ⟨dd, hd, e, he, hu⟩ := h
  simp [shownIno, hd, he, OverlayEntry.shownIno, hu]

end World

open World

def lowerFileCached : World :=
  (exec (fun _ _ _ => none) (fun _ _ => .ok []) lowerFileMount (.lookup 0 "f")).2

theorem lowerFileCached_invariant : lowerFileCached.Invariant :=
  (exec_invariant _ _ lowerFileMount_reach.invariant (.lookup 0 "f")).1

/-! ## Copy-up keeps what the overlay shows -/

section CopyUp
variable {w w1 : World}

theorem copyUpObject_contentOf (ok : w.BackingOk) {dir l u : Ino} {name : String} {w' : World}
    (made : copyUpObject w dir name l = .ok (u, w')) :
    ∃ b, w.live l = .ok b ∧ w.inodes u = none ∧ w'.contentOf u = some b.content ∧
      ∀ i, i ≠ u → w'.contentOf i = w.contentOf i := by
  obtain ⟨b, t, w1, hl, -, mk, rfl⟩ := copyUpObject_ok made
  obtain ⟨bd, hbd, -, rfl, rfl⟩ := World.mknod_spec mk
  have ne : dir ≠ ⟨dir.layer, w.nextIno⟩ := fun same => by
    have := ok.lt hbd; rw [same] at this; exact Nat.lt_irrefl _ this
  refine ⟨b, hl, ok.fresh _ le_rfl, by simp [contentOf, World.modify, live, Inode.fresh, Inode.content,
    Except.toOption], fun i hi => ?_⟩
  by_cases same : i = dir
  · subst same
    rcases hf : bd.fault with _ | e <;>
      simp [contentOf, World.modify, live, Function.update_noteq ne, hbd, hf, Except.toOption,
        Inode.content]
  · simp [contentOf, World.modify, live, Function.update_noteq hi, Function.update_noteq same]

theorem keepsShown_doCopyUp (ok : w.BackingOk) (x : DirentId) : w.KeepsShown (doCopyUp w x).2 := by
  rcases doCopyUp_cases (w := w) x with ⟨same, -⟩ | ⟨dx, e, l, pu, u, w0, -, he, hu, hl, -, made, -,
    inodes, dirents, entries, -⟩
  · rw [same]; exact .refl w
  obtain ⟨b, live, fresh, copied, others⟩ := copyUpObject_contentOf ok made
  obtain ⟨sameD, sameE⟩ := copyUpObject_tree made
  intro y v shows
  obtain ⟨i, hi, hv⟩ := Option.bind_eq_some.mp shows
  simp only [shownIno, Option.bind_eq_some] at hi
  obtain ⟨dy, hy, ey, hey, hi⟩ := hi
  simp only [shown, shownIno, contentOf_of_inodes inodes, dirents, sameD, hy, Option.some_bind,
    entries, sameE]
  by_cases same : dy.entry = dx.entry
  · -- `y` read the lower object `l`, and now reads its copy
    obtain rfl : ey = e := Option.some.inj (hey.symm.trans (same ▸ he))
    obtain rfl : i = l := by simpa [OverlayEntry.shownIno, hu, hl] using hi.symm
    obtain ⟨b', hb', rfl⟩ := contentOf_eq_some.mp hv
    obtain rfl : b' = b := Except.ok.inj (hb'.symm.trans live)
    rw [same, Function.update_same]
    simpa [OverlayEntry.shownIno] using copied
  · rw [Function.update_noteq same, hey, Option.some_bind, hi, Option.some_bind]
    have ne : i ≠ u := fun h => by
      obtain ⟨b', hb', -⟩ := contentOf_eq_some.mp hv
      rw [← h, live_ok hb'] at fresh; cases fresh
    rw [others i ne, hv]

theorem copyUpLockedForRename_keeps (R : World → World → Prop) (refl : ∀ w, R w w)
    (trans : ∀ {w w' w''}, R w w' → R w' w'' → R w w'')
    (step : ∀ w x, w.Invariant → R w (doCopyUp w x).2) (fuel : Nat) :
    ∀ (w : World) (d : DirentId), w.Invariant → R w (copyUpLockedForRename fuel w d).2 := by
  induction fuel with
  | zero => intro w _ _; exact refl w
  | succ fuel ih =>
    intro w d inv
    rcases hd : w.dirents d with _ | dd
    · simp only [copyUpLockedForRename, hd]; exact refl w
    rcases hu : w.upperOf d with _ | u
    swap
    · simp only [copyUpLockedForRename, hd, hu]; exact refl w
    rcases hp : dd.parent with _ | p
    · simp only [copyUpLockedForRename, hd, hu, hp]; exact refl w
    have keep := ih w p inv
    have ev := evolves_copyUpLockedForRename fuel w p inv
    simp only [copyUpLockedForRename, hd, hu, hp]
    revert keep ev
    generalize copyUpLockedForRename fuel w p = r
    rcases r with ⟨_ | _ | _, w1⟩ <;> intro keep ev
    · exact trans keep (step w1 d (ev.invariant inv))
    · exact keep
    · exact keep

theorem keepsShown_copyUp (inv : w.Invariant) (d : DirentId) : w.KeepsShown (copyUp w d).2 :=
  copyUpLockedForRename_keeps KeepsShown KeepsShown.refl (fun h h' => h.trans h')
    (fun _ x inv => keepsShown_doCopyUp inv.backing x) _ w d inv

theorem copyUp_of_upper {d : DirentId} {u : Ino} (hu : w.upperOf d = some u)
    (done : copyUp w d = (.ok (), w1)) : w1 = w := by
  obtain ⟨dd, hd, -⟩ := Option.bind_eq_some.mp hu
  unfold copyUp at done
  generalize w.nextDirent = fuel at done
  cases fuel <;> simp [copyUpLockedForRename, hd, hu] at done
  exact done.symm

theorem copyUp_eq_of_upper (inv : w.Invariant) {d : DirentId} {u : Ino}
    (hu : w.upperOf d = some u) : copyUp w d = (.ok (), w) := by
  obtain ⟨dd, hd, -⟩ := Option.bind_eq_some.mp hu
  have lt : d < w.nextDirent := Nat.lt_of_not_le fun le => by simp [inv.direntsFresh d le] at hd
  unfold copyUp
  rcases hf : w.nextDirent with _ | fuel
  · rw [hf] at lt; exact absurd lt (Nat.not_lt_zero _)
  · simp [copyUpLockedForRename, hd, hu]

/-- After a successful copy-up, copying up any ancestor changes nothing. -/
theorem copyUp_ancestors (inv : w.Invariant) {d a : DirentId} (done : copyUp w d = (.ok (), w1))
    (above : Relation.ReflTransGen (fun x p => (w.dirents x).bind Dirent.parent = some p) d a) :
    copyUp w1 a = (.ok (), w1) := by
  obtain ⟨ev, up⟩ := copyUp_ok inv done
  have inv1 := ev.invariant inv
  have has : (w1.upperOf a).isSome := by
    induction above with
    | refl => exact up
    | tail _ step ih =>
      obtain ⟨dx, hx, hp⟩ := Option.bind_eq_some.mp step
      exact inv1.upperTree _ dx _ (by rw [ev.dirents]; exact hx) hp ih
  obtain ⟨u, hu⟩ := Option.isSome_iff_exists.mp has
  exact copyUp_eq_of_upper inv1 hu

theorem copyUp_ancestors_lower :
    lowerFileCached.Invariant ∧
      copyUp lowerFileCached 1 = (.ok (), (copyUp lowerFileCached 1).2) ∧
      Relation.ReflTransGen (fun x p => (lowerFileCached.dirents x).bind Dirent.parent = some p)
        1 0 ∧
      copyUp (copyUp lowerFileCached 1).2 0 = (.ok (), (copyUp lowerFileCached 1).2) := by
  have done : copyUp lowerFileCached 1 = (.ok (), (copyUp lowerFileCached 1).2) :=
    Prod.ext (by decide) rfl
  have above : Relation.ReflTransGen
      (fun x p => (lowerFileCached.dirents x).bind Dirent.parent = some p) 1 0 :=
    .single (by decide)
  exact ⟨lowerFileCached_invariant, done, above,
    copyUp_ancestors lowerFileCached_invariant done above⟩

theorem copyUp_shown_self (inv : w.Invariant) {d : DirentId} (done : copyUp w d = (.ok (), w1)) :
    w1.shown d = w.shown d := by
  obtain ⟨ev, up⟩ := copyUp_ok inv done
  obtain ⟨u, hu⟩ := Option.isSome_iff_exists.mp up
  simp only [upperOf, Option.bind_eq_some, ev.dirents] at hu
  obtain ⟨dd, hd, -, -, -⟩ := hu
  obtain ⟨e, he⟩ := Option.isSome_iff_exists.mp (inv.direntEntry d dd hd)
  rcases hup : e.upper with _ | u
  · obtain ⟨l, hl⟩ := Option.isSome_iff_exists.mp
      (((inv.wellFormed _ e he).hasLayer).resolve_left (by simp [hup]))
    obtain ⟨gp, w2, pu, u, w0, -, ev2, -, -, made, inodes, dirents, entries⟩ :=
      copyUpLockedForRename_last inv hd he hup hl done
    obtain ⟨b, live, -, copied, -⟩ := copyUpObject_contentOf ev2.backing made
    have lower : w2.contentOf l = w.contentOf l :=
      contentOf_of_inode (ev2.lowerFixed l (inv.lowerLayer _ e l he hl))
    have hd1 : w1.dirents d = some dd := by rw [dirents, (copyUpObject_tree made).1, ev2.dirents, hd]
    simp only [shown, shownIno, hd1, hd, he, Option.some_bind, entries, Function.update_same,
      OverlayEntry.shownIno, hup, hl, Option.some_orElse, Option.none_orElse,
      contentOf_of_inodes inodes, copied]
    rw [← lower, contentOf_eq_some.mpr ⟨b, live, rfl⟩]
  · rw [copyUp_of_upper (u := u) (by simp [upperOf, hd, he, hup]) done]

end CopyUp

/-! ## The setters act on what the overlay shows -/

section Setters
variable {w w' : World}

theorem World.setAttr_live {u : Ino} {f : Inode → Inode} (set : w.setAttr u f = .ok w') :
    ∃ c, w.live u = .ok c ∧ c.fault = none ∧ w' = w.setInode u (f c) := by
  unfold World.setAttr at set
  rcases hl : w.live u with e | c <;> simp only [hl] at set
  · cases set
  · cases set
    exact ⟨c, rfl, World.live_fault hl, rfl⟩

theorem overlayOpen_snd (w : World) (d : DirentId) (flags : FileFlags) :
    (overlayOpen w d flags).2.inodes = w.inodes ∧ (overlayOpen w d flags).2.entries = w.entries ∧
      (overlayOpen w d flags).2.dirents = w.dirents := by
  unfold overlayOpen
  split
  · exact ⟨rfl, rfl, rfl⟩
  · split
    · exact ⟨rfl, rfl, rfl⟩
    · split <;> simp

theorem setsShown_of_copyUp (inv : w.Invariant) {d : DirentId} {w1 w2 : World} {u : Ino}
    {f : Inode → Inode} {g : UnstableAttr × List Nat → UnstableAttr × List Nat}
    (cu : copyUp w d = (.ok (), w1)) (inodes : w2.inodes = w1.inodes)
    (entries : w2.entries = w1.entries) (dirents : w2.dirents = w1.dirents)
    (up : w1.upperOf d = some u) (set : w2.setAttr u f = .ok w')
    (hf : ∀ c, (f c).content = g c.content) (nf : ∀ c, (f c).fault = c.fault) :
    w.SetsShown w' d g := by
  obtain ⟨c, live, ok, rfl⟩ := World.setAttr_live set
  have keep := keepsShown_copyUp inv d
  rw [cu] at keep
  have sh2 := shown_of inodes entries dirents
  have hs : w2.shownIno d = some u := (shownIno_of entries dirents).symm ▸ shownIno_of_upperOf up
  have before : w2.shown d = some c.content := by
    simp only [shown, hs, Option.some_bind]; exact contentOf_eq_some.mpr ⟨c, live, rfl⟩
  refine ⟨⟨c.content, ?_, ?_⟩, fun x v shows => ?_⟩
  · rw [← copyUp_shown_self inv cu, ← sh2, before]
  · simp only [shown, shownIno_setInode, hs, Option.some_bind]
    rw [contentOf_setInode_self ((nf c).trans ok), hf]
  · have shows2 : w2.shown x = some v := sh2 ▸ keep x v shows
    rcases hx : w2.shownIno x with _ | i
    · simp [shown, hx] at shows2
    by_cases hi : i = u
    · exact .inr (by simp [hx, hs, hi])
    · left
      simp only [shown, hx, Option.some_bind] at shows2
      simp only [shown, shownIno_setInode, hx, Option.some_bind, contentOf_setInode_ne hi, shows2]

theorem overlaySetAttr_sets (inv : w.Invariant) {d : DirentId} {f : Inode → Inode}
    {g : UnstableAttr × List Nat → UnstableAttr × List Nat}
    (h : overlaySetAttr w d (fun w u => w.setAttr u f) = (.ok (), w'))
    (hf : ∀ c, (f c).content = g c.content) (nf : ∀ c, (f c).fault = c.fault) : w.SetsShown w' d g := by
  obtain ⟨w1, cu, h⟩ := afterCopyUp_ok h
  obtain ⟨u, up, h⟩ := withUpper_ok h
  exact setsShown_of_copyUp inv cu rfl rfl rfl up (stepOf_ok h) hf nf

variable (check : EntryCheck) (readdirOne : World → OverlayEntry → Except Errno (List String))

theorem write_sets (inv : w.Invariant) {d : DirentId} {flags : FileFlags} {bytes : List Nat}
    (done : exec check readdirOne w (.write d flags bytes) = (.ok (), w')) :
    w.SetsShown w' d fun v => (v.1, v.2 ++ bytes) := by
  simp only [exec] at done
  rcases hx : overlayGetFile w d flags with ⟨f | _ | _, w2⟩ <;> simp only [hx] at done
  rotate_left
  · cases done
  · cases done
  have wr := stepOf_ok done
  unfold World.write at wr
  split at wr
  · cases wr
  rename_i writable
  have flags_eq := (overlayGetFile_ok inv hx).1
  have writes : flags.write = true := by simpa [flags_eq] using writable
  unfold overlayGetFile at hx
  rw [if_pos writes] at hx
  obtain ⟨w1, cu, opened⟩ := afterCopyUp_ok hx
  obtain ⟨u, up⟩ := Option.isSome_iff_exists.mp (copyUp_ok inv cu).2
  obtain ⟨inodes, entries, dirents⟩ := overlayOpen_snd w1 d flags
  rw [opened] at inodes entries dirents
  rw [(overlayOpen_ok opened).2 u up] at wr
  exact setsShown_of_copyUp inv cu inodes entries dirents up wr (fun _ => rfl) (fun _ => rfl)

def lowerFileWritten : World :=
  (exec (fun _ _ _ => none) (fun _ _ => .ok []) lowerFileCached (.write 1 ⟨false, true⟩ [7])).2

/-- Every successful setter and write acts on what the overlay shows of its Dirent. -/
theorem exec_sets_shown (inv : w.Invariant) {op : Op} {d : DirentId}
    {g : UnstableAttr × List Nat → UnstableAttr × List Nat} (sets : op.sets = some (d, g))
    (done : exec check readdirOne w op = (.ok (), w')) : w.SetsShown w' d g := by
  cases op with
  | setOwner d' owner =>
    obtain ⟨rfl, rfl⟩ := Prod.mk.inj (Option.some.inj sets)
    exact overlaySetAttr_sets inv done (fun _ => rfl) (fun _ => rfl)
  | setTimestamps d' mtime =>
    obtain ⟨rfl, rfl⟩ := Prod.mk.inj (Option.some.inj sets)
    exact overlaySetAttr_sets inv done (fun _ => rfl) (fun _ => rfl)
  | truncate d' size =>
    obtain ⟨rfl, rfl⟩ := Prod.mk.inj (Option.some.inj sets)
    exact overlaySetAttr_sets inv done (fun _ => rfl) (fun _ => rfl)
  | write d' flags bytes =>
    obtain ⟨rfl, rfl⟩ := Prod.mk.inj (Option.some.inj sets)
    exact write_sets check readdirOne inv done
  | _ => cases sets

theorem exec_sets_shown_write :
    lowerFileCached.Invariant ∧
      (Op.write 1 ⟨false, true⟩ [7]).sets = some (1, fun v => (v.1, v.2 ++ [7])) ∧
      exec (fun _ _ _ => none) (fun _ _ => .ok []) lowerFileCached (.write 1 ⟨false, true⟩ [7]) =
        (.ok (), lowerFileWritten) ∧
      lowerFileCached.SetsShown lowerFileWritten 1 fun v => (v.1, v.2 ++ [7]) := by
  have done : exec (fun _ _ _ => none) (fun _ _ => .ok []) lowerFileCached
      (.write 1 ⟨false, true⟩ [7]) = (.ok (), lowerFileWritten) := Prod.ext (by decide) rfl
  have sets : (Op.write 1 ⟨false, true⟩ [7]).sets = some (1, fun v => (v.1, v.2 ++ [7])) := rfl
  exact ⟨lowerFileCached_invariant, sets, done,
    exec_sets_shown _ _ lowerFileCached_invariant sets done⟩

/-- `overlaySetPermissions` answers `true` exactly when it changed what is shown. -/
theorem overlaySetPermissions_shown (inv : w.Invariant) {d : DirentId} {perms : Nat} {ok : Bool}
    (h : overlaySetPermissions w d perms = (.ok ok, w')) :
    (ok = true → w.SetsShown w' d fun v => ({ v.1 with perms := perms }, v.2)) ∧
      (ok = false → w.KeepsShown w') := by
  have keep := keepsShown_copyUp inv d
  unfold overlaySetPermissions at h
  rcases hc : copyUp w d with ⟨_ | _ | _, w1⟩ <;> simp only [hc] at h keep
  · obtain ⟨u, up, h⟩ := withUpper_ok h
    unfold World.setPermissions at h
    rcases hs : w1.setAttr u fun b => { b with unstable := { b.unstable with perms := perms } } with
      e | w2 <;> simp only [hs, Prod.mk.injEq, Outcome.ok.injEq] at h <;> obtain ⟨rfl, rfl⟩ := h
    · exact ⟨fun h => Bool.noConfusion h, fun _ => keep⟩
    · exact ⟨fun _ => setsShown_of_copyUp inv hc rfl rfl rfl up hs (fun _ => rfl) (fun _ => rfl),
        fun h => Bool.noConfusion h⟩
  · simp only [Prod.mk.injEq, Outcome.ok.injEq] at h
    obtain ⟨rfl, rfl⟩ := h
    exact ⟨fun h => Bool.noConfusion h, fun _ => keep⟩
  · cases h

theorem overlaySetPermissions_shown_lower :
    lowerFileCached.Invariant ∧
      overlaySetPermissions lowerFileCached 1 420 =
        (.ok true, (overlaySetPermissions lowerFileCached 1 420).2) ∧
      (true = true → lowerFileCached.SetsShown (overlaySetPermissions lowerFileCached 1 420).2 1
        fun v => ({ v.1 with perms := 420 }, v.2)) ∧
      (true = false → lowerFileCached.KeepsShown (overlaySetPermissions lowerFileCached 1 420).2) := by
  have h : overlaySetPermissions lowerFileCached 1 420 =
      (.ok true, (overlaySetPermissions lowerFileCached 1 420).2) := Prod.ext (by decide) rfl
  exact ⟨lowerFileCached_invariant, h, overlaySetPermissions_shown lowerFileCached_invariant h⟩

end Setters

/-! ## Hard links -/

section Links
variable (check : EntryCheck) (readdirOne : World → OverlayEntry → Except Errno (List String))
  {w w' : World}

/-- A successful hard link binds the new name to the inode the target shows. -/
theorem exec_link_shares (inv : w.Invariant) {parent target : DirentId} {name : String}
    (done : exec check readdirOne w (.createHardLink parent target name) = (.ok (), w')) :
    ∃ pu u, w'.upperOf parent = some pu ∧ w'.shownIno target = some u ∧
      w'.slot pu name = some (.bound u) ∧ w.KeepsShown w' := by
  have h : overlayCreateHardLink w parent target name = (.ok (), w') := done
  obtain ⟨w1, cu1, h⟩ := afterCopyUp_ok h
  obtain ⟨w2, cu2, h⟩ := afterCopyUp_ok h
  obtain ⟨pu, hpu, h⟩ := withUpper_ok h
  obtain ⟨u, hu, h⟩ := withUpper_ok h
  obtain ⟨b, hb, -, rfl⟩ := createHardLink_spec (stepOf_ok h)
  have keep1 := keepsShown_copyUp inv parent
  have keep2 := keepsShown_copyUp ((copyUp_ok inv cu1).1.invariant inv) target
  rw [cu1] at keep1
  rw [cu2] at keep2
  refine ⟨pu, u, hpu, shownIno_of_upperOf hu, by simp [slot, hb], ?_⟩
  exact keep1.trans (keep2.trans (.of_eq shownIno_setInode (contentOf_setInode_of hb rfl rfl)))

def lowerFileLinked : World :=
  (exec (fun _ _ _ => none) (fun _ _ => .ok []) lowerFileCached (.createHardLink 0 1 "g")).2

theorem exec_link_shares_lower :
    lowerFileCached.Invariant ∧
      exec (fun _ _ _ => none) (fun _ _ => .ok []) lowerFileCached (.createHardLink 0 1 "g") =
        (.ok (), lowerFileLinked) ∧
      ∃ pu u, lowerFileLinked.upperOf 0 = some pu ∧ lowerFileLinked.shownIno 1 = some u ∧
        lowerFileLinked.slot pu "g" = some (.bound u) ∧ lowerFileCached.KeepsShown lowerFileLinked := by
  have done : exec (fun _ _ _ => none) (fun _ _ => .ok []) lowerFileCached
      (.createHardLink 0 1 "g") = (.ok (), lowerFileLinked) := Prod.ext (by decide) rfl
  exact ⟨lowerFileCached_invariant, done, exec_link_shares _ _ lowerFileCached_invariant done⟩

end Links

end ContainerFs.Fs
