import ContainerFs.Fs.LookupRule
import ContainerFs.Fs.RenameCheck

/-! Copy-up keeps an overlay inode's stable identity. A lookup that finds only a lower object
`l` names the overlay inode with `l`'s stable attributes; once the Dirent is copied up, a fresh
lookup of the name finds the copy in the parent's upper directory and `l` in the lower one,
and steals `l`'s stable attributes onto the copy. -/

set_option autoImplicit false

namespace ContainerFs.Fs

open World

/-! ## What a lookup that finds only a lower object saw -/

section LowerOnly
variable (check : EntryCheck) {w : World} (name : String) {e : OverlayEntry} {s : StableAttr}
  {b : Bool}

theorem overlayMerge_lowerOnly {u l : Option Ino} {neg : Bool}
    (h : (overlayMerge check w u l neg).1 = .ok (.positive e s, b)) (noUpper : e.upper = none) :
    u = none ∧ ∃ j, l = some j ∧ e = ⟨none, some j, true⟩ ∧ s = w.stableOf j := by
  rcases u with _ | u <;> rcases l with _ | l
  · simp only [overlayMerge] at h; split at h <;> simp at h
  · have pos := withProvenance_positive h
    obtain rfl := newOverlayDirent_entry check pos
    rw [newOverlayDirent_lower, direntOutcome] at pos
    split at pos <;> simp only [Outcome.ok.injEq, Found.positive.injEq, reduceCtorEq] at pos
    exact ⟨rfl, l, rfl, rfl, pos.2.symm⟩
  · obtain rfl := newOverlayDirent_entry check (withProvenance_positive h)
    cases noUpper
  · simp only [overlayMerge] at h
    split at h <;> obtain rfl := newOverlayDirent_entry check (withProvenance_positive h) <;>
      cases noUpper

theorem overlayLookupLower_lowerOnly {p : OverlayEntry} {u : Option Ino} {neg : Bool}
    (h : (overlayLookupLower check w p name u neg).1 = .ok (.positive e s, b))
    (noUpper : e.upper = none) :
    u = none ∧ ∃ pl j, p.lower = some pl ∧ w.slot pl name = some (.bound j) ∧
      e = ⟨none, some j, true⟩ ∧ s = w.stableOf j := by
  rcases hp : p.lower with _ | pl <;> simp only [overlayLookupLower, hp] at h
  · obtain ⟨-, j, hj, -⟩ := overlayMerge_lowerOnly check h noUpper
    cases hj
  · rcases hx : lookupLower w pl u name with ⟨_ | l, w1⟩ <;> simp only [hx] at h
    · cases h
    obtain ⟨rfl, j, rfl, rfl, rfl⟩ := overlayMerge_lowerOnly check h noUpper
    have same : w1.inodes = w.inodes := by rw [← lookupLower_inodes w pl name none, hx]
    exact ⟨rfl, pl, j, rfl, lookupLower_bound name hx, rfl, by rw [stableOf_congr w same]⟩

theorem upperStep_none {dir : Ino} {neg : Bool}
    (h : upperStep (w.lookup dir name).1 = .ok (none, neg)) (u : Ino) :
    w.slot dir name ≠ some (.bound u) := by
  intro bound
  simp [World.lookup, bound, upperStep] at h

theorem overlayLookupLocked_lowerOnly {p : OverlayEntry}
    (h : (overlayLookupLocked check w p name).1 = .ok (.positive e s, b))
    (noUpper : e.upper = none) :
    (∃ pl j, p.lower = some pl ∧ w.slot pl name = some (.bound j) ∧ e = ⟨none, some j, true⟩ ∧
      s = w.stableOf j) ∧
    ∀ pu, p.upper = some pu →
      overlayHasWhiteout w pu name = false ∧ ∀ u, w.slot pu name ≠ some (.bound u) := by
  rcases hp : p.upper with _ | pu <;> simp only [overlayLookupLocked, hp] at h
  · exact ⟨(overlayLookupLower_lowerOnly check name h noUpper).2, by simp⟩
  rcases hx : lookupUpper w pu name with ⟨_ | ⟨u, neg⟩, w1⟩ <;> simp only [hx] at h
  · cases h
  have same : w1.inodes = w.inodes := by rw [← lookupUpper_inodes w pu name, hx]
  have step : upperStep (w.lookup pu name).1 = .ok (u, neg) := by rw [← lookupUpper_fst, hx]
  split at h
  · rcases u with _ | u
    · simp only [overlayLookupWhiteout] at h; split at h <;> simp at h
    · obtain rfl := newOverlayDirent_entry check (withProvenance_positive h)
      cases noUpper
  · rename_i white
    obtain ⟨rfl, lower⟩ := overlayLookupLower_lowerOnly check name h noUpper
    rw [World.slot_congr same, stableOf_congr w same] at lower
    rw [overlayHasWhiteout_congr w same] at white
    refine ⟨lower, fun pu' hpu => ?_⟩
    obtain rfl := Option.some.inj hpu
    exact ⟨by simpa using white, upperStep_none name step⟩

theorem overlayLookup_lowerOnly {parent : EntryId} {p : OverlayEntry}
    (found : w.entries parent = some p)
    (h : (overlayLookup check w parent name).1 = .ok (.positive e s, b))
    (noUpper : e.upper = none) :
    (∃ pl j, p.lower = some pl ∧ w.slot pl name = some (.bound j) ∧ e = ⟨none, some j, true⟩ ∧
      s = w.stableOf j) ∧
    ∀ pu, p.upper = some pu →
      overlayHasWhiteout w pu name = false ∧ ∀ u, w.slot pu name ≠ some (.bound u) := by
  obtain ⟨p', found', hasLayer⟩ := overlayLookup_ok_parent check name h
  obtain rfl := Option.some.inj (found'.symm.trans found)
  rw [overlayLookup_fst w name parent p' found hasLayer] at h
  have same := World.acquire_inodes (w := w) (h := .reader parent)
  simpa only [World.slot_congr same, overlayHasWhiteout_congr w same, stableOf_acquire] using
    overlayLookupLocked_lowerOnly check name h noUpper

end LowerOnly

/-! ## A lookup that finds both an upper and a lower object -/

theorem lookup_fst_bound {w : World} {dir i : Ino} {name : String}
    (h : w.slot dir name = some (.bound i)) : (w.lookup dir name).1 = .positive i := by
  simp [World.lookup, h]

theorem overlayLookup_merged (check : EntryCheck) {w : World} {parent : EntryId}
    {p : OverlayEntry} {name : String} {pu pl u l : Ino} (found : w.entries parent = some p)
    (hu : p.upper = some pu) (hl : p.lower = some pl)
    (upperBound : w.slot pu name = some (.bound u)) (live : (w.inodes u).isSome)
    (white : overlayHasWhiteout w pu name = false)
    (lowerBound : w.slot pl name = some (.bound l))
    (compat : compatible (w.stableOf u) (w.stableOf l) = true) :
    (overlayLookup check w parent name).1 =
      ruleEntry check (some u) (if isDir (w.stableOf l) then some l else none) true
        (w.stableOf l) := by
  have same := World.acquire_inodes (w := w) (h := .reader parent)
  rw [overlayLookup_fst w name parent p found (by simp [hu]),
    overlayLookupLocked_fst _ name p fun dir u' hdir bound => ?_]
  · simp only [hu, hl, stableOf_acquire, World.lookup_fst_congr same, overlayHasWhiteout_congr w same,
      white, lookup_fst_bound upperBound, lookup_fst_bound lowerBound, upperStep, lowerOutcome,
      Option.map_some', lowerStep, Option.filter, Option.all, compat, mergeOutcome, if_true,
      Bool.false_eq_true, if_false]
    rw [← direntOutcome_map]
    rfl
  · obtain rfl := Option.some.inj (hu.symm.trans hdir)
    rw [World.slot_congr same, upperBound] at bound
    cases bound
    simpa [same] using live

/-! ## What copy-up makes -/

/-- The extended attributes and the fault of an inode: all that `overlayHasWhiteout` reads. -/
def Inode.whiteoutView (c : Inode) : Assoc String × Option Errno := (c.xattrs, c.fault)

section Made
variable {w w' : World}

theorem overlayHasWhiteout_eq_of {i : Ino}
    (same : (w'.inodes i).map Inode.whiteoutView = (w.inodes i).map Inode.whiteoutView)
    (n : String) : overlayHasWhiteout w' i n = overlayHasWhiteout w i n := by
  unfold overlayHasWhiteout World.getxattr World.live
  rcases h' : w'.inodes i with _ | c' <;> rcases h : w.inodes i with _ | c <;>
    simp only [h', h, Option.map_some', Option.map_none', Inode.whiteoutView, reduceCtorEq,
      Option.some.injEq, Prod.mk.injEq] at same ⊢
  obtain ⟨xattrs, fault⟩ := same
  rcases hf : c.fault with _ | e <;> simp [fault, hf, xattrs]

theorem copyUpObject_made (ok : w.BackingOk) {dir l u : Ino} {name : String}
    (made : copyUpObject w dir name l = .ok (u, w')) :
    ∃ b t, w.inodes l = some b ∧ copyUpType b.stable = some t ∧ (w.inodes dir).isSome ∧
      w.inodes u = none ∧
      w'.inodes u = some { Inode.fresh t u b.target none with unstable := b.unstable, data := b.data } ∧
      w'.slot dir name = some (.bound u) ∧
      (∀ i, i ≠ u → (w'.inodes i).map Inode.whiteoutView = (w.inodes i).map Inode.whiteoutView) ∧
      w'.entries = w.entries ∧ w'.dirents = w.dirents := by
  obtain ⟨b, t, w1, hl, ht, mk, rfl⟩ := copyUpObject_ok made
  obtain ⟨bd, hbd, -, rfl, rfl⟩ := World.mknod_spec mk
  have ne : dir ≠ ⟨dir.layer, w.nextIno⟩ := fun same => by
    have := ok.lt hbd; rw [same] at this; exact Nat.lt_irrefl _ this
  refine ⟨b, t, World.live_ok hl, ht, by simp [hbd], ok.fresh _ le_rfl, by simp [World.modify], ?_,
    fun i hi => ?_, by simp, by simp⟩
  · simp [World.slot, World.modify, Function.update_noteq ne]
  · by_cases same : i = dir
    · subst same; simp [World.modify, Function.update_noteq ne, hbd, Inode.whiteoutView]
    · simp [World.modify, Function.update_noteq hi, Function.update_noteq same]

end Made

/-! ## Copy-up over the ancestors -/

namespace World

/-- What copy-up leaves beyond `Evolves`: fresh upper counterparts and kept whiteouts. -/
structure CopiedFresh (w w' : World) : Prop where
  upper : ∀ e o o' u, w.entries e = some o → o.upper = none → w'.entries e = some o' →
    o'.upper = some u → (w'.inodes u).isSome ∧ ∀ n, overlayHasWhiteout w' u n = false
  lowerDir : ∀ e o o' l, w.entries e = some o → w'.entries e = some o' → o.lower = some l →
    l.layer = .lower → isDir (w.stableOf l) = true → o'.lower = some l
  whiteouts : ∀ i, (w.inodes i).isSome →
    (w'.inodes i).isSome ∧ ∀ n, overlayHasWhiteout w' i n = overlayHasWhiteout w i n
  newborn : ∀ i, w.inodes i = none → (w'.inodes i).isSome → ∀ n, overlayHasWhiteout w' i n = false

variable {w w' w'' : World}

theorem CopiedFresh.refl (w : World) : w.CopiedFresh w where
  upper _ o _ _ found none found' has := by
    obtain rfl := Option.some.inj (found.symm.trans found')
    simp [none] at has
  lowerDir _ o _ _ found found' hl _ _ := by
    obtain rfl := Option.some.inj (found.symm.trans found')
    exact hl
  whiteouts _ live := ⟨live, fun _ => rfl⟩
  newborn _ none live := by simp [none] at live

theorem CopiedFresh.trans (ev : w.Evolves w') (ev' : w'.Evolves w'') (h : w.CopiedFresh w')
    (h' : w'.CopiedFresh w'') : w.CopiedFresh w'' where
  upper e o o2 u found none found2 has := by
    obtain ⟨o1, found1, -⟩ := ev.entries e o found
    rcases hu1 : o1.upper with _ | u1
    · exact h'.upper e o1 o2 u found1 hu1 found2 has
    obtain ⟨live, white⟩ := h.upper e o o1 u1 found none found1 hu1
    obtain ⟨o3, found3, copied⟩ := ev'.entries e o1 found1
    obtain rfl := Option.some.inj (found2.symm.trans found3)
    rcases copied with rfl | ⟨none1, -⟩
    · obtain rfl := Option.some.inj (has.symm.trans hu1)
      exact ⟨(h'.whiteouts u live).1, fun n => ((h'.whiteouts u live).2 n).trans (white n)⟩
    · simp [hu1] at none1
  lowerDir e o o2 l found found2 hl layer dir := by
    obtain ⟨o1, found1, -⟩ := ev.entries e o found
    refine h'.lowerDir e o1 o2 l found1 found2 (h.lowerDir e o o1 l found found1 hl layer dir) layer ?_
    simpa [World.stableOf, ev.lowerFixed l layer] using dir
  whiteouts i live :=
    ⟨(h'.whiteouts i (h.whiteouts i live).1).1,
      fun n => ((h'.whiteouts i (h.whiteouts i live).1).2 n).trans ((h.whiteouts i live).2 n)⟩
  newborn i none live n := by
    rcases hi : w'.inodes i with _ | c
    · exact h'.newborn i hi live n
    · have live1 : (w'.inodes i).isSome := by simp [hi]
      exact ((h'.whiteouts i live1).2 n).trans (h.newborn i none live1 n)

end World

theorem overlayHasWhiteout_of_empty {w : World} {i : Ino} {c : Inode} (h : w.inodes i = some c)
    (empty : c.xattrs = []) (ok : c.fault = none) (n : String) :
    overlayHasWhiteout w i n = false := by
  simp [overlayHasWhiteout, World.getxattr, World.live, h, empty, ok, Assoc.get]

theorem copiedFresh_doCopyUp {w : World} (inv : w.Invariant) (x : DirentId) :
    w.CopiedFresh (doCopyUp w x).2 := by
  have ev := evolves_doCopyUp inv x
  rcases doCopyUp_cases (w := w) x with ⟨same, -⟩ | ⟨dx, e, l, pu, u, w0, -, he, -, hl, -, made, -,
    inodes, -, entries, -⟩
  · rw [same]; exact .refl w
  obtain ⟨b, t, -, -, -, fresh, hu0, -, views, entries0, -⟩ := copyUpObject_made inv.backing made
  have view : ∀ i, i ≠ u → ((doCopyUp w x).2.inodes i).map Inode.whiteoutView =
      (w.inodes i).map Inode.whiteoutView := fun i hi => by rw [inodes, views i hi]
  have noWhite : ∀ n, overlayHasWhiteout (doCopyUp w x).2 u n = false :=
    overlayHasWhiteout_of_empty (by rw [inodes, hu0]) rfl rfl
  refine ⟨fun e' o o' u' found none found' has => ?_, fun e' o o' l' found found' hl' layer dir => ?_,
    fun i live => ?_, fun i none live n => ?_⟩
  · by_cases same : e' = dx.entry
    · subst same
      rw [entries, Function.update_same] at found'
      obtain rfl := Option.some.inj found'
      obtain rfl := Option.some.inj has
      exact ⟨by simp [inodes, hu0], noWhite⟩
    · rw [entries, Function.update_noteq same, entries0] at found'
      obtain rfl := Option.some.inj (found.symm.trans found')
      simp [none] at has
  · by_cases same : e' = dx.entry
    · subst same
      rw [entries, Function.update_same] at found'
      obtain rfl := Option.some.inj found'
      obtain rfl := Option.some.inj (he.symm.trans found)
      obtain rfl := Option.some.inj (hl.symm.trans hl')
      have kept : w0.stableOf l = w.stableOf l := by
        simp only [World.stableOf, ← inodes, ev.lowerFixed l layer]
      simp [kept, dir]
    · rw [entries, Function.update_noteq same, entries0] at found'
      obtain rfl := Option.some.inj (found.symm.trans found')
      exact hl'
  · have ne : i ≠ u := by rintro rfl; simp [fresh] at live
    have hv := view i ne
    exact ⟨by simpa [live] using congrArg Option.isSome hv, overlayHasWhiteout_eq_of hv⟩
  · by_cases same : i = u
    · subst same; exact noWhite n
    · have hv := congrArg Option.isSome (view i same)
      simp [none, live] at hv

theorem copiedFresh_copyUpLockedForRename (fuel : Nat) :
    ∀ (w : World) (d : DirentId), w.Invariant →
      w.CopiedFresh (copyUpLockedForRename fuel w d).2 := by
  induction fuel with
  | zero => intro w _ _; exact .refl w
  | succ fuel ih =>
    intro w d inv
    rcases hd : w.dirents d with _ | dd
    · simp only [copyUpLockedForRename, hd]; exact .refl w
    rcases hu : w.upperOf d with _ | u
    swap
    · simp only [copyUpLockedForRename, hd, hu]; exact .refl w
    rcases hp : dd.parent with _ | p
    · simp only [copyUpLockedForRename, hd, hu, hp]; exact .refl w
    have rec := ih w p inv
    have ev := evolves_copyUpLockedForRename fuel w p inv
    simp only [copyUpLockedForRename, hd, hu, hp]
    revert rec ev
    generalize copyUpLockedForRename fuel w p = x
    rcases x with ⟨_ | _ | _, w1⟩ <;> intro rec ev
    · exact .trans ev (evolves_doCopyUp (ev.invariant inv) d) rec
        (copiedFresh_doCopyUp (ev.invariant inv) d)
    · exact rec
    · exact rec

theorem World.CopiedFresh.whiteout_upper {w w' : World} (fresh : w.CopiedFresh w') {x : EntryId}
    {p p' : OverlayEntry} {pu : Ino} {n : String} (found : w.entries x = some p)
    (found' : w'.entries x = some p') (copied : p.CopiedUp p') (hu : p'.upper = some pu)
    (live : (w'.inodes pu).isSome)
    (white : ∀ pu0, p.upper = some pu0 → overlayHasWhiteout w pu0 n = false) :
    overlayHasWhiteout w' pu n = false := by
  rcases hpu0 : p.upper with _ | pu0
  · exact (fresh.upper x p p' pu found hpu0 found' hu).2 n
  rcases copied with rfl | ⟨none, -⟩
  · obtain rfl := Option.some.inj (hpu0.symm.trans hu)
    rcases h : w.inodes pu0 with _ | c
    · exact fresh.newborn pu0 h live n
    · rw [(fresh.whiteouts pu0 (by simp [h])).2 n]
      exact white pu0 hpu0
  · simp [hpu0] at none

theorem doCopyUp_entries_other {w : World} (inv : w.Invariant) {x y : DirentId} {dy : Dirent}
    (hy : w.dirents y = some dy) (ne : x ≠ y) :
    (doCopyUp w x).2.entries dy.entry = w.entries dy.entry := by
  rcases doCopyUp_cases (w := w) x with ⟨same, -⟩ | ⟨dx, e, l, pu, u, w0, hx, -, -, -, -, made, -, -,
    -, entries, -⟩
  · rw [same]
  obtain ⟨-, -, -, -, -, -, -, -, -, entries0, -⟩ := copyUpObject_made inv.backing made
  rw [entries, Function.update_noteq fun same => ne (inv.entryOwner x y dx dy hx hy same.symm),
    entries0]

/-- The Dirents `copyUpLockedForRename` climbs through from `x` before it copies. -/
inductive World.UpWalk (w : World) : DirentId → DirentId → Prop
  | refl (x : DirentId) : w.UpWalk x x
  | step {x p y : DirentId} {dx : Dirent} : w.dirents x = some dx → w.upperOf x = none →
      dx.parent = some p → w.UpWalk p y → w.UpWalk x y

theorem copyUpLockedForRename_off_walk {d : DirentId} {dd : Dirent} (fuel : Nat) :
    ∀ (w : World) (x : DirentId), w.Invariant → w.dirents d = some dd → ¬w.UpWalk x d →
      (copyUpLockedForRename fuel w x).2.entries dd.entry = w.entries dd.entry := by
  induction fuel with
  | zero => intros; rfl
  | succ fuel ih =>
    intro w x inv hd off
    rcases hx : w.dirents x with _ | dx
    · simp only [copyUpLockedForRename, hx]
    rcases hu : w.upperOf x with _ | u
    swap
    · simp only [copyUpLockedForRename, hx, hu]
    rcases hp : dx.parent with _ | p
    · simp only [copyUpLockedForRename, hx, hu, hp]
    have rec := ih w p inv hd fun walk => off (.step hx hu hp walk)
    have ev := evolves_copyUpLockedForRename fuel w p inv
    simp only [copyUpLockedForRename, hx, hu, hp]
    revert rec ev
    generalize copyUpLockedForRename fuel w p = r
    rcases r with ⟨_ | _ | _, w1⟩ <;> intro rec ev
    · rw [doCopyUp_entries_other (ev.invariant inv) (ev.dirents ▸ hd) fun same => off (by rw [same]; exact .refl d)]
      exact rec
    · exact rec
    · exact rec

theorem copyUpLockedForRename_succ_ok {fuel : Nat} {w w' : World} {d p : DirentId} {dd : Dirent}
    (hd : w.dirents d = some dd) (noUpper : w.upperOf d = none) (hp : dd.parent = some p)
    (done : copyUpLockedForRename (fuel + 1) w d = (.ok (), w')) :
    ∃ w1, copyUpLockedForRename fuel w p = (.ok (), w1) ∧ doCopyUp w1 d = (.ok (), w') := by
  simp only [copyUpLockedForRename, hd, noUpper, hp] at done
  revert done
  generalize copyUpLockedForRename fuel w p = r
  rcases r with ⟨_ | _ | _, w1⟩ <;> intro done
  · exact ⟨w1, rfl, done⟩
  · cases done
  · cases done

theorem World.UpWalk.copyUp_ok {w : World} {x y : DirentId} (walk : w.UpWalk x y) :
    ∀ {fuel : Nat} {w1 : World}, copyUpLockedForRename fuel w x = (.ok (), w1) →
      ∃ g w2, g ≤ fuel ∧ copyUpLockedForRename g w y = (.ok (), w2) := by
  induction walk with
  | refl => exact fun done => ⟨_, _, le_rfl, done⟩
  | step hx hu hp _ ih =>
    intro fuel w1 done
    cases fuel with
    | zero => cases done
    | succ fuel =>
      obtain ⟨w2, chain, -⟩ := copyUpLockedForRename_succ_ok hx hu hp done
      obtain ⟨g, w3, le, ok⟩ := ih chain
      exact ⟨g, w3, le.trans (Nat.le_succ fuel), ok⟩

theorem copyUpLockedForRename_acyclic {w : World} {x p : DirentId} {dx : Dirent}
    (hx : w.dirents x = some dx) (hu : w.upperOf x = none) (hp : dx.parent = some p) :
    ∀ (fuel : Nat) (w1 : World), copyUpLockedForRename fuel w x = (.ok (), w1) → ¬w.UpWalk p x := by
  intro fuel
  induction fuel using Nat.strong_induction_on with
  | _ fuel ih =>
    intro w1 done walk
    cases fuel with
    | zero => cases done
    | succ fuel =>
      obtain ⟨w2, chain, -⟩ := copyUpLockedForRename_succ_ok hx hu hp done
      obtain ⟨g, w3, le, again⟩ := walk.copyUp_ok chain
      exact ih g (Nat.lt_succ_of_le le) w3 again walk

theorem copyUpLockedForRename_last {W W1 : World} (inv : W.Invariant) {x : DirentId} {dx : Dirent}
    {p : OverlayEntry} {l : Ino} {fuel : Nat} (hx : W.dirents x = some dx)
    (found : W.entries dx.entry = some p) (hu : p.upper = none) (hl : p.lower = some l)
    (copied : copyUpLockedForRename fuel W x = (.ok (), W1)) :
    ∃ gp w1 pu u w0, dx.parent = some gp ∧ W.Evolves w1 ∧ W.CopiedFresh w1 ∧
      w1.upperOf gp = some pu ∧ copyUpObject w1 pu dx.name l = .ok (u, w0) ∧
      W1.inodes = w0.inodes ∧ W1.dirents = w0.dirents ∧
      W1.entries = Function.update w0.entries dx.entry
        (some { p with upper := some u, lower := if isDir (w0.stableOf l) then some l else none }) := by
  have noUpper : W.upperOf x = none := by simp [World.upperOf, hx, found, hu]
  obtain ⟨gp, hgp⟩ : ∃ gp, dx.parent = some gp := by
    rcases hgp : dx.parent with _ | gp
    · cases fuel <;> simp [copyUpLockedForRename, hx, noUpper, hgp] at copied
    · exact ⟨gp, rfl⟩
  cases fuel with
  | zero => cases copied
  | succ fuel =>
  obtain ⟨w1, chain, last⟩ := copyUpLockedForRename_succ_ok hx noUpper hgp copied
  have ev1 : W.Evolves w1 := by simpa only [chain] using evolves_copyUpLockedForRename fuel W gp inv
  have kept : w1.entries dx.entry = some p := by
    have := copyUpLockedForRename_off_walk fuel W gp inv hx
      (copyUpLockedForRename_acyclic hx noUpper hgp _ _ copied)
    rwa [chain, found] at this
  have hx1 : w1.dirents x = some dx := ev1.dirents ▸ hx
  rcases doCopyUp_cases (w := w1) x with ⟨-, up⟩ | ⟨dx', e, l', pu, u, w0, hx', he, -, hl', hpu, made,
    -, inodes, dirents, entries, -⟩
  · simpa [World.upperOf, hx1, kept, hu] using up (by rw [last])
  simp only [last] at inodes dirents entries
  obtain rfl : dx = dx' := Option.some.inj (hx1.symm.trans hx')
  obtain rfl : p = e := Option.some.inj (kept.symm.trans he)
  obtain rfl : l = l' := Option.some.inj (hl.symm.trans hl')
  refine ⟨gp, w1, pu, u, w0, hgp, ev1, ?_, by simpa [hgp] using hpu, made, inodes, dirents, entries⟩
  simpa only [chain] using copiedFresh_copyUpLockedForRename fuel W gp inv

theorem compatible_copyUpType {s : StableAttr} {t : InodeType} (h : copyUpType s = some t)
    (dev ino : Nat) : compatible ⟨t, dev, ino⟩ s = true := by
  unfold copyUpType at h
  split_ifs at h with dir reg sym <;> cases h
  · rw [compatible, dir]; simp [isDir]
  · simp [compatible, reg]
  · simp [compatible, sym]

theorem World.SameContent.overlayHasWhiteout_eq {w w' : World} (h : w.SameContent w') (i : Ino)
    (n : String) : overlayHasWhiteout w' i n = overlayHasWhiteout w i n := by
  apply overlayHasWhiteout_eq_of
  simpa only [Option.map_map] using congrArg (Option.map Inode.whiteoutView) (h.inodes i)

theorem World.SameContent.slot_eq {w w' : World} (h : w.SameContent w') (i : Ino) (n : String) :
    w'.slot i n = w.slot i n := by
  have children : (w'.inodes i).map Inode.children = (w.inodes i).map Inode.children := by
    simpa only [Option.map_map] using congrArg (Option.map Inode.children) (h.inodes i)
  rcases h' : w'.inodes i with _ | b' <;> rcases h0 : w.inodes i with _ | b <;>
    simp_all [World.slot]

theorem World.SameContent.isSome_eq {w w' : World} (h : w.SameContent w') (i : Ino) :
    (w'.inodes i).isSome = (w.inodes i).isSome := by
  simpa using congrArg Option.isSome (h.inodes i)

theorem World.slot_of_inodes {w w' : World} {dir : Ino} (h : w'.inodes dir = w.inodes dir)
    (name : String) : w'.slot dir name = w.slot dir name := by
  simp only [World.slot, h]

theorem World.BackingOk.isDir_of_bound {w : World} (ok : w.BackingOk) {dir c : Ino}
    {name : String} (h : w.slot dir name = some (.bound c)) : isDir (w.stableOf dir) = true := by
  obtain ⟨b, hb, hc⟩ := Option.bind_eq_some.mp h
  simp [World.stableOf, hb, (ok.binds dir b hb name c hc).2]

/-! ## Lookup after copy-up -/

section Identity
variable {check : EntryCheck} {readdirOne : World → OverlayEntry → Except Errno (List String)}
  {w : World}

theorem exec_lookup_positive (readdirOne : World → OverlayEntry → Except Errno (List String))
    {parent : DirentId} {pd : Dirent} {name : String} {e : OverlayEntry} {s : StableAttr} {b : Bool}
    (hp : w.dirents parent = some pd)
    (looked : (overlayLookup check w pd.entry name).1 = .ok (.positive e s, b)) :
    (exec check readdirOne w (.lookup parent name)).2 =
      (overlayLookup check w pd.entry name).2.attach parent name e s := by
  simp only [exec, hp]
  rcases hx : overlayLookup check w pd.entry name with ⟨r, wL⟩
  rw [hx] at looked
  subst looked
  rfl

theorem attach_leaf (inv : w.Invariant) {wL : World} (chL : w.UpperChange wL) {parent : DirentId}
    {name : String} {e : OverlayEntry} {s : StableAttr} (hp : (w.dirents parent).isSome) :
    ∀ y dy, (wL.attach parent name e s).dirents y = some dy → dy.parent ≠ some w.nextDirent := by
  intro y dy hy
  by_cases same : y = w.nextDirent
  · subst same
    rw [attach_dirents, chL.nextDirent, Function.update_same] at hy
    obtain rfl := Option.some.inj hy
    simpa using inv.dirent_ne hp
  · rw [attach_dirents, chL.nextDirent, Function.update_noteq same, chL.dirents] at hy
    exact fun hpar => inv.dirent_ne (inv.parentLive y dy _ hy hpar) rfl

/-- What a lookup op that found an entry `e` leaves. -/
structure World.AfterLookup (w W : World) (parent : DirentId) (name : String) (e : OverlayEntry)
    (s : StableAttr) : Prop where
  invariant : W.Invariant
  slot : ∀ i n, W.slot i n = w.slot i n
  whiteout : ∀ i n, overlayHasWhiteout W i n = overlayHasWhiteout w i n
  live : ∀ i, (W.inodes i).isSome = (w.inodes i).isSome
  lowerFixed : ∀ i, i.layer = .lower → W.inodes i = w.inodes i
  dirents : ∀ d, d ≠ w.nextDirent → W.dirents d = w.dirents d
  entries : ∀ x, (w.entries x).isSome → W.entries x = w.entries x
  child : ∃ x, W.dirents w.nextDirent = some ⟨name, some parent, x, s⟩ ∧ W.entries x = some e
  leaf : ∀ y dy, W.dirents y = some dy → dy.parent ≠ some w.nextDirent
  nextDirent : W.nextDirent = w.nextDirent + 1

theorem exec_lookup_after (readdirOne : World → OverlayEntry → Except Errno (List String))
    (inv : w.Invariant) {parent : DirentId} {pd : Dirent} {name : String} {e : OverlayEntry}
    {s : StableAttr} {b : Bool} (hp : w.dirents parent = some pd)
    (looked : (overlayLookup check w pd.entry name).1 = .ok (.positive e s, b)) :
    w.AfterLookup (exec check readdirOne w (.lookup parent name)).2 parent name e s := by
  have chL := upperChange_overlayLookup check name inv.backing pd.entry (inv.upperLayer pd.entry)
  have sameL : w.SameContent _ := sameContent_overlayLookup check name pd.entry
  obtain ⟨inv1, -⟩ := exec_invariant check readdirOne inv (.lookup parent name)
  rw [exec_lookup_positive readdirOne hp looked] at inv1 ⊢
  generalize (overlayLookup check w pd.entry name).2 = wL at chL sameL inv1
  exact {
    invariant := inv1
    slot := sameL.slot_eq
    whiteout := sameL.overlayHasWhiteout_eq
    live := sameL.isSome_eq
    lowerFixed := chL.lowerFixed
    dirents := fun d ne => by rw [attach_dirents, chL.nextDirent, Function.update_noteq ne, chL.dirents]
    entries := fun x has => by
      rw [attach_entries, Function.update_noteq (chL.nextEntry ▸ inv.entry_ne has), chL.entries]
    child := ⟨wL.nextEntry, by rw [attach_dirents, chL.nextDirent, Function.update_same], by simp⟩
    leaf := attach_leaf inv chL (by simp [hp])
    nextDirent := by rw [attach_nextDirent, chL.nextDirent] }

theorem copyUp_leaf_merged (inv : w.Invariant) {d parent : DirentId} {dd pd : Dirent}
    {p : OverlayEntry} {pl l : Ino} {fuel : Nat} {w2 : World}
    (hd : w.dirents d = some dd) (hpar : dd.parent = some parent)
    (he : w.entries dd.entry = some ⟨none, some l, true⟩)
    (hp : w.dirents parent = some pd) (found : w.entries pd.entry = some p)
    (hpl : p.lower = some pl) (slotL : w.slot pl dd.name = some (.bound l))
    (white : ∀ pu, p.upper = some pu → overlayHasWhiteout w pu dd.name = false)
    (copied : copyUpLockedForRename fuel w d = (.ok (), w2)) :
    ∃ u, w2.upperOf d = some u ∧
      (overlayLookup check w2 pd.entry dd.name).1 =
        ruleEntry check (some u) (if isDir (w.stableOf l) then some l else none) true
          (w.stableOf l) := by
  have layer : pl.layer = .lower := inv.lowerLayer pd.entry p pl found hpl
  have lLayer : l.layer = .lower := (inv.backing.bound_layer dd.name slotL).trans layer
  obtain ⟨gp, w1, pu, u, w0, hgp, ev1, fresh1, hpu, made, inodes, dirents, entries⟩ :=
    copyUpLockedForRename_last inv hd he rfl rfl copied
  obtain rfl : gp = parent := Option.some.inj (hgp.symm.trans hpar)
  have parent_ne : gp ≠ d := fun same => copyUpLockedForRename_acyclic hd
    (by simp [World.upperOf, hd, he]) hgp _ _ copied (same ▸ .refl gp)
  have lowerFixed : ∀ i, i.layer = .lower → w2.inodes i = w.inodes i := by
    simpa only [copied] using (evolves_copyUpLockedForRename fuel w d inv).lowerFixed
  obtain ⟨p1, found1, copied1⟩ := ev1.entries pd.entry p found
  obtain ⟨bl, t, hbl, ht, livePu, freshU, hu0, slotU, views, entries0, dirents0⟩ :=
    copyUpObject_made ev1.backing made
  have hu1 : p1.upper = some pu := by simpa [World.upperOf, ev1.dirents, hp, found1] using hpu
  have dir : isDir (w.stableOf pl) = true := inv.backing.isDir_of_bound slotL
  have hl1 : p1.lower = some pl := fresh1.lowerDir pd.entry p p1 pl found found1 hpl layer dir
  have found2 : w2.entries pd.entry = some p1 := by
    rw [entries, Function.update_noteq fun same => parent_ne (inv.entryOwner gp d pd dd hp hd same),
      entries0, found1]
  have white2 : overlayHasWhiteout w2 pu dd.name = false := by
    have ne : pu ≠ u := by rintro rfl; simp [freshU] at livePu
    rw [overlayHasWhiteout_congr w0 inodes, overlayHasWhiteout_eq_of (views pu ne)]
    exact fresh1.whiteout_upper found found1 copied1 hu1 livePu white
  have stable : w2.stableOf l = w.stableOf l := by simp [World.stableOf, lowerFixed l lLayer]
  have compat : compatible (w2.stableOf u) (w2.stableOf l) = true := by
    have stableU : w2.stableOf u = ⟨t, 0, u.num⟩ := by simp [World.stableOf, inodes, hu0, Inode.fresh]
    have stableL : w2.stableOf l = bl.stable := by
      simp only [World.stableOf, lowerFixed l lLayer, ← ev1.lowerFixed l lLayer, hbl]
    rw [stableU, stableL]
    exact compatible_copyUpType ht 0 u.num
  refine ⟨u, by simp [World.upperOf, dirents, dirents0, ev1.dirents, hd, entries], ?_⟩
  rw [← stable]
  exact overlayLookup_merged check found2 hu1 hl1 (by rw [World.slot_congr inodes]; exact slotU)
    (by simp [inodes, hu0]) white2 (by rw [World.slot_of_inodes (lowerFixed pl layer)]; exact slotL)
    compat

/-- Copy-up keeps the stable identity of a lower-only object. -/
theorem copyUp_keeps_stable (inv : w.Invariant) {parent : DirentId} {pd : Dirent} {name : String}
    {e : OverlayEntry} {s : StableAttr} {b : Bool} {w2 : World}
    (hp : w.dirents parent = some pd)
    (looked : (overlayLookup check w pd.entry name).1 = .ok (.positive e s, b))
    (lowerOnly : e.upper = none)
    (copied : copyUp (exec check readdirOne w (.lookup parent name)).2 w.nextDirent = (.ok (), w2)) :
    ∃ u l, e.lower = some l ∧ w2.upperOf w.nextDirent = some u ∧
      (overlayLookup check w2 pd.entry name).1 =
        ruleEntry check (some u) (if isDir s then some l else none) true s := by
  obtain ⟨p, found⟩ := Option.isSome_iff_exists.mp (inv.direntEntry parent pd hp)
  obtain ⟨⟨pl, l, hpl, slotL, rfl, rfl⟩, upperFacts⟩ :=
    overlayLookup_lowerOnly check name found looked lowerOnly
  have after := exec_lookup_after readdirOne inv hp looked
  generalize (exec check readdirOne w (.lookup parent name)).2 = w1 at after copied
  obtain ⟨x, hd1, he1⟩ := after.child
  have layer : pl.layer = .lower := inv.lowerLayer pd.entry p pl found hpl
  have hp1 : w1.dirents parent = some pd :=
    (after.dirents parent (inv.dirent_ne (by simp [hp]))).trans hp
  have found1 : w1.entries pd.entry = some p := (after.entries _ (by simp [found])).trans found
  rw [copyUp, after.nextDirent] at copied
  obtain ⟨u, up, merged⟩ := copyUp_leaf_merged after.invariant hd1 rfl he1 hp1 found1 hpl
    (by rw [after.slot]; exact slotL) (fun pu h => by rw [after.whiteout]; exact (upperFacts pu h).1)
    copied
  have lLayer : l.layer = .lower := (inv.backing.bound_layer name slotL).trans layer
  have stable : w1.stableOf l = w.stableOf l := by
    simp only [World.stableOf, after.lowerFixed l lLayer]
  exact ⟨u, l, rfl, up, by rw [merged, stable]⟩

end Identity

/-- A mount whose upper root is empty and whose lower root holds a regular file `f`. -/
def lowerFileInodes : List (Ino × Inode) :=
  [(⟨.upper, 0⟩, Inode.fresh .directory ⟨.upper, 0⟩ "" none),
    (⟨.lower, 0⟩, { Inode.fresh .directory ⟨.lower, 0⟩ "" none with
      children := [("f", .bound ⟨.lower, 1⟩)] }),
    (⟨.lower, 1⟩, Inode.fresh .regularFile ⟨.lower, 1⟩ "" none)]

def lowerFileMount : World :=
  mount (fun i => lowerFileInodes.lookup i) lowerFileInodes.length ⟨.upper, 0⟩ ⟨.lower, 0⟩
    ⟨.directory, 0, 0⟩

theorem lowerFileMount_reach : Reach (fun _ _ _ => none) (fun _ _ => .ok []) lowerFileMount :=
  .mount _ (mountOk_of_listed (by decide) (by decide) rfl rfl)

def lowerFileCopied : World :=
  (copyUp (exec (fun _ _ _ => none) (fun _ _ => .ok []) lowerFileMount (.lookup 0 "f")).2 1).2

theorem copyUp_keeps_stable_file :
    ∃ u l, (⟨none, some ⟨.lower, 1⟩, true⟩ : OverlayEntry).lower = some l ∧
      lowerFileCopied.upperOf 1 = some u ∧
      (overlayLookup (fun _ _ _ => none) lowerFileCopied 0 "f").1 =
        ruleEntry (fun _ _ _ => none) (some u) (if isDir ⟨.regularFile, 0, 1⟩ then some l else none)
          true ⟨.regularFile, 0, 1⟩ :=
  copyUp_keeps_stable lowerFileMount_reach.invariant
    (rfl : lowerFileMount.dirents 0 = some ⟨"", none, 0, ⟨.directory, 0, 0⟩⟩)
    (by decide : (overlayLookup (fun _ _ _ => none) lowerFileMount 0 "f").1 =
      .ok (.positive ⟨none, some ⟨.lower, 1⟩, true⟩ ⟨.regularFile, 0, 1⟩, false))
    rfl
    (Prod.ext (by decide) rfl : copyUp (exec (fun _ _ _ => none) (fun _ _ => .ok []) lowerFileMount
      (.lookup 0 "f")).2 lowerFileMount.nextDirent = (.ok (), lowerFileCopied))

/-! ## What a lookup keeps referenced -/

/-- A lookup changes every count by exactly what the entry it caches owns. -/
theorem exec_lookup_holds {check : EntryCheck}
    {readdirOne : World → OverlayEntry → Except Errno (List String)} {w : World}
    (inv : w.Invariant) (parent : DirentId) (name : String) (h : Hold) :
    (exec check readdirOne w (.lookup parent name)).2.holds h =
      w.holds h + ((exec check readdirOne w (.lookup parent name)).2.entries w.nextEntry).elim 0
        fun e => e.owned h := by
  simp only [exec]
  rcases hp : w.dirents parent with _ | pd
  · simp [inv.entriesFresh _ le_rfl]
  obtain ⟨p, found⟩ := Option.isSome_iff_exists.mp (inv.direntEntry parent pd hp)
  have bal := overlayLookup_holds check name (h := h) pd.entry p found
    (inv.wellFormed _ p found).hasLayer
  have ch := upperChange_overlayLookup check name inv.backing pd.entry (inv.upperLayer pd.entry)
  simp only
  revert bal ch
  generalize overlayLookup check w pd.entry name = x
  rcases x with ⟨⟨_ | ⟨e, s⟩, b⟩ | _ | _, w1⟩ <;> intro bal ch <;> dsimp only at bal ch ⊢
  · simp [bal, Outcome.owned, Found.owned, ch.entries, inv.entriesFresh _ le_rfl]
  · simp [bal, Outcome.owned, Found.owned, ch.nextEntry, World.attach]
  all_goals simp [bal, Outcome.owned, ch.entries, inv.entriesFresh _ le_rfl]

theorem exec_lookup_holds_file :
    lowerFileMount.Invariant ∧
      (exec (fun _ _ _ => none) (fun _ _ => .ok []) lowerFileMount (.lookup 0 "f")).2.holds
          (.inode ⟨.lower, 1⟩) =
        lowerFileMount.holds (.inode ⟨.lower, 1⟩) +
          ((exec (fun _ _ _ => none) (fun _ _ => .ok []) lowerFileMount (.lookup 0 "f")).2.entries
            lowerFileMount.nextEntry).elim 0 fun e => e.owned (.inode ⟨.lower, 1⟩) :=
  ⟨lowerFileMount_reach.invariant, exec_lookup_holds lowerFileMount_reach.invariant 0 "f" _⟩

end ContainerFs.Fs
