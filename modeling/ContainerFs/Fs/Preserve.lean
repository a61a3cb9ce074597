import ContainerFs.Fs.Invariant

/-! Every overlay operation evolves the mount's state as `World.Evolves` allows: it changes
upper inodes only, keeps the backing filesystems well formed, and changes an entry only by
copying it up after its Dirent's parent. With `World.Evolves.invariant` this carries the
invariant across each operation. -/

set_option autoImplicit false

namespace ContainerFs.Fs

open World

theorem compatible_isDir {a b : StableAttr} (h : compatible a b) : isDir a = isDir b := by
  unfold compatible at h
  rcases Bool.or_eq_true_iff.mp h with same | both
  · simp only [isDir, of_decide_eq_true same]
  · simp only [Bool.and_eq_true] at both; rw [both.1, both.2]

/-! ## `overlayLookup` -/

section Lookup
variable (check : EntryCheck) {w : World} (name : String)

theorem upperChange_lookupUpper (ok : w.BackingOk) (dir : Ino) :
    w.UpperChange (lookupUpper w dir name).2 :=
  .of_holds ok (lookupUpper_holds_only w dir name)

theorem upperChange_lookupLower (ok : w.BackingOk) (dir : Ino) (u : Option Ino) :
    w.UpperChange (lookupLower w dir u name).2 :=
  .of_holds ok (lookupLower_holds_only w dir name u)

theorem lookupLower_compatible {dir u c : Ino} {w' : World}
    (hx : lookupLower w dir (some u) name = (.ok (some c), w')) :
    compatible (w.stableOf u) (w.stableOf c) := by
  have fst := lookupLower_fst w dir name (some u)
  rw [hx] at fst
  revert fst
  rcases (w.lookup dir name).1 with c' | _ | e <;> simp [lowerStep, Option.filter]
  · rintro h rfl; exact h
  · split <;> simp

theorem upperChange_newOverlayDirent (ok : w.BackingOk) (u l : Option Ino) (le : Bool) :
    w.UpperChange (newOverlayDirent check w u l le).2 :=
  .of_holds ok (newOverlayDirent_holds_only w u l le)

theorem upperChange_withProvenance {inUpper : Bool} {x : Outcome Found × World}
    (h : w.UpperChange x.2) : w.UpperChange (withProvenance inUpper x).2 := by
  simpa using h

theorem upperChange_overlayMerge (ok : w.BackingOk) (u l : Option Ino) (neg : Bool)
    (upper : ∀ i, u = some i → i.layer = .upper)
    (compat : ∀ i j, u = some i → l = some j → compatible (w.stableOf i) (w.stableOf j)) :
    w.UpperChange (overlayMerge check w u l neg).2 := by
  rcases u with _ | u <;> rcases l with _ | l
  · exact .of_inodes ok rfl rfl rfl rfl rfl rfl
  · exact upperChange_withProvenance (upperChange_newOverlayDirent check ok _ _ _)
  · exact upperChange_withProvenance (upperChange_newOverlayDirent check ok _ _ _)
  · have steal : w.UpperChange (w.modify u fun b => { b with stable := w.stableOf l }) :=
      upperChange_modify ok (upper u rfl) _ fun b hb n i hi => by
        have same := compatible_isDir (compat u l rfl rfl)
        simp only [World.stableOf, hb] at same
        exact ⟨((ok.binds u b hb) n i hi).1, same ▸ ((ok.binds u b hb) n i hi).2⟩
    simp only [overlayMerge]
    split
    · have next := steal.trans (upperChange_release steal.backing (.inode l))
      exact upperChange_withProvenance (next.trans (upperChange_newOverlayDirent check next.backing _ _ _))
    · exact upperChange_withProvenance (steal.trans (upperChange_newOverlayDirent check steal.backing _ _ _))

theorem upperChange_overlayLookupLower (ok : w.BackingOk) (p : OverlayEntry) (u : Option Ino)
    (neg : Bool) (upper : ∀ i, u = some i → i.layer = .upper) :
    w.UpperChange (overlayLookupLower check w p name u neg).2 := by
  rcases p with ⟨pu, _ | dir, le⟩
  · exact upperChange_overlayMerge check ok u none neg upper (by simp)
  · have looked := upperChange_lookupLower name ok dir u
    simp only [overlayLookupLower]
    rcases hx : lookupLower w dir u name with ⟨_ | l, w1⟩ <;> rw [hx] at looked
    · exact looked.trans (upperChange_releaseSome looked.backing u)
    · refine looked.trans (upperChange_overlayMerge check looked.backing u l neg upper ?_)
      rintro i j rfl rfl
      rw [stableOf_congr w (by rw [← lookupLower_inodes w dir name (some i), hx])]
      exact lookupLower_compatible name hx

theorem lookupUpper_layer (ok : w.BackingOk) {dir u : Ino} {neg : Bool} {w' : World}
    (upper : dir.layer = .upper) (hx : lookupUpper w dir name = (.ok (some u, neg), w')) :
    u.layer = .upper := by
  have fst := lookupUpper_fst w dir name
  rw [hx] at fst
  have bound := upperStep_positive w dir name fst.symm
  simp only [World.slot, Option.bind_eq_some] at bound
  obtain ⟨b, hb, hu⟩ := bound
  exact ((ok.binds dir b hb) name u hu).1.trans upper

theorem upperChange_overlayLookupLocked (ok : w.BackingOk) (p : OverlayEntry)
    (upper : ∀ u, p.upper = some u → u.layer = .upper) :
    w.UpperChange (overlayLookupLocked check w p name).2 := by
  rcases p with ⟨_ | dir, pl, le⟩
  · exact upperChange_overlayLookupLower check name ok _ none false (by simp)
  · have looked := upperChange_lookupUpper name ok dir
    simp only [overlayLookupLocked]
    rcases hx : lookupUpper w dir name with ⟨_ | ⟨u, neg⟩, w1⟩ <;> rw [hx] at looked
    · exact looked
    · have layer : ∀ i, u = some i → i.layer = .upper := by
        rintro i rfl; exact lookupUpper_layer name ok (upper dir rfl) hx
      dsimp only
      split
      · refine looked.trans ?_
        rcases u with _ | u
        · exact .of_inodes looked.backing rfl rfl rfl rfl rfl rfl
        · exact upperChange_withProvenance (upperChange_newOverlayDirent check looked.backing _ _ _)
      · exact looked.trans (upperChange_overlayLookupLower check name looked.backing _ u neg layer)

theorem upperChange_overlayLookup (ok : w.BackingOk) (parent : EntryId)
    (upper : ∀ p u, w.entries parent = some p → p.upper = some u → u.layer = .upper) :
    w.UpperChange (overlayLookup check w parent name).2 := by
  unfold overlayLookup
  rcases found : w.entries parent with _ | p
  · exact .of_inodes ok rfl rfl rfl rfl rfl rfl
  have locked := (upperChange_acquire ok (.reader parent)).trans
    (upperChange_overlayLookupLocked check name (upperChange_acquire ok (.reader parent)).backing p
      (upper p · found))
  dsimp only
  split
  · exact (upperChange_acquire ok _).trans (upperChange_release (upperChange_acquire ok _).backing _)
  · revert locked
    generalize overlayLookupLocked check (w.acquire (.reader parent)) p name = x
    rcases x with ⟨_ | _ | _, w1⟩ <;> intro locked
    · exact locked.trans (upperChange_release locked.backing _)
    · exact locked.trans (upperChange_release locked.backing _)
    · exact locked

end Lookup

/-! ## The entries `overlayLookup` makes -/

/-- Entry `e`, made by a lookup under entry `p`, is well formed and on the right layers. -/
structure EntryFrom (p e : OverlayEntry) : Prop where
  wellFormed : e.WellFormed
  upper : ∀ u, e.upper = some u → u.layer = .upper ∧ p.upper.isSome
  lower : ∀ l, e.lower = some l → l.layer = .lower ∧ p.lower.isSome

section Entries
variable (check : EntryCheck) {w : World} (name : String) {p e : OverlayEntry} {s : StableAttr}

theorem newOverlayDirent_entry {u l : Option Ino} {le : Bool}
    (h : (newOverlayDirent check w u l le).1 = .ok (.positive e s)) : e = ⟨u, l, le⟩ := by
  unfold newOverlayDirent newOverlayEntry at h
  revert h
  rcases u with _ | u <;> rcases l with _ | l
  · simp
  all_goals
    rcases check _ _ le with _ | err <;> simp [overlayStable]
    exact fun same _ => same.symm

theorem withProvenance_positive {inUpper b : Bool} {x : Outcome Found × World}
    (h : (withProvenance inUpper x).1 = .ok (.positive e s, b)) : x.1 = .ok (.positive e s) := by
  rcases x with ⟨_ | _ | _, _⟩ <;> simp_all [withProvenance]

theorem overlayMerge_entry {u l : Option Ino} {neg b : Bool}
    (hu : ∀ i, u = some i → i.layer = .upper ∧ p.upper.isSome)
    (hl : ∀ j, l = some j → j.layer = .lower ∧ p.lower.isSome)
    (h : (overlayMerge check w u l neg).1 = .ok (.positive e s, b)) : EntryFrom p e := by
  rcases u with _ | u <;> rcases l with _ | l
  · simp only [overlayMerge] at h; split at h <;> simp at h
  · obtain rfl := newOverlayDirent_entry check (withProvenance_positive h)
    exact ⟨⟨by simp, fun _ => rfl⟩, by simp, by simpa using hl l rfl⟩
  · obtain rfl := newOverlayDirent_entry check (withProvenance_positive h)
    exact ⟨⟨by simp, by simp⟩, by simpa using hu u rfl, by simp⟩
  · simp only [overlayMerge] at h
    split at h <;> obtain rfl := newOverlayDirent_entry check (withProvenance_positive h)
    · exact ⟨⟨by simp, fun _ => rfl⟩, by simpa using hu u rfl, by simp⟩
    · exact ⟨⟨by simp, fun _ => rfl⟩, by simpa using hu u rfl, by simpa using hl l rfl⟩

theorem lookupLower_bound {dir c : Ino} {u : Option Ino} {w' : World}
    (hx : lookupLower w dir u name = (.ok (some c), w')) : w.slot dir name = some (.bound c) := by
  have fst := lookupLower_fst w dir name u
  rw [hx] at fst
  rcases hs : w.slot dir name with _ | (c' | _ | e) <;>
    simp [World.lookup, hs, lowerStep, Option.filter] at fst
  · rw [fst.2]
  · split at fst <;> simp_all

theorem World.BackingOk.bound_layer (ok : w.BackingOk) {dir c : Ino}
    (h : w.slot dir name = some (.bound c)) : c.layer = dir.layer := by
  simp only [World.slot, Option.bind_eq_some] at h
  obtain ⟨b, hb, hc⟩ := h
  exact ((ok.binds dir b hb) name c hc).1

theorem overlayLookupLower_entry (ok : w.BackingOk) {u : Option Ino} {neg b : Bool}
    (hu : ∀ i, u = some i → i.layer = .upper ∧ p.upper.isSome)
    (lowerLayer : ∀ d, p.lower = some d → d.layer = .lower)
    (h : (overlayLookupLower check w p name u neg).1 = .ok (.positive e s, b)) : EntryFrom p e := by
  rcases hp : p.lower with _ | dir
  · simp only [overlayLookupLower, hp] at h
    exact overlayMerge_entry check hu (by simp) h
  · simp only [overlayLookupLower, hp] at h
    rcases hx : lookupLower w dir u name with ⟨_ | l, w1⟩ <;> simp only [hx] at h
    · cases h
    · refine overlayMerge_entry check hu ?_ h
      rintro j rfl
      exact ⟨(ok.bound_layer name (lookupLower_bound name hx)).trans (lowerLayer dir hp),
        by simp [hp]⟩

theorem overlayLookupLocked_entry (ok : w.BackingOk) {b : Bool}
    (upperLayer : ∀ d, p.upper = some d → d.layer = .upper)
    (lowerLayer : ∀ d, p.lower = some d → d.layer = .lower)
    (h : (overlayLookupLocked check w p name).1 = .ok (.positive e s, b)) : EntryFrom p e := by
  rcases hp : p.upper with _ | dir
  · simp only [overlayLookupLocked, hp] at h
    exact overlayLookupLower_entry check name ok (by simp) lowerLayer h
  · simp only [overlayLookupLocked, hp] at h
    rcases hx : lookupUpper w dir name with ⟨_ | ⟨u, neg⟩, w1⟩ <;> simp only [hx] at h
    · cases h
    have ok1 := (upperChange_lookupUpper name ok dir).backing
    rw [hx] at ok1
    have hu : ∀ i, u = some i → i.layer = .upper ∧ p.upper.isSome := by
      rintro i rfl
      exact ⟨lookupUpper_layer name ok (upperLayer dir hp) hx, by simp [hp]⟩
    split at h
    · rcases u with _ | u
      · simp only [overlayLookupWhiteout] at h; split at h <;> simp at h
      · obtain rfl := newOverlayDirent_entry check (withProvenance_positive h)
        exact ⟨⟨by simp, by simp⟩, fun i hi => hu i hi, by simp⟩
    · exact overlayLookupLower_entry check name ok1 hu lowerLayer h

theorem overlayLookup_entry (inv : w.Invariant) {parent : EntryId} {b : Bool}
    (found : w.entries parent = some p)
    (h : (overlayLookup check w parent name).1 = .ok (.positive e s, b)) : EntryFrom p e := by
  simp only [overlayLookup, found] at h
  split at h
  · simp at h
  · revert h
    generalize hx : overlayLookupLocked check (w.acquire (.reader parent)) p name = x
    rcases x with ⟨_ | _ | _, w1⟩ <;> intro h
    · exact overlayLookupLocked_entry check name (w := w.acquire (.reader parent)) (b := b) (s := s)
        (upperChange_acquire inv.backing _).backing (inv.upperLayer parent p · found)
        (inv.lowerLayer parent p · found) (by rw [hx]; exact h)
    · cases h
    · cases h

end Entries

/-! ## Copy-up -/

section CopyUp
variable {w : World}

theorem upperChange_copyUpObject (ok : w.BackingOk) {dir l u : Ino} {name : String} {w' : World}
    (upper : dir.layer = .upper) (made : copyUpObject w dir name l = .ok (u, w')) :
    w.UpperChange w' ∧ u.layer = .upper := by
  obtain ⟨b, t, w1, -, -, mk, rfl⟩ := copyUpObject_ok made
  obtain ⟨ch, layer, -⟩ := upperChange_mknod ok upper mk
  exact ⟨ch.trans (upperChange_modify ch.backing layer _ fun c hc =>
    (ch.backing.binds _ c hc).congr rfl rfl), layer⟩

theorem World.Invariant.upperOf_layer (inv : w.Invariant) {d : DirentId} {u : Ino}
    (h : w.upperOf d = some u) : u.layer = .upper := by
  simp only [World.upperOf, Option.bind_eq_some] at h
  obtain ⟨dd, -, o, ho, hu⟩ := h
  exact inv.upperLayer _ o u ho hu

theorem evolves_installUpper (inv : w.Invariant) {d : DirentId} {dd : Dirent} {e : OverlayEntry}
    {u : Ino} {lower : Option Ino} (hd : w.dirents d = some dd) (he : w.entries dd.entry = some e)
    (noUpper : e.upper = none) (layer : u.layer = .upper) (lowerCases : lower = e.lower ∨ lower = none)
    (parent : ∀ p, dd.parent = some p → (w.upperOf p).isSome) :
    w.Evolves (w.setEntry dd.entry { e with upper := some u, lower := lower }) where
  backing := ⟨inv.backing.binds, inv.backing.fresh⟩
  lowerFixed _ _ := rfl
  dirents := rfl
  nextEntry := rfl
  nextDirent := rfl
  entries e' o found := by
    by_cases same : e' = dd.entry
    · subst same
      rw [Option.some.inj (found.symm.trans he)]
      exact ⟨{ e with upper := some u, lower := lower }, by simp,
        .inr ⟨noUpper, ⟨u, rfl, layer⟩, lowerCases, rfl⟩⟩
    · exact ⟨o, by simp [Function.update_noteq same, found], .inl rfl⟩
  unallocated e' free := by
    have : e' ≠ dd.entry := by rintro rfl; simp [he] at free
    simp [Function.update_noteq this, free]
  parentFirst d' dd' p hd' hp has := by
    by_cases same : dd'.entry = dd.entry
    · obtain rfl := inv.entryOwner d' d dd' dd hd' hd same
      obtain rfl : dd' = dd := Option.some.inj (hd'.symm.trans hd)
      refine .inr ?_
      have old := parent p hp
      unfold World.upperOf at old ⊢
      rcases hpd : w.dirents p with _ | pd
      · simp [hpd] at old
      · by_cases own : pd.entry = dd'.entry
        · rw [setEntry_dirents, hpd, Option.some_bind, setEntry_entries, own, Function.update_same]
          rfl
        · simpa [hpd, Function.update_noteq own] using old
    · left
      simpa [World.upperOf, hd', Function.update_noteq same] using has

theorem evolves_doCopyUp (inv : w.Invariant) (d : DirentId) : w.Evolves (doCopyUp w d).2 := by
  rcases doCopyUp_cases (w := w) d with ⟨same, -⟩ | ⟨dd, e, l, pu, u, w1, hd, he, hu, hl, hp, made, -, -,
    -, -, final⟩
  · rw [same]; exact .refl inv.backing
  obtain ⟨p, hpp, hpu⟩ := Option.bind_eq_some.mp hp
  obtain ⟨ch, layer⟩ := upperChange_copyUpObject inv.backing (inv.upperOf_layer hpu) made
  have held := ch.trans (upperChange_acquire ch.backing (.inode u))
  have hd1 : (w1.acquire (.inode u)).dirents d = some dd := held.dirents ▸ hd
  have he1 : (w1.acquire (.inode u)).entries dd.entry = some e := held.entries ▸ he
  have parent : ∀ p', dd.parent = some p' → ((w1.acquire (.inode u)).upperOf p').isSome := by
    intro p' hp'
    obtain rfl : p' = p := Option.some.inj (hp'.symm.trans hpp)
    have same : (w1.acquire (.inode u)).upperOf p' = w.upperOf p' := by
      simp only [World.upperOf, held.dirents, held.entries]
    simp [same, hpu]
  have lowerCases : (if isDir (w1.stableOf l) then some l else none) = e.lower ∨
      (if isDir (w1.stableOf l) then some l else none) = none := by
    split
    · exact .inl hl.symm
    · exact .inr rfl
  have installed := held.evolves.trans
    (evolves_installUpper (held.evolves.invariant inv) hd1 he1 hu layer lowerCases parent)
  exact installed.trans (UpperChange.of_holds installed.backing final).evolves

theorem evolves_copyUpLockedForRename (fuel : Nat) :
    ∀ (w : World) (d : DirentId), w.Invariant → w.Evolves (copyUpLockedForRename fuel w d).2 := by
  induction fuel with
  | zero => intro w d inv; exact .refl inv.backing
  | succ fuel ih =>
    intro w d inv
    rcases hd : w.dirents d with _ | dd
    · simp only [copyUpLockedForRename, hd]; exact .refl inv.backing
    rcases hu : w.upperOf d with _ | u
    swap
    · simp only [copyUpLockedForRename, hd, hu]; exact .refl inv.backing
    rcases hp : dd.parent with _ | p
    · simp only [copyUpLockedForRename, hd, hu, hp]; exact .refl inv.backing
    have rec := ih w p inv
    simp only [copyUpLockedForRename, hd, hu, hp]
    revert rec
    generalize copyUpLockedForRename fuel w p = x
    rcases x with ⟨_ | _ | _, w1⟩ <;> intro rec
    · exact rec.trans (evolves_doCopyUp (rec.invariant inv) d)
    · exact rec
    · exact rec

theorem evolves_copyUp (inv : w.Invariant) (d : DirentId) : w.Evolves (copyUp w d).2 :=
  evolves_copyUpLockedForRename _ w d inv

theorem doCopyUp_upper {d : DirentId} {w' : World} (done : doCopyUp w d = (.ok (), w')) :
    (w'.upperOf d).isSome := by
  rcases doCopyUp_cases (w := w) d with ⟨same, upper⟩ | ⟨dd, e, l, pu, u, w1, hd, -, -, -, -, made, -, -,
    dirents, entries, -⟩
  · simp only [done, true_implies] at same upper
    exact same ▸ upper
  · simp only [done] at dirents entries
    simp [World.upperOf, dirents, (copyUpObject_tree made).1, hd, entries]

theorem copyUpLockedForRename_upper (fuel : Nat) :
    ∀ (w w' : World) (d : DirentId), copyUpLockedForRename fuel w d = (.ok (), w') →
      (w'.upperOf d).isSome := by
  induction fuel with
  | zero => intro w w' d done; cases done
  | succ fuel ih =>
    intro w w' d done
    rcases hd : w.dirents d with _ | dd <;> simp only [copyUpLockedForRename, hd] at done
    · cases done
    rcases hu : w.upperOf d with _ | u <;> simp only [hu] at done
    · rcases hp : dd.parent with _ | p <;> simp only [hp] at done
      · cases done
      revert done
      generalize copyUpLockedForRename fuel w p = x
      rcases x with ⟨_ | _ | _, w1⟩ <;> intro done
      · exact doCopyUp_upper done
      · cases done
      · cases done
    · obtain ⟨-, rfl⟩ := Prod.mk.inj done
      simp [hu]

end CopyUp

/-! ## The mutating operations -/

section Mutate
variable (check : EntryCheck) {w : World}

theorem evolves_afterCopyUp {α : Type} (inv : w.Invariant) (d : DirentId) {k : World → Step α}
    (hk : ∀ w', w.Evolves w' → (w'.upperOf d).isSome → w'.Evolves (k w').2) :
    w.Evolves (afterCopyUp w d k).2 := by
  have cu := evolves_copyUp inv d
  have up : ∀ w', copyUp w d = (.ok (), w') → (w'.upperOf d).isSome :=
    fun w' => copyUpLockedForRename_upper _ w w' d
  unfold afterCopyUp
  revert cu up
  generalize copyUp w d = x
  rcases x with ⟨_ | _ | _, w1⟩ <;> intro cu up
  · exact cu.trans (hk w1 cu (up w1 rfl))
  · exact cu
  · exact cu

theorem evolves_withUpper {α : Type} (inv : w.Invariant) (d : DirentId) {k : Ino → Step α}
    (hk : ∀ u, w.upperOf d = some u → u.layer = .upper → w.Evolves (k u).2) :
    w.Evolves (withUpper w d k).2 := by
  unfold withUpper
  rcases hu : w.upperOf d with _ | u
  · exact .refl inv.backing
  · exact hk u hu (inv.upperOf_layer hu)

theorem evolves_stepOf {r : Except Errno World} (ok : w.BackingOk)
    (h : ∀ w', r = .ok w' → w.Evolves w') : w.Evolves (stepOf w r).2 := by
  cases r with
  | error e => exact .refl ok
  | ok w' => exact h w' rfl

theorem upperChange_cleanupUpper (ok : w.BackingOk) {dir : Ino} (upper : dir.layer = .upper)
    (name : String) : w.UpperChange (cleanupUpper w dir name) := by
  unfold cleanupUpper
  rcases hr : w.remove dir name with _ | w'
  · exact .of_inodes ok rfl rfl rfl rfl rfl rfl
  · exact upperChange_remove ok upper hr

theorem evolves_overlayCreate (inv : w.Invariant) (parent : DirentId) (name : String)
    (flags : FileFlags) : w.Evolves (overlayCreate check w parent name flags).2 := by
  refine evolves_afterCopyUp inv parent fun w1 ev _ => ?_
  have inv1 := ev.invariant inv
  refine evolves_withUpper inv1 parent fun ou _ upper => ?_
  rcases made : w1.create ou name with e | ⟨i, w2⟩
  · exact .refl inv1.backing
  obtain ⟨ch, -⟩ := upperChange_create inv1.backing upper made
  have held := ch.trans (upperChange_acquire ch.backing (.inode i))
  simp only [made]
  split
  · exact (held.trans (upperChange_cleanupUpper held.backing upper name)).evolves
  · exact held.evolves
  · have next := held.trans (upperChange_acquire held.backing (.inode i))
    exact (next.trans (upperChange_release next.backing _)).evolves

theorem evolves_overlayCreateUpper (inv : w.Invariant) (parent : DirentId)
    {make : World → Ino → Except Errno World}
    (hm : ∀ w' u w'', w'.BackingOk → u.layer = .upper → make w' u = .ok w'' → w'.UpperChange w'') :
    w.Evolves (overlayCreateUpper w parent make).2 :=
  evolves_afterCopyUp inv parent fun w1 ev _ =>
    evolves_withUpper (ev.invariant inv) parent fun ou _ upper =>
      evolves_stepOf (ev.invariant inv).backing fun w2 made =>
        (hm w1 ou w2 (ev.invariant inv).backing upper made).evolves

theorem evolves_overlayCreateDirectory (inv : w.Invariant) (parent : DirentId) (name : String) :
    w.Evolves (overlayCreateDirectory w parent name).2 :=
  evolves_overlayCreateUpper inv parent fun _ _ _ ok upper made => upperChange_mknod_snd ok upper made

theorem evolves_overlayCreateLink (inv : w.Invariant) (parent : DirentId) (oldname newname : String) :
    w.Evolves (overlayCreateLink w parent oldname newname).2 :=
  evolves_overlayCreateUpper inv parent fun _ _ _ ok upper made => upperChange_mknod_snd ok upper made

theorem evolves_overlayCreateFifo (inv : w.Invariant) (parent : DirentId) (name : String) :
    w.Evolves (overlayCreateFifo w parent name).2 :=
  evolves_overlayCreateUpper inv parent fun _ _ _ ok upper made => upperChange_mknod_snd ok upper made

theorem evolves_overlayCreateHardLink (inv : w.Invariant) (parent target : DirentId)
    (name : String) : w.Evolves (overlayCreateHardLink w parent target name).2 :=
  evolves_afterCopyUp inv parent fun _ ev1 _ =>
    evolves_afterCopyUp (ev1.invariant inv) target fun _ ev2 _ =>
      have inv2 := ev2.invariant (ev1.invariant inv)
      evolves_withUpper inv2 parent fun _ _ upper =>
        evolves_withUpper inv2 target fun _ _ targetUpper =>
          evolves_stepOf inv2.backing fun _ made =>
            (upperChange_createHardLink inv2.backing upper (targetUpper.trans upper.symm) made).evolves

theorem evolves_removeUpper (inv : w.Invariant) (parent : DirentId) (cd : Dirent) :
    w.Evolves (removeUpper w parent cd).2 :=
  evolves_withUpper inv parent fun _ _ upper => evolves_stepOf inv.backing fun _ made => by
    split at made
    · exact (upperChange_removeDirectory inv.backing upper made).evolves
    · exact (upperChange_remove inv.backing upper made).evolves

theorem evolves_whiteoutUpper (inv : w.Invariant) (parent : DirentId) (name : String) :
    w.Evolves (whiteoutUpper w parent name).2 :=
  evolves_withUpper inv parent fun _ _ upper => evolves_stepOf inv.backing fun _ made =>
    (upperChange_setxattr inv.backing upper made).evolves

theorem evolves_overlayRemoveLocked (inv : w.Invariant) (parent : DirentId) (cd : Dirent)
    (ce : OverlayEntry) : w.Evolves (overlayRemoveLocked w parent cd ce).2 := by
  have first : w.Evolves (if ce.upper.isSome then removeUpper w parent cd else (.ok (), w)).2 := by
    split
    · exact evolves_removeUpper inv parent cd
    · exact .refl inv.backing
  unfold overlayRemoveLocked
  revert first
  generalize (if ce.upper.isSome then removeUpper w parent cd else (.ok (), w)) = x
  rcases x with ⟨_ | _ | _, w1⟩ <;> intro first
  · dsimp only
    split
    · exact first.trans (evolves_whiteoutUpper (first.invariant inv) parent cd.name)
    · exact first
  · exact first
  · exact first

theorem evolves_overlayRemove (inv : w.Invariant) (parent child : DirentId) :
    w.Evolves (overlayRemove w parent child).2 := by
  refine evolves_afterCopyUp inv parent fun w1 ev _ => ?_
  have inv1 := ev.invariant inv
  rcases hc : w1.dirents child with _ | cd
  · simp only [hc]; exact .refl inv1.backing
  rcases he : w1.entries cd.entry with _ | ce
  · simp only [hc, he]; exact .refl inv1.backing
  simp only [hc, he]
  have held := (upperChange_acquire inv1.backing (.reader cd.entry)).evolves
  have locked := held.trans (evolves_overlayRemoveLocked (held.invariant inv1) parent cd ce)
  revert locked
  generalize overlayRemoveLocked (w1.acquire (.reader cd.entry)) parent cd ce = x
  rcases x with ⟨r, w2⟩
  exact fun locked => locked.release _

theorem evolves_overlayBind (inv : w.Invariant) (o : EntryId) (name : String) (data : Nat) :
    w.Evolves (overlayBind check w o name data).2 := by
  unfold overlayBind
  rcases he : w.entries o with _ | oe
  · exact .refl inv.backing
  have held := upperChange_acquire inv.backing (.reader o)
  refine Evolves.release ?_ _
  rcases hu : oe.upper with _ | ou
  · exact held.evolves
  rcases hb : (w.acquire (.reader o)).bind ou name data with e | ⟨i, w2⟩
  · simp only [hb]; exact held.evolves
  obtain ⟨made, -⟩ := upperChange_bind held.backing (inv.upperLayer o oe ou he hu) hb
  have inode := ((held.trans made).evolves.acquire (.inode i)).release (.dirent ou name)
  simp only [hb]
  split
  · exact inode.release _
  · exact inode
  · exact inode

theorem evolves_renameReplaced (readdirOne : World → OverlayEntry → Except Errno (List String))
    (inv : w.Invariant) (newParent : DirentId) (newName : String) (replacement : Bool) :
    w.Evolves (renameReplaced check readdirOne w newParent newName replacement).2 := by
  unfold renameReplaced
  cases replacement
  · exact .refl inv.backing
  rcases hd : w.dirents newParent with _ | np
  · simp only [hd]; exact .refl inv.backing
  have looked := (upperChange_overlayLookup check newName inv.backing np.entry
    fun p u found hu => inv.upperLayer _ p u found hu).evolves
  simp only [hd, Bool.not_true, Bool.false_eq_true, if_false]
  revert looked
  generalize overlayLookup check w np.entry newName = x
  have drop : ∀ w1 f, w.Evolves w1 → w.Evolves (dropFound w1 f) := by
    intro w1 f ev
    cases f
    · exact ev
    · exact (ev.trans (upperChange_releaseSome ev.backing _).evolves).trans
        (upperChange_releaseSome (ev.trans (upperChange_releaseSome ev.backing _).evolves).backing _).evolves
  rcases x with ⟨_ | e | why, w1⟩ <;> intro looked
  · rename_i r
    rcases r with ⟨_ | ⟨e, stable⟩, inUpper⟩
    · exact looked
    · dsimp only at looked ⊢
      split
      · split
        · exact drop w1 (.positive e stable) looked
        · split <;> exact drop w1 (.positive e stable) looked
      · exact drop w1 (.positive e stable) looked
  · dsimp only; split <;> exact looked
  · exact looked

theorem evolves_overlayRename (readdirOne : World → OverlayEntry → Except Errno (List String))
    (inv : w.Invariant) (oldParent renamed newParent : DirentId) (newName : String)
    (replacement : Bool) :
    w.Evolves (overlayRename check readdirOne w oldParent renamed newParent newName replacement).2 := by
  have replaced := evolves_renameReplaced check readdirOne inv newParent newName replacement
  unfold overlayRename
  revert replaced
  generalize renameReplaced check readdirOne w newParent newName replacement = x
  rcases x with ⟨_ | _ | _, w1⟩ <;> intro replaced
  · rename_i repl
    dsimp only
    have inv1 := replaced.invariant inv
    refine replaced.trans (evolves_afterCopyUp inv1 renamed fun w2 ev2 _ => ?_)
    refine evolves_afterCopyUp (ev2.invariant inv1) newParent fun w3 ev3 _ => ?_
    have inv3 := ev3.invariant (ev2.invariant inv1)
    rcases hr : w3.dirents renamed with _ | rd
    · exact .refl inv3.backing
    rcases ho : w3.upperOf oldParent with _ | ou
    · exact .refl inv3.backing
    rcases hn : w3.upperOf newParent with _ | nu
    · exact .refl inv3.backing
    dsimp only
    rcases made : w3.rename ou rd.name nu newName repl with e | w4
    · exact .refl inv3.backing
    have ch := upperChange_rename inv3.backing (inv3.upperOf_layer ho) (inv3.upperOf_layer hn) made
    dsimp only
    rcases w4.entries rd.entry with _ | re
    · exact ch.evolves
    · dsimp only
      split
      · exact ch.evolves.trans (evolves_stepOf ch.backing fun _ wo =>
          (upperChange_setxattr ch.backing (inv3.upperOf_layer ho) wo).evolves)
      · exact ch.evolves
  · exact replaced
  · exact replaced

theorem upperChange_setPermissions (ok : w.BackingOk) {u : Ino} (upper : u.layer = .upper)
    (perms : Nat) : w.UpperChange (w.setPermissions u perms).2 := by
  unfold World.setPermissions
  split
  · rename_i made
    refine upperChange_setAttr ok upper ?_ made
    exact fun _ => ⟨rfl, rfl⟩
  · exact .of_inodes ok rfl rfl rfl rfl rfl rfl

theorem evolves_overlaySetPermissions (inv : w.Invariant) (d : DirentId) (perms : Nat) :
    w.Evolves (overlaySetPermissions w d perms).2 := by
  have cu := evolves_copyUp inv d
  unfold overlaySetPermissions
  revert cu
  generalize copyUp w d = x
  rcases x with ⟨_ | _ | _, w1⟩ <;> intro cu
  · refine cu.trans (evolves_withUpper (cu.invariant inv) d fun u _ upper => ?_)
    exact (upperChange_setPermissions (cu.invariant inv).backing upper perms).evolves
  · exact cu
  · exact cu

theorem evolves_overlaySetAttr (inv : w.Invariant) (d : DirentId) {f : Inode → Inode}
    (keeps : ∀ b, (f b).children = b.children ∧ (f b).stable = b.stable) :
    w.Evolves (overlaySetAttr w d fun w u => w.setAttr u f).2 :=
  evolves_afterCopyUp inv d fun _ ev _ =>
    evolves_withUpper (ev.invariant inv) d fun _ _ upper =>
      evolves_stepOf (ev.invariant inv).backing fun _ made =>
        (upperChange_setAttr (ev.invariant inv).backing upper keeps made).evolves

theorem evolves_overlaySetOwner (inv : w.Invariant) (d : DirentId) (owner : Nat) :
    w.Evolves (overlaySetOwner w d owner).2 :=
  evolves_overlaySetAttr inv d fun _ => ⟨rfl, rfl⟩

theorem evolves_overlaySetTimestamps (inv : w.Invariant) (d : DirentId) (mtime : Nat) :
    w.Evolves (overlaySetTimestamps w d mtime).2 :=
  evolves_overlaySetAttr inv d fun _ => ⟨rfl, rfl⟩

theorem evolves_overlayTruncate (inv : w.Invariant) (d : DirentId) (size : Nat) :
    w.Evolves (overlayTruncate w d size).2 :=
  evolves_overlaySetAttr inv d fun _ => ⟨rfl, rfl⟩

theorem evolves_overlayWriteOut (inv : w.Invariant) (o : EntryId) :
    w.Evolves (overlayWriteOut w o).2 := by
  unfold overlayWriteOut
  split
  · exact .refl inv.backing
  · exact ((Evolves.refl inv.backing).acquire _).release _

theorem evolves_overlayOpen (ok : w.BackingOk) (d : DirentId) (flags : FileFlags) :
    w.Evolves (overlayOpen w d flags).2 := by
  unfold overlayOpen
  rcases hd : w.dirents d with _ | dd
  · simp only [hd]; exact .refl ok
  rcases he : w.entries dd.entry with _ | e
  · simp only [hd, he]; exact .refl ok
  simp only [hd, he]
  split
  · exact ((Evolves.refl ok).acquire _).release _
  · exact ((Evolves.refl ok).acquire _).release _
  · exact (Evolves.refl ok).acquire _

theorem evolves_overlayGetFile (inv : w.Invariant) (d : DirentId) (flags : FileFlags) :
    w.Evolves (overlayGetFile w d flags).2 := by
  unfold overlayGetFile
  split
  · exact evolves_afterCopyUp inv d fun _ ev _ => evolves_overlayOpen (ev.invariant inv).backing d flags
  · exact evolves_overlayOpen inv.backing d flags

end Mutate

/-! ## What a successful operation leaves behind -/

section Success
variable (check : EntryCheck) {w w' : World}

theorem afterCopyUp_ok {α : Type} {d : DirentId} {k : World → Step α} {a : α}
    (h : afterCopyUp w d k = (.ok a, w')) : ∃ w1, copyUp w d = (.ok (), w1) ∧ k w1 = (.ok a, w') := by
  unfold afterCopyUp at h
  revert h
  generalize hx : copyUp w d = x
  rcases x with ⟨_ | _ | _, w1⟩ <;> intro h
  · exact ⟨w1, rfl, h⟩
  · cases h
  · cases h

theorem withUpper_ok {α : Type} {d : DirentId} {k : Ino → Step α} {a : α}
    (h : withUpper w d k = (.ok a, w')) : ∃ u, w.upperOf d = some u ∧ k u = (.ok a, w') := by
  unfold withUpper at h
  split at h
  · exact ⟨_, ‹_›, h⟩
  · cases h

theorem stepOf_ok {r : Except Errno World} (h : stepOf w r = (.ok (), w')) : r = .ok w' := by
  cases r <;> simp_all [stepOf]

theorem copyUp_ok (inv : w.Invariant) {d : DirentId} (h : copyUp w d = (.ok (), w')) :
    w.Evolves w' ∧ (w'.upperOf d).isSome := by
  have ev := evolves_copyUp inv d
  rw [h] at ev
  exact ⟨ev, copyUpLockedForRename_upper _ w w' d h⟩

theorem overlayCreate_ok (inv : w.Invariant) {parent : DirentId} {name : String}
    {flags : FileFlags} {n : NewInode} {f : File}
    (h : overlayCreate check w parent name flags = (.ok (n, f), w')) :
    ∃ i, n.entry = ⟨some i, none, false⟩ ∧ i.layer = .upper ∧ (w'.upperOf parent).isSome := by
  obtain ⟨w1, cu, h⟩ := afterCopyUp_ok h
  obtain ⟨ev, up⟩ := copyUp_ok inv cu
  have inv1 := ev.invariant inv
  obtain ⟨ou, hou, h⟩ := withUpper_ok h
  rcases made : w1.create ou name with e | ⟨i, w2⟩ <;> simp only [made] at h
  · cases h
  obtain ⟨ch, layer⟩ := upperChange_create inv1.backing (inv1.upperOf_layer hou) made
  rcases hc : check (some i) none false with _ | e <;> simp [newOverlayEntry, hc] at h
  obtain ⟨rfl, -⟩ := h.1
  refine ⟨i, rfl, layer, ?_⟩
  rw [← h.2]
  simpa [World.upperOf, ch.entries, ch.dirents] using up

theorem overlayBind_ok (inv : w.Invariant) {o : EntryId} {oe : OverlayEntry} {name : String}
    {data : Nat} {n : NewInode} (found : w.entries o = some oe)
    (h : overlayBind check w o name data = (.ok n, w')) :
    ∃ i, n.entry = ⟨some i, none, false⟩ ∧ i.layer = .upper ∧ oe.upper.isSome ∧
      w'.entries = w.entries ∧ w'.dirents = w.dirents := by
  simp only [overlayBind, found] at h
  rcases hu : oe.upper with _ | ou <;> simp only [hu] at h
  · cases h
  have held := upperChange_acquire inv.backing (.reader o)
  rcases hb : (w.acquire (.reader o)).bind ou name data with e | ⟨i, w2⟩ <;> simp only [hb] at h
  · cases h
  obtain ⟨ch, layer⟩ := upperChange_bind held.backing (inv.upperLayer o oe ou found hu) hb
  rcases hc : check (some i) none false with _ | e <;> simp [newOverlayEntry, hc] at h
  obtain ⟨rfl, rfl⟩ := h
  exact ⟨i, rfl, layer, rfl, by simp [ch.entries], by simp [ch.dirents]⟩

theorem overlayRename_ok (readdirOne : World → OverlayEntry → Except Errno (List String))
    (inv : w.Invariant) {oldParent renamed newParent : DirentId} {newName : String}
    {replacement : Bool}
    (h : overlayRename check readdirOne w oldParent renamed newParent newName replacement =
      (.ok (), w')) :
    (w'.upperOf renamed).isSome ∧ (w'.upperOf newParent).isSome := by
  have replaced := evolves_renameReplaced check readdirOne inv newParent newName replacement
  unfold overlayRename at h
  revert h replaced
  generalize renameReplaced check readdirOne w newParent newName replacement = x
  rcases x with ⟨_ | _ | _, w1⟩ <;> intro h replaced
  · rename_i repl
    have inv1 := replaced.invariant inv
    obtain ⟨w2, cu2, h⟩ := afterCopyUp_ok h
    obtain ⟨ev2, up2⟩ := copyUp_ok inv1 cu2
    obtain ⟨w3, cu3, h⟩ := afterCopyUp_ok h
    obtain ⟨ev3, up3⟩ := copyUp_ok (ev2.invariant inv1) cu3
    have inv3 := ev3.invariant (ev2.invariant inv1)
    have up2' := ev3.upperOf_isSome up2
    rcases hr : w3.dirents renamed with _ | rd <;> simp only [hr] at h
    · cases h
    rcases ho : w3.upperOf oldParent with _ | ou <;>
      rcases hn : w3.upperOf newParent with _ | nu <;> simp only [ho, hn] at h
    · cases h
    · cases h
    · cases h
    rcases made : w3.rename ou rd.name nu newName repl with e | w4 <;> simp only [made] at h
    · cases h
    have ch := upperChange_rename inv3.backing (inv3.upperOf_layer ho) (inv3.upperOf_layer hn) made
    have tail : w3.UpperChange w' := by
      rcases he : w4.entries rd.entry with _ | re <;> simp only [he] at h
      · cases h
      split at h
      · exact ch.trans (upperChange_setxattr ch.backing (inv3.upperOf_layer ho) (stepOf_ok h))
      · obtain ⟨-, rfl⟩ := Prod.mk.inj h; exact ch
    rw [tail.upperOf_eq]
    exact ⟨up2', up3⟩
  · cases h
  · cases h

end Success

end ContainerFs.Fs
