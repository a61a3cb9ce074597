import ContainerFs.Fs.Identity

/-! What a lookup sees after `overlayRemove`: nothing or a negative Dirent, unless the removed upper
object shadowed a lower one of another type, which then comes back. Every other name of the
parent looks up as before. -/

set_option autoImplicit false

namespace ContainerFs.Fs

open World

/-! ## Names stay bound to existing inodes -/

section SlotsLive
variable {w w' : World}

theorem World.SlotsLive.of_grow (live : w.SlotsLive)
    (grow : ∀ i, (w.inodes i).isSome → (w'.inodes i).isSome)
    (slots : ∀ dir b' n c, w'.inodes dir = some b' → b'.children.get n = some (.bound c) →
      (w'.inodes c).isSome ∨ ∃ b, w.inodes dir = some b ∧ b.children.get n = some (.bound c)) :
    w'.SlotsLive := by
  intro dir b' n c hb hc
  rcases slots dir b' n c hb hc with new | ⟨b, hb0, hc0⟩
  · exact new
  · exact grow c (live dir b n c hb0 hc0)

theorem World.SlotsLive.of_inodes (live : w.SlotsLive) (same : w'.inodes = w.inodes) : w'.SlotsLive := by
  intro dir b n c hb hc
  rw [same] at hb ⊢
  exact live dir b n c hb hc

theorem World.SlotsLive.of_slot (live : w.SlotsLive) (slot : ∀ i n, w'.slot i n = w.slot i n)
    (isSome : ∀ i, (w'.inodes i).isSome = (w.inodes i).isSome) : w'.SlotsLive := by
  intro dir b n c hb hc
  have bound : w'.slot dir n = some (.bound c) := by simp [World.slot, hb, hc]
  obtain ⟨b0, hb0, hc0⟩ := Option.bind_eq_some.mp ((slot dir n).symm.trans bound)
  rw [isSome]
  exact live dir b0 n c hb0 hc0

theorem World.SlotsLive.setInode (live : w.SlotsLive) {i : Ino} {b b' : Inode}
    (hb : w.inodes i = some b)
    (sub : ∀ n c, b'.children.get n = some (.bound c) →
      b.children.get n = some (.bound c) ∨ ((w.setInode i b').inodes c).isSome) :
    (w.setInode i b').SlotsLive := by
  refine live.of_grow (fun j hj => ?_) fun dir b2 n c hb2 hc => ?_
  · by_cases same : j = i
    · subst same; simp
    · simpa [Function.update_noteq same] using hj
  · by_cases same : dir = i
    · subst same
      simp only [setInode_inodes, Function.update_same, Option.some.injEq] at hb2
      subst hb2
      rcases sub n c hc with old | new
      · exact .inr ⟨b, hb, old⟩
      · exact .inl new
    · simp only [setInode_inodes, Function.update_noteq same] at hb2
      exact .inr ⟨b2, hb2, hc⟩

theorem World.SlotsLive.modify (live : w.SlotsLive) (i : Ino) {f : Inode → Inode}
    (children : ∀ b, (f b).children = b.children) : (w.modify i f).SlotsLive := by
  unfold World.modify
  rcases hb : w.inodes i with _ | b
  · exact live
  · exact live.setInode hb fun n c hc => .inl (by rwa [children] at hc)

theorem World.SlotsLive.copyUpObject (live : w.SlotsLive) {dir l u : Ino} {name : String}
    (made : copyUpObject w dir name l = .ok (u, w')) : w'.SlotsLive := by
  obtain ⟨b, t, w1, -, -, mk, rfl⟩ := copyUpObject_ok made
  obtain ⟨bd, hbd, -, rfl, rfl⟩ := World.mknod_spec mk
  refine World.SlotsLive.modify ?_ _ fun _ => rfl
  refine live.of_grow (fun j hj => ?_) fun d b2 n c hb2 hc => ?_
  · simp only [setInode_inodes, Function.update_apply]
    split_ifs <;> simp_all
  · simp only [setInode_inodes, Function.update_apply] at hb2 ⊢
    split_ifs at hb2 with h1 h2
    · cases hb2
      simp [Inode.fresh, Assoc.get] at hc
    · cases hb2
      by_cases same : n = name
      · subst same
        simp only [Assoc.get_set, if_true, Option.some.injEq, Slot.bound.injEq] at hc
        subst hc
        exact .inl (by simp)
      · simp only [Assoc.get_set, Ne.symm same, if_false] at hc
        exact .inr ⟨bd, h2 ▸ hbd, hc⟩
    · exact .inr ⟨b2, hb2, hc⟩

theorem World.SlotsLive.doCopyUp (live : w.SlotsLive) (x : DirentId) : (doCopyUp w x).2.SlotsLive := by
  rcases doCopyUp_cases (w := w) x with ⟨same, -⟩ | ⟨_, _, _, _, _, w0, -, -, -, -, -, made, -,
    inodes, -, -, -⟩
  · rw [same]; exact live
  · exact (live.copyUpObject made).of_inodes inodes

theorem World.SlotsLive.copyUpLockedForRename (fuel : Nat) :
    ∀ (w : World) (d : DirentId), w.SlotsLive → (copyUpLockedForRename fuel w d).2.SlotsLive := by
  induction fuel with
  | zero => intro w _ live; exact live
  | succ fuel ih =>
    intro w d live
    rcases hd : w.dirents d with _ | dd
    · simp only [ContainerFs.Fs.copyUpLockedForRename, hd]; exact live
    rcases hu : w.upperOf d with _ | u
    swap
    · simp only [ContainerFs.Fs.copyUpLockedForRename, hd, hu]; exact live
    rcases hp : dd.parent with _ | p
    · simp only [ContainerFs.Fs.copyUpLockedForRename, hd, hu, hp]; exact live
    have rec := ih w p live
    simp only [ContainerFs.Fs.copyUpLockedForRename, hd, hu, hp]
    revert rec
    generalize ContainerFs.Fs.copyUpLockedForRename fuel w p = r
    rcases r with ⟨_ | _ | _, w1⟩ <;> intro rec
    · exact rec.doCopyUp d
    · exact rec
    · exact rec

end SlotsLive

/-! ## What a removal changes -/

namespace World

/-- What `overlayRemove` may do to the parent's upper directory `pu` and the name. -/
structure RemovedAt (w w' : World) (pu : Ino) (name : String) (erased whited : Bool) : Prop where
  other : ∀ i, i ≠ pu → w'.inodes i = w.inodes i
  live : (w.inodes pu).isSome → (w'.inodes pu).isSome
  stable : w'.stableOf = w.stableOf
  entries : w'.entries = w.entries
  dirents : w'.dirents = w.dirents
  slot : ∀ n, n ≠ name → w'.slot pu n = w.slot pu n
  whiteout : ∀ n, n ≠ name → overlayHasWhiteout w' pu n = overlayHasWhiteout w pu n
  slotName : w'.slot pu name = if erased then none else w.slot pu name
  whiteoutName : overlayHasWhiteout w' pu name = (whited || overlayHasWhiteout w pu name)

variable {w w' w'' : World} {pu : Ino} {name : String}

theorem RemovedAt.of_inodes (same : w'.inodes = w.inodes) (entries : w'.entries = w.entries)
    (dirents : w'.dirents = w.dirents) : w.RemovedAt w' pu name false false where
  other _ _ := by rw [same]
  live h := by rwa [same]
  stable := stableOf_congr w same
  entries := entries
  dirents := dirents
  slot _ _ := by rw [slot_congr same]
  whiteout _ _ := by rw [overlayHasWhiteout_congr w same]
  slotName := by rw [slot_congr same]; rfl
  whiteoutName := by rw [overlayHasWhiteout_congr w same]; rfl

theorem RemovedAt.trans {e₁ h₁ e₂ h₂ : Bool} (h : w.RemovedAt w' pu name e₁ h₁)
    (h' : w'.RemovedAt w'' pu name e₂ h₂) : w.RemovedAt w'' pu name (e₁ || e₂) (h₁ || h₂) where
  other i ne := (h'.other i ne).trans (h.other i ne)
  live l := h'.live (h.live l)
  stable := h'.stable.trans h.stable
  entries := h'.entries.trans h.entries
  dirents := h'.dirents.trans h.dirents
  slot n ne := (h'.slot n ne).trans (h.slot n ne)
  whiteout n ne := (h'.whiteout n ne).trans (h.whiteout n ne)
  slotName := by rw [h'.slotName, h.slotName]; cases e₁ <;> cases e₂ <;> rfl
  whiteoutName := by rw [h'.whiteoutName, h.whiteoutName]; cases h₁ <;> cases h₂ <;> simp

theorem RemovedAt.erase {b : Inode} (hb : w.inodes pu = some b) :
    w.RemovedAt (w.setInode pu { b with children := b.children.erase name }) pu name true false where
  other i ne := by simp [Function.update_noteq ne]
  live _ := by simp
  stable := by
    funext i
    by_cases same : i = pu
    · subst same; simp [World.stableOf, hb]
    · simp [World.stableOf, Function.update_noteq same]
  entries := rfl
  dirents := rfl
  slot n ne := by simp [World.slot, hb, Ne.symm ne]
  whiteout n _ := by apply overlayHasWhiteout_eq_of; simp [hb, Inode.whiteoutView]
  slotName := by simp [World.slot]
  whiteoutName := by
    rw [overlayHasWhiteout_eq_of (w := w) (by simp [hb, Inode.whiteoutView]) name]
    rfl

end World

theorem World.live_fault {w : World} {i : Ino} {b : Inode} (h : w.live i = .ok b) :
    b.fault = none := by
  unfold World.live at h
  split at h
  · cases h
  · split at h
    · cases h
    · cases h; assumption

section Calls
variable {w w' : World} {parent : DirentId}

end Calls

/-! ## The lookup from the backing answers -/

section Outcomes
variable {check : EntryCheck} {s s' : Ino → StableAttr}

theorem ruleEntry_positive {u l : Option Ino} {le : Bool} {st st' : StableAttr} {e : OverlayEntry}
    {b : Bool} (h : ruleEntry check u l le st = .ok (.positive e st', b)) : e = ⟨u, l, le⟩ := by
  unfold ruleEntry at h
  split at h <;> cases h
  rfl

theorem ruleMerge_positive {u : Option Ino} {neg : Bool} {lo : Option Looked} {e : OverlayEntry}
    {st : StableAttr} {b : Bool} (h : ruleMerge check s u neg lo = .ok (.positive e st, b)) :
    e.upper = u ∧ lo.bind Looked.failure = none := by
  unfold ruleMerge at h
  rcases clean : lo.bind Looked.failure with _ | f <;> simp only [clean] at h
  · refine ⟨?_, rfl⟩
    split at h
    · cases neg <;> cases h
    all_goals obtain rfl := ruleEntry_positive h; simp_all
  · cases h

theorem whiteoutOutcome_positive {u : Option Ino} {neg : Bool} {e : OverlayEntry} {st : StableAttr}
    {b : Bool} (h : whiteoutOutcome check s u neg = .ok (.positive e st, b)) :
    ∃ u', u = some u' ∧ e = ⟨some u', none, false⟩ := by
  rw [whiteoutOutcome_eq] at h
  rcases u with _ | u'
  · simp [ruleAbsent] at h
    split at h <;> cases h
  · exact ⟨u', rfl, ruleEntry_positive h⟩

end Outcomes

section Answers
variable (check : EntryCheck) {w : World}

theorem World.SlotsLive.bound {dir c : Ino} {name : String} (live : w.SlotsLive)
    (h : w.slot dir name = some (.bound c)) : (w.inodes c).isSome := by
  obtain ⟨b, hb, hc⟩ := Option.bind_eq_some.mp h
  exact live dir b name c hb hc

theorem overlayLookup_fst_upper (live : w.SlotsLive) {parent : EntryId} {p : OverlayEntry}
    {pu : Ino} (name : String) (found : w.entries parent = some p) (hu : p.upper = some pu)
    {u : Option Ino} {neg : Bool} (step : upperStep (w.lookup pu name).1 = .ok (u, neg)) :
    (overlayLookup check w parent name).1 =
      if overlayHasWhiteout w pu name then whiteoutOutcome check w.stableOf u neg
      else ruleMerge check w.stableOf u neg (p.lower.map fun d => (w.lookup d name).1) := by
  have same := World.acquire_inodes (w := w) (h := .reader parent)
  rw [overlayLookup_fst w name parent p found (by simp [hu]),
    overlayLookupLocked_fst (w.acquire (.reader parent)) name p fun _ _ _ bound => live.bound bound]
  simp only [stableOf_acquire, World.lookup_fst_congr same, overlayHasWhiteout_congr w same, hu,
    step, lowerOutcome_eq_ruleMerge]

theorem overlayLookup_fst_upper_error (live : w.SlotsLive) {parent : EntryId} {p : OverlayEntry}
    {pu : Ino} (name : String) (found : w.entries parent = some p) (hu : p.upper = some pu)
    {e : Errno} (step : upperStep (w.lookup pu name).1 = .error e) :
    (overlayLookup check w parent name).1 = .err e := by
  have same := World.acquire_inodes (w := w) (h := .reader parent)
  rw [overlayLookup_fst w name parent p found (by simp [hu]),
    overlayLookupLocked_fst (w.acquire (.reader parent)) name p fun _ _ _ bound => live.bound bound]
  simp only [World.lookup_fst_congr same, hu, step]

theorem overlayLookup_fst_lower {parent : EntryId} {p : OverlayEntry} {pl : Ino} (name : String)
    (found : w.entries parent = some p) (hu : p.upper = none) (hl : p.lower = some pl) :
    (overlayLookup check w parent name).1 =
      ruleMerge check w.stableOf none false (some (w.lookup pl name).1) := by
  have same := World.acquire_inodes (w := w) (h := .reader parent)
  rw [overlayLookup_fst w name parent p found (by simp [hl]),
    overlayLookupLocked_fst (w.acquire (.reader parent)) name p fun _ _ h => by simp [hu] at h]
  simp only [stableOf_acquire, World.lookup_fst_congr same, hu, hl, lowerOutcome_eq_ruleMerge,
    Option.map_some']

theorem upperStep_some_slot {dir u : Ino} {name : String} {neg : Bool}
    (h : upperStep (w.lookup dir name).1 = .ok (some u, neg)) : w.slot dir name = some (.bound u) := by
  rcases hs : w.slot dir name with _ | (c | _ | e) <;> simp [World.lookup, hs, upperStep] at h ⊢
  · exact h.1
  · split at h <;> simp at h

theorem upperStep_erased {dir : Ino} {name : String} (h : w.slot dir name = none) :
    upperStep (w.lookup dir name).1 = .ok (none, false) := by
  simp [World.lookup, h, upperStep]

end Answers

theorem World.slot_of_positive {w : World} {dir l : Ino} {name : String}
    (h : (w.lookup dir name).1.positive? = some l) : w.slot dir name = some (.bound l) := by
  rcases hs : w.slot dir name with _ | (c | _ | e) <;> simp [World.lookup, hs, Looked.positive?] at h
  rw [h]

section Hides
variable {check : EntryCheck} {W W' : World} {pe : EntryId} {p : OverlayEntry} {pu : Ino}
  {name : String}

theorem overlayLookup_positive_upper (live : W.SlotsLive) {e : OverlayEntry} {s : StableAttr}
    {b : Bool} (found : W.entries pe = some p) (hu : p.upper = some pu)
    (looked : (overlayLookup check W pe name).1 = .ok (.positive e s, b)) :
    (∃ neg, upperStep (W.lookup pu name).1 = .ok (e.upper, neg)) ∧
      (overlayHasWhiteout W pu name = false →
        (p.lower.map fun d => (W.lookup d name).1).bind Looked.failure = none) := by
  rcases hstep : upperStep (W.lookup pu name).1 with err | ⟨u, neg⟩
  · rw [overlayLookup_fst_upper_error check live name found hu hstep] at looked
    cases looked
  rw [overlayLookup_fst_upper check live name found hu hstep] at looked
  by_cases white : overlayHasWhiteout W pu name = true
  · simp only [white, if_true] at looked
    obtain ⟨u', rfl, rfl⟩ := whiteoutOutcome_positive looked
    exact ⟨⟨neg, rfl⟩, fun h => by simp [white] at h⟩
  · simp only [white, if_false] at looked
    obtain ⟨rfl, clean⟩ := ruleMerge_positive looked
    exact ⟨⟨neg, rfl⟩, fun _ => clean⟩

end Hides

section Remove
variable {check : EntryCheck} {readdirOne : World → OverlayEntry → Except Errno (List String)}
  {w : World}

end Remove

end ContainerFs.Fs
