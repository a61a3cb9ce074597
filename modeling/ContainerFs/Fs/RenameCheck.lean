import ContainerFs.Fs.Mount
import ContainerFs.Fs.Refs

/-! The check at the head of `overlayRename`: when the rename replaces a name that resolves to a
directory with children, it is refused before anything is copied up. What a lookup may change is
the stable attributes it steals onto an upper match and reference counts; nothing else of either
layer or of the overlay entries. -/

set_option autoImplicit false

namespace ContainerFs.Fs

/-- An inode with its stable attributes cleared. -/
def Inode.dropStable (b : Inode) : Inode := { b with stable := ⟨.regularFile, 0, 0⟩ }

namespace World

/-- `w'` is `w` up to reference counts and stable attributes. -/
structure SameContent (w w' : World) : Prop where
  inodes : ∀ i, (w'.inodes i).map Inode.dropStable = (w.inodes i).map Inode.dropStable
  entries : w'.entries = w.entries
  dirents : w'.dirents = w.dirents

variable {w w' w'' : World}

theorem SameContent.trans (h : w.SameContent w') (h' : w'.SameContent w'') : w.SameContent w'' :=
  ⟨fun i => (h'.inodes i).trans (h.inodes i), h'.entries.trans h.entries,
    h'.dirents.trans h.dirents⟩

theorem SameContent.of_holds (h : w' = { w with holds := w'.holds }) : w.SameContent w' := by
  rw [h]; exact ⟨fun _ => rfl, rfl, rfl⟩

theorem sameContent_release (k : Hold) : w.SameContent (w.release k) := .of_holds rfl

theorem sameContent_releaseSome (o : Option Ino) : w.SameContent (w.releaseSome o) := by
  cases o <;> exact .of_holds rfl

theorem sameContent_steal (u : Ino) (s : StableAttr) :
    w.SameContent (w.modify u fun b => { b with stable := s }) := by
  unfold modify
  rcases hu : w.inodes u with _ | b
  · exact .of_holds rfl
  refine ⟨fun i => ?_, rfl, rfl⟩
  by_cases same : i = u
  · subst same; simp [hu, Inode.dropStable]
  · simp [Function.update_noteq same]

end World

open World

section Lookup
variable (check : EntryCheck) {w : World} (name : String)

theorem sameContent_newOverlayDirent (u l : Option Ino) (le : Bool) :
    w.SameContent (newOverlayDirent check w u l le).2 :=
  .of_holds (newOverlayDirent_holds_only w u l le)

theorem sameContent_withProvenance {inUpper : Bool} {x : Outcome Found × World}
    (h : w.SameContent x.2) : w.SameContent (withProvenance inUpper x).2 := by
  simpa using h

theorem sameContent_overlayMerge (u l : Option Ino) (neg : Bool) :
    w.SameContent (overlayMerge check w u l neg).2 := by
  rcases u with _ | u <;> rcases l with _ | l
  · exact .of_holds rfl
  · exact sameContent_withProvenance (sameContent_newOverlayDirent check _ _ _)
  · exact sameContent_withProvenance (sameContent_newOverlayDirent check _ _ _)
  · have steal := sameContent_steal (w := w) u (w.stableOf l)
    simp only [overlayMerge]
    split
    · exact sameContent_withProvenance ((steal.trans (sameContent_release _)).trans
        (sameContent_newOverlayDirent check _ _ _))
    · exact sameContent_withProvenance (steal.trans (sameContent_newOverlayDirent check _ _ _))

theorem sameContent_overlayLookupLower (p : OverlayEntry) (u : Option Ino) (neg : Bool) :
    w.SameContent (overlayLookupLower check w p name u neg).2 := by
  rcases p with ⟨pu, _ | dir, le⟩
  · exact sameContent_overlayMerge check u none neg
  · have looked : w.SameContent (lookupLower w dir u name).2 :=
      .of_holds (lookupLower_holds_only w dir name u)
    simp only [overlayLookupLower]
    rcases hx : lookupLower w dir u name with ⟨_ | l, w1⟩ <;> rw [hx] at looked
    · exact looked.trans (sameContent_releaseSome u)
    · exact looked.trans (sameContent_overlayMerge check u l neg)

theorem sameContent_overlayLookupLocked (p : OverlayEntry) :
    w.SameContent (overlayLookupLocked check w p name).2 := by
  rcases p with ⟨_ | dir, pl, le⟩
  · exact sameContent_overlayLookupLower check name _ none false
  · have looked : w.SameContent (lookupUpper w dir name).2 :=
      .of_holds (lookupUpper_holds_only w dir name)
    simp only [overlayLookupLocked]
    rcases hx : lookupUpper w dir name with ⟨_ | ⟨u, neg⟩, w1⟩ <;> rw [hx] at looked
    · exact looked
    · dsimp only
      split
      · refine looked.trans ?_
        rcases u with _ | u
        · exact .of_holds rfl
        · exact sameContent_withProvenance (sameContent_newOverlayDirent check _ _ _)
      · exact looked.trans (sameContent_overlayLookupLower check name _ u neg)

theorem sameContent_overlayLookup (parent : EntryId) :
    w.SameContent (overlayLookup check w parent name).2 := by
  unfold overlayLookup
  rcases found : w.entries parent with _ | p
  · exact .of_holds rfl
  have locked := (sameContent_overlayLookupLocked check (w := w.acquire (.reader parent)) name p)
  dsimp only
  split
  · exact .of_holds rfl
  · revert locked
    generalize overlayLookupLocked check (w.acquire (.reader parent)) p name = x
    rcases x with ⟨_ | _ | _, w1⟩ <;> intro locked
    · exact (SameContent.of_holds rfl).trans (locked.trans (sameContent_release _))
    · exact (SameContent.of_holds rfl).trans (locked.trans (sameContent_release _))
    · exact (SameContent.of_holds rfl).trans locked

theorem overlayLookup_ok_parent {parent : EntryId} {r : Found × Bool}
    (h : (overlayLookup check w parent name).1 = .ok r) :
    ∃ p, w.entries parent = some p ∧ (p.upper.isSome ∨ p.lower.isSome) := by
  unfold overlayLookup at h
  rcases found : w.entries parent with _ | p <;> simp only [found] at h
  · cases h
  refine ⟨p, rfl, ?_⟩
  by_contra none
  simp only [Option.isSome_iff_ne_none, ne_eq, not_or, not_not] at none
  simp [none] at h

end Lookup

section Rename
variable {check : EntryCheck} {readdirOne : World → OverlayEntry → Except Errno (List String)}
  {w : World}

/-- A rename onto a non-empty directory fails with `ENOTEMPTY` and changes nothing. -/
theorem overlayRename_rejects_nonempty {oldParent renamed newParent : DirentId} {newName : String}
    {np : Dirent} {e : OverlayEntry} {s : StableAttr} {b : Bool} {c : String} {cs : List String}
    (hd : w.dirents newParent = some np)
    (looked : (overlayLookup check w np.entry newName).1 = .ok (.positive e s, b))
    (dir : isDir s = true)
    (children : readdirOne (overlayLookup check w np.entry newName).2 e = .ok (c :: cs)) :
    (overlayRename check readdirOne w oldParent renamed newParent newName true).1 = .err .ENOTEMPTY ∧
      w.SameContent (overlayRename check readdirOne w oldParent renamed newParent newName true).2 ∧
      (overlayRename check readdirOne w oldParent renamed newParent newName true).2.holds =
        w.holds := by
  obtain ⟨p, pe, hasLayer⟩ := overlayLookup_ok_parent check newName looked
  have balanced : (renameReplaced check readdirOne w newParent newName true).2.holds = w.holds :=
    renameReplaced_holds readdirOne newParent newName true np p hd pe hasLayer
  have refused : renameReplaced check readdirOne w newParent newName true =
      (.err .ENOTEMPTY, dropFound (overlayLookup check w np.entry newName).2 (.positive e s)) := by
    rcases hx : overlayLookup check w np.entry newName with ⟨r, w1⟩
    rw [hx] at looked children
    subst looked
    simp [renameReplaced, hd, hx, dir, children]
  rw [refused] at balanced
  simp only [overlayRename, refused]
  exact ⟨trivial, (sameContent_overlayLookup check newName np.entry).trans
    ((sameContent_releaseSome _).trans (sameContent_releaseSome _)), balanced⟩

theorem overlayRename_rejects_nonempty_merged :
    (overlayRename (fun _ _ _ => none) (fun _ _ => .ok ["x"]) splitMount 0 0 0 "m" true).1 =
        .err .ENOTEMPTY ∧
      splitMount.SameContent
        (overlayRename (fun _ _ _ => none) (fun _ _ => .ok ["x"]) splitMount 0 0 0 "m" true).2 ∧
      (overlayRename (fun _ _ _ => none) (fun _ _ => .ok ["x"]) splitMount 0 0 0 "m" true).2.holds =
        splitMount.holds :=
  overlayRename_rejects_nonempty (rfl : splitMount.dirents 0 = some ⟨"", none, 0, ⟨.directory, 0, 0⟩⟩)
    (by decide : (overlayLookup (fun _ _ _ => none) splitMount 0 "m").1 =
      .ok (.positive ⟨some ⟨.upper, 1⟩, some ⟨.lower, 1⟩, true⟩ ⟨.directory, 0, 1⟩, true))
    (by decide) rfl

end Rename

end ContainerFs.Fs
