import ContainerFs.Fs.Read
import ContainerFs.Fs.Revalidate

/-! The overlay entries of a mount over every run: each is well formed in every reachable state,
keeps its upper counterpart once it has one, and never changes `lowerExists`. So the panics on
an entry with no counterpart (in `overlayLookup`, in the read accessors and in the open of
`overlayGetFile`) are unreachable. -/

set_option autoImplicit false

namespace ContainerFs.Fs

open World

section
variable {w : World}

theorem overlayOpen_ne_panic (inv : w.Invariant) {d : DirentId} {dd : Dirent}
    (hd : w.dirents d = some dd) (flags : FileFlags) (why : String) :
    (overlayOpen w d flags).1 ≠ .panic why := by
  obtain ⟨e, he⟩ := Option.isSome_iff_exists.mp (inv.direntEntry d dd hd)
  simp only [overlayOpen, hd, he]
  rcases hr : readLayer e with i | err | why'
  · simp
  · simp
  · exact absurd hr (readLayer_ne_panic (inv.wellFormed _ e he).hasLayer why')

end

variable {check : EntryCheck} {readdirOne : World → OverlayEntry → Except Errno (List String)}
  {w : World}

/-- Every overlay entry of a reachable state is well formed. -/
theorem reach_entries_wellFormed (r : Reach check readdirOne w) :
    (∀ e o, w.entries e = some o → o.WellFormed) ∧
    (∀ w', Relation.ReflTransGen (Next check readdirOne) w w' → ∀ e o, w.entries e = some o →
      ∃ o', w'.entries e = some o' ∧ (o.upper.isSome → o'.upper.isSome) ∧
        o'.lowerExists = o.lowerExists) ∧
    (∀ d dd name why, w.dirents d = some dd → (overlayLookup check w dd.entry name).1 ≠ .panic why) ∧
    (∀ e o why, w.entries e = some o →
      readLayer o ≠ .panic why ∧ (overlayUnstableAttr w e).1 ≠ .panic why ∧
      (∀ name, (overlayGetxattr w e name).1 ≠ .panic why) ∧ (overlayListxattr w e).1 ≠ .panic why ∧
      (∀ p, (overlayCheck w e p).1 ≠ .panic why) ∧ (overlayReadlink w e).1 ≠ .panic why ∧
      (overlayGetlink w e).1 ≠ .panic why ∧ (overlayStatFS w e).1 ≠ .panic why ∧
      (overlayBoundEndpoint w e).1 ≠ .panic why) ∧
    (∀ d dd flags why, w.dirents d = some dd → (overlayOpen w d flags).1 ≠ .panic why) := by
  have inv := r.invariant
  refine ⟨inv.wellFormed, fun w' run e o found => ?_, fun d dd name why hd => ?_,
    fun e o why found => ?_, fun d dd flags why hd => overlayOpen_ne_panic inv hd flags why⟩
  · obtain ⟨o', found', copied⟩ := (advances_of_run inv run).1.entries e o found
    exact ⟨o', found', copied.upper_isSome, copied.lowerExists_eq⟩
  · obtain ⟨p, found⟩ := Option.isSome_iff_exists.mp (inv.direntEntry d dd hd)
    exact overlayLookup_ne_panic w name dd.entry p found (inv.wellFormed _ p found).hasLayer why
  · have has := (inv.wellFormed e o found).hasLayer
    exact ⟨readLayer_ne_panic has why, overlayUnstableAttr_ne_panic why found has,
      overlayGetxattr_ne_panic why found has, overlayListxattr_ne_panic why found has,
      overlayCheck_ne_panic why found has, overlayReadlink_ne_panic why found has,
      overlayGetlink_ne_panic why found has, overlayStatFS_ne_panic why found has,
      overlayBoundEndpoint_ne_panic why found has⟩

theorem reach_entries_wellFormed_renamed :
    Reach (fun _ _ _ => none) (fun _ _ => .ok []) splitRenamed ∧
      ∀ e o, splitRenamed.entries e = some o → o.WellFormed :=
  ⟨splitRenamed_reach, (reach_entries_wellFormed splitRenamed_reach).1⟩

end ContainerFs.Fs
