import ContainerFs.Fs.Lookup

/-! The read accessors of an overlay inode, each on its upper counterpart when it has one and its
lower one otherwise, under the entry's read lock. No overlay is stacked on another, so
`overlayBoundEndpoint` never recurses. -/

set_option autoImplicit false

namespace ContainerFs.Fs

/-- Modelled from the spec: `linux.OVERLAYFS_SUPER_MAGIC`, declared outside src/. -/
def overlayfsSuperMagic : Nat := 0x794c7630

/-- The shape the read accessors share, under the entry's read lock. -/
def overlayRead {α : Type} (w : World) (o : EntryId) (f : World → Ino → Outcome α × World) :
    Outcome α × World :=
  match w.entries o with
  | none => (.panic "nil dereference of overlayEntry", w)
  | some e =>
    let w := w.acquire (.reader o)
    match readLayer e with
    | .ok i =>
      match f w i with
      | (.panic why, w) => (.panic why, w)
      | (r, w) => (r, w.release (.reader o))
    | .err err => (.err err, w.release (.reader o))
    | .panic why => (.panic why, w)

section
variable (w : World) (o : EntryId)

def overlayUnstableAttr : Outcome UnstableAttr × World :=
  overlayRead w o fun w i => (.ofExcept (w.unstableAttr i), w)

/-- `overlayGetxattr`, whose filter asks whether `name` is a prefix of the reserved namespace. -/
def overlayGetxattr (name : String) : Outcome String × World :=
  if hasPrefix xattrOverlayPrefix name then (.err .ENODATA, w)
  else overlayRead w o fun w i => (.ofExcept (w.getxattr i name), w)

/-- `overlayListxattr`, with the same filter as `overlayGetxattr` on every listed name. -/
def overlayListxattr : Outcome (List String) × World :=
  overlayRead w o fun w i =>
    (.ofExcept ((w.listxattr i).map fun names =>
      names.filter fun name => !hasPrefix xattrOverlayPrefix name), w)

def overlayReadlink : Outcome String × World :=
  overlayRead w o fun w i => (.ofExcept (w.readlink i), w)

def overlayStatFS : Outcome Info × World :=
  overlayRead w o fun w i =>
    (.ofExcept ((w.statFS i).map fun info => { info with type := overlayfsSuperMagic }), w)

/-- `overlayGetlink`: the Dirent the backing inode resolves to is dropped, with `EACCES`. -/
def overlayGetlink : Outcome Unit × World :=
  overlayRead w o fun w i =>
    match w.getlink i with
    | (.ok _, w) => (.err .EACCES, w.release (.link i))
    | (.error e, w) => (.err e, w)

def overlayBoundEndpoint : Outcome (Option Nat) × World :=
  overlayRead w o fun w i => (.ok (w.boundEndpoint i), w)

/-- `overlayCheck`: on a lower-only entry a write check becomes a read check. -/
def overlayCheck (p : PermMask) : Outcome Unit × World :=
  match w.entries o with
  | none => (.panic "nil dereference of overlayEntry", w)
  | some e =>
    let w := w.acquire (.reader o)
    match e.upper, e.lower with
    | some u, _ => (.ofExcept (w.check u p), w.release (.reader o))
    | none, some l =>
      let p := if p.write then { p with write := false, read := true } else p
      (.ofExcept (w.check l p), w.release (.reader o))
    | none, none => (.panic "nil dereference of lower", w)

end

/-! ## No panic on an entry with a counterpart -/

section NoPanic
variable {w : World} {o : EntryId} {e : OverlayEntry} (why : String)
  (found : w.entries o = some e) (has : e.upper.isSome ∨ e.lower.isSome)
include found has

theorem overlayRead_ne_panic {α : Type} {f : World → Ino → Outcome α × World}
    (hf : ∀ w i, (f w i).1 ≠ .panic why) : (overlayRead w o f).1 ≠ .panic why := by
  simp only [overlayRead, found]
  rcases hr : readLayer e with i | err | why'
  · rcases hx : f (w.acquire (.reader o)) i with ⟨_ | _ | _, w1⟩
    · simp [hx]
    · simp [hx]
    · simp only [hx]
      exact fun same => hf _ i (by rw [hx]; exact same)
  · simp
  · exact absurd hr (readLayer_ne_panic has why')

theorem overlayUnstableAttr_ne_panic : (overlayUnstableAttr w o).1 ≠ .panic why :=
  overlayRead_ne_panic why found has fun _ _ => Outcome.ofExcept_ne_panic _ why

theorem overlayGetxattr_ne_panic (name : String) : (overlayGetxattr w o name).1 ≠ .panic why := by
  unfold overlayGetxattr
  split
  · simp
  · exact overlayRead_ne_panic why found has fun _ _ => Outcome.ofExcept_ne_panic _ why

theorem overlayListxattr_ne_panic : (overlayListxattr w o).1 ≠ .panic why :=
  overlayRead_ne_panic why found has fun _ _ => Outcome.ofExcept_ne_panic _ why

theorem overlayReadlink_ne_panic : (overlayReadlink w o).1 ≠ .panic why :=
  overlayRead_ne_panic why found has fun _ _ => Outcome.ofExcept_ne_panic _ why

theorem overlayStatFS_ne_panic : (overlayStatFS w o).1 ≠ .panic why :=
  overlayRead_ne_panic why found has fun _ _ => Outcome.ofExcept_ne_panic _ why

theorem overlayGetlink_ne_panic : (overlayGetlink w o).1 ≠ .panic why :=
  overlayRead_ne_panic why found has fun w i => by
    rcases w.getlink i with ⟨_ | _, _⟩ <;> simp

theorem overlayBoundEndpoint_ne_panic : (overlayBoundEndpoint w o).1 ≠ .panic why :=
  overlayRead_ne_panic why found has fun _ _ => by simp

theorem overlayCheck_ne_panic (p : PermMask) : (overlayCheck w o p).1 ≠ .panic why := by
  rcases e with ⟨_ | u, _ | l, le⟩ <;> simp_all [overlayCheck]

end NoPanic

/-! ## Listing and reading extended attributes agree -/

theorem Assoc.get_isSome_iff {β : Type} {k : String} {xs : Assoc β} :
    (Assoc.get k xs).isSome ↔ k ∈ xs.map Prod.fst := by
  induction xs with
  | nil => simp [Assoc.get]
  | cons p xs ih =>
    obtain ⟨j, v⟩ := p
    by_cases same : j = k
    · simp [Assoc.get, same]
    · simp [Assoc.get, same, ih, Ne.symm same]

section Xattr
variable {w : World} {o : EntryId}

theorem overlayRead_ofExcept_ok {α : Type} {g : World → Ino → Except Errno α} {a : α} :
    (overlayRead w o fun w i => (.ofExcept (g w i), w)).1 = .ok a ↔
      ∃ e i, w.entries o = some e ∧ readLayer e = .ok i ∧ g (w.acquire (.reader o)) i = .ok a := by
  rcases he : w.entries o with _ | e
  · simp [overlayRead, he]
  rcases hr : readLayer e with i | err | why
  · rcases hg : g (w.acquire (.reader o)) i with err | b <;> simp [overlayRead, he, hr, hg, Outcome.ofExcept]
  · simp [overlayRead, he, hr]
  · simp [overlayRead, he, hr]

theorem World.listxattr_filter_iff (i : Ino) (name : String) :
    (∃ names, ((w.listxattr i).map fun names => names.filter fun n => !hasPrefix xattrOverlayPrefix n) =
        .ok names ∧ name ∈ names) ↔
      hasPrefix xattrOverlayPrefix name = false ∧ ∃ v, w.getxattr i name = .ok v := by
  rcases hl : w.live i with e | b
  · simp [World.listxattr, World.getxattr, hl, Except.map]
  · have mem : name ∈ b.xattrs.map Prod.fst ↔ (Assoc.get name b.xattrs).isSome :=
      Assoc.get_isSome_iff.symm
    rcases hg : Assoc.get name b.xattrs with _ | v <;> simp only [hg] at mem <;> simp at mem <;>
      simp [World.listxattr, World.getxattr, hl, Except.map, hg, mem]

/-- `overlayListxattr` lists exactly the names `overlayGetxattr` answers. -/
theorem overlayListxattr_iff_getxattr (name : String) :
    (∃ names, (overlayListxattr w o).1 = .ok names ∧ name ∈ names) ↔
      ∃ v, (overlayGetxattr w o name).1 = .ok v := by
  simp only [overlayListxattr, overlayRead_ofExcept_ok]
  unfold overlayGetxattr
  constructor
  · rintro ⟨names, ⟨e, i, he, hr, hl⟩, mem⟩
    obtain ⟨hp, v, hv⟩ := (World.listxattr_filter_iff i name).mp ⟨names, hl, mem⟩
    exact ⟨v, by simpa [hp, overlayRead_ofExcept_ok] using ⟨e, he, i, hr, hv⟩⟩
  · rintro ⟨v, hv⟩
    split at hv
    · cases hv
    · rename_i hp
      obtain ⟨e, i, he, hr, hg⟩ := overlayRead_ofExcept_ok.mp hv
      obtain ⟨names, hl, mem⟩ := (World.listxattr_filter_iff i name).mpr ⟨by simpa using hp, v, hg⟩
      exact ⟨names, ⟨e, i, he, hr, hl⟩, mem⟩

end Xattr

/-! ## The overlay's own attributes -/

theorem hasPrefix_prefix_whiteout (c : String) :
    hasPrefix xattrOverlayPrefix (xattrOverlayWhiteout c) = false := by
  rw [Bool.eq_false_iff, ne_eq, hasPrefix_iff]
  intro pre
  have longer := pre.length_le
  simp [xattrOverlayWhiteout, xattrOverlayPrefix] at longer

section
variable (w : World) (o : EntryId)

theorem overlayGetxattr_whiteout (c : String) :
    overlayGetxattr w o (xattrOverlayWhiteout c) =
      overlayRead w o fun w i => (.ofExcept (w.getxattr i (xattrOverlayWhiteout c)), w) := by
  simp [overlayGetxattr, hasPrefix_prefix_whiteout]

end

/-- An upper directory carrying the whiteout of `x`, behind overlay entry `0`. -/
def whiteoutWorld : World where
  inodes i := if i = ⟨.upper, 0⟩ then
      some { Inode.fresh .directory ⟨.upper, 0⟩ "" none with xattrs := [(xattrOverlayWhiteout "x", "y")] }
    else none
  nextIno := 1
  entries e := if e = 0 then some ⟨some ⟨.upper, 0⟩, none, false⟩ else none
  nextEntry := 1
  dirents _ := none
  nextDirent := 0
  holds _ := 0

theorem overlayGetxattr_returns_whiteout :
    (overlayGetxattr whiteoutWorld 0 (xattrOverlayWhiteout "x")).1 = .ok "y" := by
  rw [overlayGetxattr_whiteout]
  rfl

end ContainerFs.Fs
