import ContainerFs.Fs.Lookup

/-! Copy-up: giving a Dirent's overlay entry an upper counterpart before it is mutated.
`copyUp`, `copyUpLockedForRename` and `doCopyUp` are declared outside src/; they are
modelled from §4.2 of the spec. The parent is copied up before the child, so the new
upper object is always made inside an upper directory. -/

set_option autoImplicit false

namespace ContainerFs.Fs

/-- What an operation ends in, and the world after it. -/
abbrev Step (α : Type) := Outcome α × World

/-- Modelled from the spec: the upper type a lower object is copied up as (§4.2). -/
def copyUpType (sattr : StableAttr) : Option InodeType :=
  if isDir sattr then some .directory
  else if sattr.type = .regularFile then some .regularFile
  else if sattr.type = .symlink then some .symlink
  else none

/-- Modelled from the spec: the upper copy of a lower inode, with its contents and attributes. -/
def copyUpObject (w : World) (dir : Ino) (name : String) (lower : Ino) :
    Except Errno (Ino × World) :=
  match w.live lower with
  | .error e => .error e
  | .ok b =>
    match copyUpType b.stable with
    | none => .error .EINVAL
    | some t =>
      match w.mknod dir name t b.target none with
      | .error e => .error e
      | .ok (u, w) => .ok (u, w.modify u fun c => { c with unstable := b.unstable, data := b.data })

/-- The upper counterpart of the entry of Dirent `d`, if it has one. -/
def World.upperOf (w : World) (d : DirentId) : Option Ino :=
  (w.dirents d).bind fun dd => (w.entries dd.entry).bind OverlayEntry.upper

/-- Modelled from the spec: copy up Dirent `d`, whose parent has an upper counterpart. -/
def doCopyUp (w : World) (d : DirentId) : Step Unit :=
  match w.dirents d with
  | none => (.panic "nil Dirent", w)
  | some dd =>
    match w.entries dd.entry with
    | none => (.panic "nil overlayEntry", w)
    | some e =>
      match e.upper, e.lower with
      | some _, _ => (.ok (), w)
      | none, none => (.panic "invalid overlayEntry, needs at least one Inode", w)
      | none, some l =>
        match dd.parent.bind w.upperOf with
        | none => (.panic "copy up under a parent with no upper", w)
        | some pu =>
          match copyUpObject w pu dd.name l with
          | .error err => (.err err, w)
          | .ok (u, w) =>
            let keep := isDir (w.stableOf l)
            let w := (w.acquire (.inode u)).setEntry dd.entry
              { e with upper := some u, lower := if keep then some l else none }
            (.ok (), if keep then w else w.release (.inode l))

/-- Modelled from the spec: copy up `d` after its ancestors, top down, in `fuel` rounds. -/
def copyUpLockedForRename : Nat → World → DirentId → Step Unit
  | 0, w, _ => (.panic "copy up ran past the root", w)
  | fuel + 1, w, d =>
    match w.dirents d with
    | none => (.panic "nil Dirent", w)
    | some dd =>
      match w.upperOf d with
      | some _ => (.ok (), w)
      | none =>
        match dd.parent with
        | none => (.panic "nil parent", w)
        | some p =>
          match copyUpLockedForRename fuel w p with
          | (.ok (), w) => doCopyUp w d
          | r => r

/-- Modelled from the spec: copy-up of `d`, with a round for each Dirent ever made. -/
def copyUp (w : World) (d : DirentId) : Step Unit :=
  copyUpLockedForRename w.nextDirent w d

section Cases
variable {w : World}

theorem copyUpObject_ok {dir l u : Ino} {name : String} {w' : World}
    (made : copyUpObject w dir name l = .ok (u, w')) :
    ∃ b t w1, w.live l = .ok b ∧ copyUpType b.stable = some t ∧
      w.mknod dir name t b.target none = .ok (u, w1) ∧
      w' = w1.modify u fun c => { c with unstable := b.unstable, data := b.data } := by
  unfold copyUpObject at made
  rcases hl : w.live l with e | b <;> simp only [hl] at made
  · cases made
  rcases ht : copyUpType b.stable with _ | t <;> simp only [ht] at made
  · cases made
  rcases mk : w.mknod dir name t b.target none with e | ⟨v, w1⟩ <;> simp only [mk] at made
  · cases made
  obtain ⟨rfl, rfl⟩ := Prod.mk.inj (Except.ok.inj made)
  exact ⟨b, t, w1, rfl, ht, mk, rfl⟩

theorem copyUpObject_tree {dir l u : Ino} {name : String} {w' : World}
    (made : copyUpObject w dir name l = .ok (u, w')) :
    w'.dirents = w.dirents ∧ w'.entries = w.entries := by
  obtain ⟨b, t, w1, -, -, mk, rfl⟩ := copyUpObject_ok made
  obtain ⟨_, _, _, _, rfl⟩ := World.mknod_spec mk
  unfold World.modify; split <;> exact ⟨rfl, rfl⟩

theorem doCopyUp_cases (x : DirentId) :
    ((doCopyUp w x).2 = w ∧ ((doCopyUp w x).1 = .ok () → (w.upperOf x).isSome)) ∨
      ∃ dx e l pu u w0, w.dirents x = some dx ∧ w.entries dx.entry = some e ∧ e.upper = none ∧
        e.lower = some l ∧ dx.parent.bind w.upperOf = some pu ∧
        copyUpObject w pu dx.name l = .ok (u, w0) ∧ (doCopyUp w x).1 = .ok () ∧
        (doCopyUp w x).2.inodes = w0.inodes ∧ (doCopyUp w x).2.dirents = w0.dirents ∧
        (doCopyUp w x).2.entries = Function.update w0.entries dx.entry
          (some { e with upper := some u, lower := if isDir (w0.stableOf l) then some l else none }) ∧
        (doCopyUp w x).2 = { (w0.acquire (.inode u)).setEntry dx.entry
          { e with upper := some u, lower := if isDir (w0.stableOf l) then some l else none } with
          holds := (doCopyUp w x).2.holds } := by
  rcases hx : w.dirents x with _ | dx
  · exact .inl (by simp [doCopyUp, hx])
  rcases he : w.entries dx.entry with _ | e
  · exact .inl (by simp [doCopyUp, hx, he])
  rcases hu : e.upper with _ | u
  swap
  · exact .inl (by simp [doCopyUp, World.upperOf, hx, he, hu])
  rcases hl : e.lower with _ | l
  · exact .inl (by simp [doCopyUp, hx, he, hu, hl])
  rcases hp : dx.parent.bind w.upperOf with _ | pu
  · exact .inl (by simp only [doCopyUp, hx, he, hu, hl, hp, reduceCtorEq, false_implies, and_self])
  rcases made : copyUpObject w pu dx.name l with _ | ⟨u, w0⟩
  · exact .inl (by simp only [doCopyUp, hx, he, hu, hl, hp, made, reduceCtorEq, false_implies,
      and_self])
  refine .inr ⟨dx, e, l, pu, u, w0, rfl, he, hu, hl, hp, made, ?_⟩
  simp only [doCopyUp, hx, he, hu, hl, hp, made]
  split <;> exact ⟨trivial, rfl, rfl, rfl, rfl⟩

end Cases

end ContainerFs.Fs
