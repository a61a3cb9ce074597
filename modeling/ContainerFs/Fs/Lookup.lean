import ContainerFs.Fs.Backing

/-! `overlayLookup`: the upper lookup, the whiteout test, the lower lookup and the merge.
`newOverlayEntry` and `newOverlayInode` are declared outside src/: the first's verdict is a
parameter, the second is modelled from the spec. -/

set_option autoImplicit false

namespace ContainerFs.Fs

/-- Modelled from the spec: the verdict of `newOverlayEntry`, `some e` for a refusal. -/
abbrev EntryCheck := Option Ino → Option Ino → Bool → Option Errno

/-- Modelled from the spec: an entry with no counterpart is fatal; else `check` decides. -/
def newOverlayEntry (check : EntryCheck) (upper lower : Option Ino) (lowerExists : Bool) :
    Outcome OverlayEntry :=
  if upper = none ∧ lower = none then .panic "invalid overlayEntry, needs at least one Inode"
  else
    match check upper lower lowerExists with
    | some e => .err e
    | none => .ok ⟨upper, lower, lowerExists⟩

instance : Inhabited StableAttr := ⟨⟨.regularFile, 0, 0⟩⟩

/-- The `StableAttr` of a backing inode (a default for an id no inode has). -/
def World.stableOf (w : World) (i : Ino) : StableAttr :=
  match w.inodes i with
  | some b => b.stable
  | none => default

/-- Modelled from the spec: the stable attributes `newOverlayInode` takes (§4.4). -/
def overlayStable (w : World) (o : OverlayEntry) : Outcome StableAttr :=
  match o.upper, o.lower with
  | some u, _ => .ok (w.stableOf u)
  | none, some l => .ok (w.stableOf l)
  | none, none => .panic "nil dereference of lower"

/-- The counterpart a read accessor uses: the upper when present, else the lower. -/
def readLayer (o : OverlayEntry) : Outcome Ino :=
  match o.upper, o.lower with
  | some u, _ => .ok u
  | none, some l => .ok l
  | none, none => .panic "nil dereference of lower"

def overlayHasWhiteout (w : World) (parent : Ino) (name : String) : Bool :=
  match w.getxattr parent (xattrOverlayWhiteout name) with
  | .ok v => v = "y"
  | .error _ => false

def overlayCreateWhiteout (w : World) (parent : Ino) (name : String) : Except Errno World :=
  w.setxattr parent (xattrOverlayWhiteout name) "y"

/-- The Dirent `overlayLookup` returns: a negative one, or one on a new overlay inode. -/
inductive Found where
  | negative
  | positive (entry : OverlayEntry) (stable : StableAttr)
  deriving DecidableEq, Repr

/-- `upper.Lookup(ctx, name)` as `overlayLookup` uses it. -/
def lookupUpper (w : World) (dir : Ino) (name : String) :
    Except Errno (Option Ino × Bool) × World :=
  match w.lookup dir name with
  | (.error e, w) => if e = .ENOENT then (.ok (none, false), w) else (.error e, w)
  | (.negative, w) => (.ok (none, true), w.release (.dirent dir name))
  | (.positive i, w) => (.ok (some i, false), (w.acquire (.inode i)).release (.dirent dir name))

/-- A lower match can back an upper one when their types agree or both are directories. -/
def compatible (upper lower : StableAttr) : Bool :=
  upper.type = lower.type || (isDir upper && isDir lower)

/-- `lower.Lookup(ctx, name)` as `overlayLookup` uses it. -/
def lookupLower (w : World) (dir : Ino) (upperInode : Option Ino) (name : String) :
    Except Errno (Option Ino) × World :=
  match w.lookup dir name with
  | (.error e, w) => if e = .ENOENT then (.ok none, w) else (.error e, w)
  | (.negative, w) => (.ok none, w.release (.dirent dir name))
  | (.positive c, w) =>
    let use := match upperInode with
      | none => true
      | some u => compatible (w.stableOf u) (w.stableOf c)
    if use then (.ok (some c), (w.acquire (.inode c)).release (.dirent dir name))
    else (.ok none, w.release (.dirent dir name))

def withProvenance (inUpper : Bool) : Outcome Found × World → Outcome (Found × Bool) × World
  | (.ok d, w) => (.ok (d, inUpper), w)
  | (.err e, w) => (.err e, w)
  | (.panic why, w) => (.panic why, w)

section
variable (check : EntryCheck)

/-- `NewDirent(newOverlayInode(...), name)` on the entry `newOverlayEntry` builds. -/
def newOverlayDirent (w : World) (upper lower : Option Ino) (lowerExists : Bool) :
    Outcome Found × World :=
  match newOverlayEntry check upper lower lowerExists with
  | .ok entry =>
    match overlayStable w entry with
    | .ok stable => (.ok (.positive entry stable), w)
    | .err e => (.err e, w)
    | .panic why => (.panic why, w)
  | .err e => (.err e, (w.releaseSome upper).releaseSome lower)
  | .panic why => (.panic why, w)

/-- The merge at the end of `overlayLookup`, once both lookups are done. -/
def overlayMerge (w : World) (upperInode lowerInode : Option Ino)
    (negativeUpperChild : Bool) : Outcome (Found × Bool) × World :=
  match upperInode, lowerInode with
  | none, none => (if negativeUpperChild then .ok (.negative, false) else .err .ENOENT, w)
  | some u, some l =>
    let w := w.modify u fun b => { b with stable := w.stableOf l }
    let (w, lowerInode) :=
      if !isDir (w.stableOf u) then (w.release (.inode l), none) else (w, some l)
    withProvenance true (newOverlayDirent check w (some u) lowerInode true)
  | some u, none => withProvenance true (newOverlayDirent check w (some u) none false)
  | none, some l => withProvenance false (newOverlayDirent check w none (some l) true)

/-- The lower half of `overlayLookup`, entered with the upper match. -/
def overlayLookupLower (w : World) (p : OverlayEntry) (name : String)
    (upperInode : Option Ino) (negativeUpperChild : Bool) : Outcome (Found × Bool) × World :=
  match p.lower with
  | none => overlayMerge check w upperInode none negativeUpperChild
  | some dir =>
    match lookupLower w dir upperInode name with
    | (.error e, w) => (.err e, w.releaseSome upperInode)
    | (.ok lowerInode, w) => overlayMerge check w upperInode lowerInode negativeUpperChild

/-- The whiteout branch: the name is masked, so the lower layer is not consulted. -/
def overlayLookupWhiteout (w : World) (upperInode : Option Ino) (negativeUpperChild : Bool) :
    Outcome (Found × Bool) × World :=
  match upperInode with
  | none => (if negativeUpperChild then .ok (.negative, false) else .err .ENOENT, w)
  | some u =>
    withProvenance true (newOverlayDirent check w (some u) none false)

/-- `overlayLookup` after the check that the parent has a counterpart, under its read lock. -/
def overlayLookupLocked (w : World) (p : OverlayEntry) (name : String) :
    Outcome (Found × Bool) × World :=
  match p.upper with
  | none => overlayLookupLower check w p name none false
  | some dir =>
    match lookupUpper w dir name with
    | (.error e, w) => (.err e, w)
    | (.ok (upperInode, negativeUpperChild), w) =>
      if overlayHasWhiteout w dir name then
        overlayLookupWhiteout check w upperInode negativeUpperChild
      else overlayLookupLower check w p name upperInode negativeUpperChild

/-- `overlayLookup(ctx, parent, inode, name)`: the Dirent and whether it came from the upper. -/
def overlayLookup (w : World) (parent : EntryId) (name : String) :
    Outcome (Found × Bool) × World :=
  match w.entries parent with
  | none => (.panic "nil dereference of parent", w)
  | some p =>
    let w := w.acquire (.reader parent)
    if p.upper = none ∧ p.lower = none then
      (.panic "invalid overlayEntry, needs at least one Inode", w.release (.reader parent))
    else
      match overlayLookupLocked check w p name with
      | (.panic why, w) => (.panic why, w)
      | (r, w) => (r, w.release (.reader parent))

end

/-! ## What each phase computes -/

def direntOutcome (check : EntryCheck) (stable : StableAttr) (upper lower : Option Ino)
    (lowerExists : Bool) : Outcome Found :=
  match check upper lower lowerExists with
  | some e => .err e
  | none => .ok (.positive ⟨upper, lower, lowerExists⟩ stable)

def upperStep : Looked → Except Errno (Option Ino × Bool)
  | .error e => if e = .ENOENT then .ok (none, false) else .error e
  | .negative => .ok (none, true)
  | .positive i => .ok (some i, false)

def lowerStep (stableOf : Ino → StableAttr) (upperInode : Option Ino) : Looked → Except Errno (Option Ino)
  | .error e => if e = .ENOENT then .ok none else .error e
  | .negative => .ok none
  | .positive c => .ok ((some c).filter fun c => upperInode.all fun u => compatible (stableOf u) (stableOf c))

def mergeOutcome (check : EntryCheck) (stableOf : Ino → StableAttr) (upperInode lowerInode : Option Ino)
    (negativeUpperChild : Bool) : Outcome (Found × Bool) :=
  match upperInode, lowerInode with
  | none, none => if negativeUpperChild then .ok (.negative, false) else .err .ENOENT
  | some u, none => (direntOutcome check (stableOf u) (some u) none false).map (·, true)
  | none, some l => (direntOutcome check (stableOf l) none (some l) true).map (·, false)
  | some u, some l =>
    (direntOutcome check (stableOf l) (some u) (if isDir (stableOf l) then some l else none)
      true).map (·, true)

def lowerOutcome (check : EntryCheck) (stableOf : Ino → StableAttr) (lo : Option Looked)
    (upperInode : Option Ino) (negativeUpperChild : Bool) : Outcome (Found × Bool) :=
  match lo with
  | none => mergeOutcome check stableOf upperInode none negativeUpperChild
  | some a =>
    match lowerStep stableOf upperInode a with
    | .error e => .err e
    | .ok l => mergeOutcome check stableOf upperInode l negativeUpperChild

def whiteoutOutcome (check : EntryCheck) (stableOf : Ino → StableAttr) (upperInode : Option Ino)
    (negativeUpperChild : Bool) : Outcome (Found × Bool) :=
  match upperInode with
  | none => if negativeUpperChild then .ok (.negative, false) else .err .ENOENT
  | some u => (direntOutcome check (stableOf u) (some u) none false).map (·, true)

section Phases
variable {check : EntryCheck} (w : World) (dir : Ino) (name : String)

@[simp] theorem stableOf_acquire (h : Hold) : (w.acquire h).stableOf = w.stableOf := rfl
@[simp] theorem stableOf_release (h : Hold) : (w.release h).stableOf = w.stableOf := rfl

theorem stableOf_congr {w' : World} (same : w'.inodes = w.inodes) : w'.stableOf = w.stableOf := by
  funext i; simp [World.stableOf, same]

theorem overlayHasWhiteout_congr {w' : World} (same : w'.inodes = w.inodes) :
    overlayHasWhiteout w' = overlayHasWhiteout w := by
  funext d n; simp [overlayHasWhiteout, World.getxattr_congr same]

theorem withProvenance_fst (inUpper : Bool) (x : Outcome Found × World) :
    (withProvenance inUpper x).1 = x.1.map (·, inUpper) := by
  rcases x with ⟨_ | _ | _, _⟩ <;> rfl

@[simp] theorem withProvenance_snd (inUpper : Bool) (x : Outcome Found × World) :
    (withProvenance inUpper x).2 = x.2 := by
  rcases x with ⟨_ | _ | _, _⟩ <;> rfl

theorem newOverlayDirent_upper (u : Ino) (l : Option Ino) (le : Bool) :
    (newOverlayDirent check w (some u) l le).1 = direntOutcome check (w.stableOf u) (some u) l le := by
  unfold newOverlayDirent newOverlayEntry direntOutcome
  cases check (some u) l le <;> simp [overlayStable]

theorem newOverlayDirent_lower (l : Ino) (le : Bool) :
    (newOverlayDirent check w none (some l) le).1 = direntOutcome check (w.stableOf l) none (some l) le := by
  unfold newOverlayDirent newOverlayEntry direntOutcome
  cases check none (some l) le <;> simp [overlayStable]

theorem lookupUpper_fst : (lookupUpper w dir name).1 = upperStep (w.lookup dir name).1 := by
  rcases h : w.slot dir name with _ | (_ | _ | e) <;>
    simp [lookupUpper, World.lookup, h, upperStep]
  split <;> rfl

theorem lookupUpper_holds_only :
    (lookupUpper w dir name).2 = { w with holds := (lookupUpper w dir name).2.holds } := by
  rcases hs : w.slot dir name with _ | (i | _ | e) <;>
    simp only [lookupUpper, World.lookup, hs] <;> (try split) <;> rfl

theorem lookupUpper_inodes : (lookupUpper w dir name).2.inodes = w.inodes := by
  rw [lookupUpper_holds_only]

theorem lookupLower_fst (u : Option Ino) :
    (lookupLower w dir u name).1 = lowerStep w.stableOf u (w.lookup dir name).1 := by
  rcases h : w.slot dir name with _ | (c | _ | e) <;>
    simp [lookupLower, World.lookup, h, lowerStep]
  · cases u <;> simp [Option.filter]
    split <;> rfl
  · split <;> rfl

theorem lookupLower_holds_only (u : Option Ino) :
    (lookupLower w dir u name).2 = { w with holds := (lookupLower w dir u name).2.holds } := by
  rcases hs : w.slot dir name with _ | (i | _ | e) <;>
    simp only [lookupLower, World.lookup, hs] <;> (try split) <;> rfl

theorem lookupLower_inodes (u : Option Ino) : (lookupLower w dir u name).2.inodes = w.inodes := by
  rw [lookupLower_holds_only]

theorem newOverlayDirent_holds_only (u l : Option Ino) (le : Bool) :
    (newOverlayDirent check w u l le).2 =
      { w with holds := (newOverlayDirent check w u l le).2.holds } := by
  unfold newOverlayDirent
  rcases u with _ | u <;> rcases l with _ | l <;> (repeat' split) <;> rfl

theorem stableOf_steal {u : Ino} (live : (w.inodes u).isSome) (s : StableAttr) :
    (w.modify u fun b => { b with stable := s }).stableOf u = s := by
  obtain ⟨b, hb⟩ := Option.isSome_iff_exists.mp live
  simp [World.modify, World.stableOf, hb]

theorem overlayMerge_fst (u l : Option Ino) (neg : Bool)
    (live : ∀ i, u = some i → (w.inodes i).isSome) :
    (overlayMerge check w u l neg).1 = mergeOutcome check w.stableOf u l neg := by
  rcases u with _ | u <;> rcases l with _ | l
  · rfl
  · simp [overlayMerge, mergeOutcome, withProvenance_fst, newOverlayDirent_lower]
  · simp [overlayMerge, mergeOutcome, withProvenance_fst, newOverlayDirent_upper]
  · have steal := stableOf_steal w (live u rfl) (w.stableOf l)
    by_cases d : isDir (w.stableOf l) <;>
      simp [overlayMerge, mergeOutcome, withProvenance_fst, newOverlayDirent_upper, steal, d]

theorem overlayLookupLower_fst (p : OverlayEntry) (u : Option Ino) (neg : Bool)
    (live : ∀ i, u = some i → (w.inodes i).isSome) :
    (overlayLookupLower check w p name u neg).1 =
      lowerOutcome check w.stableOf (p.lower.map fun d => (w.lookup d name).1) u neg := by
  rcases p with ⟨pu, _ | dir, le⟩
  · exact overlayMerge_fst w u none neg live
  · simp only [overlayLookupLower]
    generalize hx : lookupLower w dir u name = x
    obtain ⟨r, w1⟩ := x
    have hr : r = lowerStep w.stableOf u (w.lookup dir name).1 := by
      rw [← lookupLower_fst, hx]
    have hw : w1.inodes = w.inodes := by rw [← lookupLower_inodes w dir name u, hx]
    subst hr
    rcases step : lowerStep w.stableOf u (w.lookup dir name).1 with e | l
    · simp [lowerOutcome, step]
    · simp only [lowerOutcome, Option.map_some', step]
      rw [overlayMerge_fst w1 u l neg (by simpa [hw] using live), stableOf_congr w hw]

theorem overlayLookupWhiteout_fst (u : Option Ino) (neg : Bool) :
    (overlayLookupWhiteout check w u neg).1 = whiteoutOutcome check w.stableOf u neg := by
  rcases u with _ | u
  · rfl
  · simp [overlayLookupWhiteout, whiteoutOutcome, withProvenance_fst, newOverlayDirent_upper]

theorem upperStep_positive {u : Ino} {neg : Bool}
    (step : upperStep (w.lookup dir name).1 = .ok (some u, neg)) :
    w.slot dir name = some (.bound u) := by
  rcases h : w.slot dir name with _ | (c | _ | e) <;>
    simp [World.lookup, h, upperStep] at step ⊢
  · exact step.1
  · split at step <;> simp at step

theorem overlayLookupLocked_fst (p : OverlayEntry)
    (live : ∀ dir u, p.upper = some dir → w.slot dir name = some (.bound u) →
      (w.inodes u).isSome) :
    (overlayLookupLocked check w p name).1 =
      match p.upper with
      | none => lowerOutcome check w.stableOf (p.lower.map fun d => (w.lookup d name).1) none false
      | some dir =>
        match upperStep (w.lookup dir name).1 with
        | .error e => .err e
        | .ok (u, neg) =>
          if overlayHasWhiteout w dir name then whiteoutOutcome check w.stableOf u neg
          else lowerOutcome check w.stableOf (p.lower.map fun d => (w.lookup d name).1) u neg := by
  rcases p with ⟨_ | dir, pl, le⟩
  · exact overlayLookupLower_fst w name _ none false (by simp)
  · simp only [overlayLookupLocked]
    generalize hx : lookupUpper w dir name = x
    obtain ⟨r, w1⟩ := x
    have hr : r = upperStep (w.lookup dir name).1 := by rw [← lookupUpper_fst, hx]
    have hw : w1.inodes = w.inodes := by rw [← lookupUpper_inodes w dir name, hx]
    subst hr
    rcases step : upperStep (w.lookup dir name).1 with e | ⟨u, neg⟩
    · rfl
    · have liveU : ∀ i, u = some i → (w1.inodes i).isSome := by
        rintro i rfl
        exact hw ▸ live dir i rfl (upperStep_positive w dir name step)
      simp only [overlayHasWhiteout_congr w hw]
      split
      · rw [overlayLookupWhiteout_fst, stableOf_congr w hw]
      · rw [overlayLookupLower_fst w1 name _ u neg liveU, stableOf_congr w hw]
        simp only [World.lookup_fst_congr hw]

theorem overlayLookup_fst (parent : EntryId) (p : OverlayEntry)
    (found : w.entries parent = some p) (hasLayer : p.upper.isSome ∨ p.lower.isSome) :
    (overlayLookup check w parent name).1 =
      (overlayLookupLocked check (w.acquire (.reader parent)) p name).1 := by
  have notBoth : ¬(p.upper = none ∧ p.lower = none) := by
    rcases hasLayer with h | h <;> simp_all [Option.isSome_iff_ne_none]
  simp only [overlayLookup, found, notBoth, if_false]
  generalize overlayLookupLocked check (w.acquire (.reader parent)) p name = x
  rcases x with ⟨_ | _ | _, _⟩ <;> rfl

/-! ## No panic once the parent has a counterpart -/

theorem newOverlayDirent_ne_panic {u l : Option Ino} (le : Bool) (has : u.isSome ∨ l.isSome)
    (why : String) : (newOverlayDirent check w u l le).1 ≠ .panic why := by
  unfold newOverlayDirent newOverlayEntry
  rcases u with _ | u <;> rcases l with _ | l
  · simp at has
  all_goals rcases check _ _ le with _ | e <;> simp [overlayStable]

theorem withProvenance_ne_panic {inUpper : Bool} {x : Outcome Found × World} {why : String}
    (h : x.1 ≠ .panic why) : (withProvenance inUpper x).1 ≠ .panic why := by
  rcases x with ⟨_ | _ | _, _⟩ <;> simp_all [withProvenance]

theorem overlayMerge_ne_panic (u l : Option Ino) (neg : Bool) (why : String) :
    (overlayMerge check w u l neg).1 ≠ .panic why := by
  rcases u with _ | u <;> rcases l with _ | l
  · simp only [overlayMerge]; split <;> simp
  all_goals
    simp only [overlayMerge]
    try split
    all_goals exact withProvenance_ne_panic (newOverlayDirent_ne_panic _ _ (by simp) why)

theorem overlayLookupLower_ne_panic (p : OverlayEntry) (u : Option Ino) (neg : Bool)
    (why : String) : (overlayLookupLower check w p name u neg).1 ≠ .panic why := by
  rcases p with ⟨pu, _ | dir, le⟩
  · exact overlayMerge_ne_panic w _ _ neg why
  · simp only [overlayLookupLower]
    split
    · simp
    · exact overlayMerge_ne_panic _ _ _ neg why

theorem overlayLookupLocked_ne_panic (p : OverlayEntry) (why : String) :
    (overlayLookupLocked check w p name).1 ≠ .panic why := by
  rcases p with ⟨_ | dir, pl, le⟩
  · exact overlayLookupLower_ne_panic w name _ none false why
  · rcases hx : lookupUpper w dir name with ⟨_ | ⟨u, neg⟩, w1⟩
    · simp [overlayLookupLocked, hx]
    · simp only [overlayLookupLocked, hx]
      split
      · rcases u with _ | u
        · simp only [overlayLookupWhiteout]; split <;> simp
        · exact withProvenance_ne_panic (newOverlayDirent_ne_panic _ _ (by simp) why)
      · exact overlayLookupLower_ne_panic _ name _ _ _ why

theorem overlayLookup_ne_panic (parent : EntryId) (p : OverlayEntry)
    (found : w.entries parent = some p) (hasLayer : p.upper.isSome ∨ p.lower.isSome)
    (why : String) : (overlayLookup check w parent name).1 ≠ .panic why := by
  rw [overlayLookup_fst w name parent p found hasLayer]
  exact overlayLookupLocked_ne_panic _ name p why

theorem readLayer_ne_panic {o : OverlayEntry} (hasLayer : o.upper.isSome ∨ o.lower.isSome)
    (why : String) : readLayer o ≠ .panic why := by
  rcases o with ⟨_ | u, _ | l, le⟩ <;> simp_all [readLayer]

end Phases

end ContainerFs.Fs
