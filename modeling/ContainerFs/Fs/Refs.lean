import ContainerFs.Fs.Mutate
import ContainerFs.Fs.Read

/-! Reference and read-lock accounting (§5): lookups, binds and `overlayGetlink` change every count
by what their result owns, while `overlayCreate` leaks its references when `newOverlayEntry`
refuses the new file. -/

set_option autoImplicit false

namespace ContainerFs.Fs

/-- The reference an optional inode pointer holds on `h`. -/
def refOf : Option Ino → Hold → Int
  | some i, h => if h = .inode i then 1 else 0
  | none, _ => 0

/-- The references an overlay entry owns: one on each counterpart it has. -/
def OverlayEntry.owned (e : OverlayEntry) (h : Hold) : Int := refOf e.upper h + refOf e.lower h

def Found.owned : Found → Hold → Int
  | .positive e _ => e.owned
  | .negative => fun _ => 0

def Outcome.owned {α : Type} (f : α → Hold → Int) : Outcome α → Hold → Int
  | .ok a => f a
  | _ => fun _ => 0

@[simp] theorem Outcome.owned_map {α β : Type} (f : β → Hold → Int) (g : α → β) (x : Outcome α) :
    (x.map g).owned f = x.owned (f ∘ g) := by
  cases x <;> rfl

section Counts
variable {w : World} {h : Hold}

@[simp] theorem refOf_none : refOf none h = 0 := rfl

theorem releaseSome_holds (o : Option Ino) : (w.releaseSome o).holds h = w.holds h - refOf o h := by
  cases o <;> simp [World.releaseSome, World.release_holds, refOf]

@[simp] theorem modify_holds (i : Ino) (f : Inode → Inode) : (w.modify i f).holds = w.holds := by
  unfold World.modify; split <;> rfl

theorem mknod_holds {dir : Ino} {name : String} {t : InodeType} {target : String}
    {ep : Option Nat} {i : Ino} {w' : World} (made : w.mknod dir name t target ep = .ok (i, w')) :
    w'.holds = w.holds := by
  unfold World.mknod at made
  split at made
  · cases made
  · split at made
    · cases made
    · split at made <;> cases made
      rfl

theorem bind_holds {dir i : Ino} {name : String} {data : Nat} {w' : World}
    (made : w.bind dir name data = .ok (i, w')) :
    w'.holds h = w.holds h + if h = .dirent dir name then 1 else 0 := by
  unfold World.bind at made
  split at made <;> cases made
  rename_i made
  simp [World.acquire_holds, mknod_holds made]

theorem create_holds {dir i : Ino} {name : String} {w' : World}
    (made : w.create dir name = .ok (i, w')) :
    w'.holds h = w.holds h + (if h = .file dir name then 1 else 0) +
      if h = .dirent dir name then 1 else 0 := by
  unfold World.create at made
  split at made <;> cases made
  rename_i made
  simp [World.acquire_holds, mknod_holds made]

end Counts

/-! ## `overlayLookup` -/

section Lookup
variable (check : EntryCheck) {w : World} {dir : Ino} (name : String) {h : Hold}

theorem lookupUpper_holds {r : Except Errno (Option Ino × Bool)} {w' : World}
    (hx : lookupUpper w dir name = (r, w')) :
    w'.holds h = w.holds h + refOf (r.toOption.bind Prod.fst) h := by
  unfold lookupUpper World.lookup at hx
  rcases hs : w.slot dir name with _ | (i | _ | e) <;> simp only [hs] at hx
  · cases hx; simp [Except.toOption]
  · cases hx; simp [Except.toOption, World.acquire_holds, World.release_holds, refOf]; omega
  · cases hx; simp [Except.toOption, World.acquire_holds, World.release_holds]
  · split at hx <;> cases hx <;> simp [Except.toOption]

theorem lookupLower_holds {u : Option Ino} {r : Except Errno (Option Ino)} {w' : World}
    (hx : lookupLower w dir u name = (r, w')) :
    w'.holds h = w.holds h + refOf r.toOption.join h := by
  unfold lookupLower World.lookup at hx
  rcases hs : w.slot dir name with _ | (i | _ | e) <;> simp only [hs] at hx
  · cases hx; simp [Except.toOption]
  · split at hx <;> cases hx <;>
      simp [Except.toOption, World.acquire_holds, World.release_holds, refOf]
    omega
  · cases hx; simp [Except.toOption, World.acquire_holds, World.release_holds]
  · split at hx <;> cases hx <;> simp [Except.toOption]

theorem newOverlayDirent_holds (u l : Option Ino) (le : Bool) :
    (newOverlayDirent check w u l le).2.holds h =
      w.holds h - refOf u h - refOf l h + (newOverlayDirent check w u l le).1.owned Found.owned h := by
  unfold newOverlayDirent newOverlayEntry
  rcases u with _ | u <;> rcases l with _ | l
  · simp [Outcome.owned]
  all_goals
    rcases check _ _ le with _ | e <;>
      simp only [reduceCtorEq, and_false, and_true, and_self, ↓reduceIte, overlayStable, refOf_none,
        Int.sub_zero, Int.add_zero, Int.zero_add, Int.sub_add_cancel, Outcome.owned, Found.owned,
        OverlayEntry.owned, releaseSome_holds]
  omega

theorem overlayMerge_holds (u l : Option Ino) (neg : Bool) :
    (overlayMerge check w u l neg).2.holds h =
      w.holds h - refOf u h - refOf l h +
        (overlayMerge check w u l neg).1.owned (fun r => r.1.owned) h := by
  rcases u with _ | u <;> rcases l with _ | l
  · simp only [overlayMerge]; split <;> simp [Outcome.owned, Found.owned]
  · simp [overlayMerge, withProvenance_fst, newOverlayDirent_holds, Function.comp_def]
  · simp [overlayMerge, withProvenance_fst, newOverlayDirent_holds, Function.comp_def]
  · by_cases d : isDir ((w.modify u fun b => { b with stable := w.stableOf l }).stableOf u)
    · simp [overlayMerge, d, withProvenance_fst, newOverlayDirent_holds, Function.comp_def]
    · simp [overlayMerge, d, withProvenance_fst, newOverlayDirent_holds, Function.comp_def,
        World.release_holds, refOf]
      omega

theorem overlayLookupLower_holds (p : OverlayEntry) (u : Option Ino) (neg : Bool) :
    (overlayLookupLower check w p name u neg).2.holds h =
      w.holds h - refOf u h +
        (overlayLookupLower check w p name u neg).1.owned (fun r => r.1.owned) h := by
  rcases p with ⟨pu, _ | dir, le⟩
  · simpa [overlayLookupLower] using overlayMerge_holds check (w := w) (h := h) u none neg
  · rcases hx : lookupLower w dir u name with ⟨_ | l, w1⟩ <;>
      have held := lookupLower_holds name (h := h) hx
    · simp [overlayLookupLower, hx, releaseSome_holds, Outcome.owned, held, Except.toOption]
    · simp [overlayLookupLower, hx, overlayMerge_holds, held, Except.toOption]
      omega

theorem overlayLookupWhiteout_holds (u : Option Ino) (neg : Bool) :
    (overlayLookupWhiteout check w u neg).2.holds h =
      w.holds h - refOf u h +
        (overlayLookupWhiteout check w u neg).1.owned (fun r => r.1.owned) h := by
  rcases u with _ | u
  · simp only [overlayLookupWhiteout]; split <;> simp [Outcome.owned, Found.owned]
  · simp [overlayLookupWhiteout, withProvenance_fst, newOverlayDirent_holds, Function.comp_def]

theorem overlayLookupLocked_holds (p : OverlayEntry) :
    (overlayLookupLocked check w p name).2.holds h =
      w.holds h + (overlayLookupLocked check w p name).1.owned (fun r => r.1.owned) h := by
  rcases p with ⟨_ | dir, pl, le⟩
  · simpa [overlayLookupLocked] using
      overlayLookupLower_holds check name (w := w) (h := h) _ none false
  · rcases hx : lookupUpper w dir name with ⟨_ | ⟨u, neg⟩, w1⟩ <;>
      have held := lookupUpper_holds name (h := h) hx
    · simp_all [overlayLookupLocked, Except.toOption, Outcome.owned]
    · simp only [overlayLookupLocked, hx]
      split
      · rw [overlayLookupWhiteout_holds, held]; simp [Except.toOption]
      · rw [overlayLookupLower_holds, held]; simp [Except.toOption]

theorem overlayLookup_holds (parent : EntryId) (p : OverlayEntry)
    (found : w.entries parent = some p) (hasLayer : p.upper.isSome ∨ p.lower.isSome) :
    (overlayLookup check w parent name).2.holds h =
      w.holds h + (overlayLookup check w parent name).1.owned (fun r => r.1.owned) h := by
  have notBoth : ¬(p.upper = none ∧ p.lower = none) := by
    rcases hasLayer with l | l <;> simp_all [Option.isSome_iff_ne_none]
  have inner := overlayLookupLocked_holds check name (w := w.acquire (.reader parent)) (h := h) p
  have noPanic := @overlayLookupLocked_ne_panic check (w.acquire (.reader parent)) name p
  simp only [overlayLookup, found, notBoth, if_false]
  revert inner noPanic
  generalize overlayLookupLocked check (w.acquire (.reader parent)) p name = x
  rcases x with ⟨_ | _ | why, w1⟩ <;> intro inner noPanic
  · simp only [World.release_holds, World.acquire_holds] at inner ⊢; omega
  · simp only [World.release_holds, World.acquire_holds, Outcome.owned] at inner ⊢; omega
  · exact absurd rfl (noPanic why)

end Lookup

/-! ## The other paths -/

section Paths
variable {check : EntryCheck} {w : World} {h : Hold}

@[simp] theorem release_acquire_holds (k : Hold) : ((w.acquire k).release k).holds = w.holds := by
  funext h; simp [World.release_holds, World.acquire_holds]

theorem release_holds_of_acquire {w' : World} {k : Hold} (same : w'.holds = (w.acquire k).holds) :
    (w'.release k).holds = w.holds := by
  funext h
  have at_h := congrFun same h
  simp only [World.release_holds, World.acquire_holds] at at_h ⊢
  omega

theorem dropFound_holds (f : Found) : (dropFound w f).holds h = w.holds h - f.owned h := by
  cases f <;> simp [dropFound, releaseSome_holds, Found.owned, OverlayEntry.owned]
  omega

theorem renameReplaced_holds (readdirOne : World → OverlayEntry → Except Errno (List String))
    (newParent : DirentId) (newName : String) (replacement : Bool) (np : Dirent) (p : OverlayEntry)
    (found : w.dirents newParent = some np) (pe : w.entries np.entry = some p)
    (hasLayer : p.upper.isSome ∨ p.lower.isSome) :
    (renameReplaced check readdirOne w newParent newName replacement).2.holds = w.holds := by
  cases replacement
  · rfl
  funext h
  have bal := overlayLookup_holds check newName (h := h) np.entry p pe hasLayer
  have noPanic := @overlayLookup_ne_panic check w newName np.entry p pe hasLayer
  simp only [renameReplaced, found, Bool.not_true, Bool.false_eq_true, if_false]
  revert bal noPanic
  generalize overlayLookup check w np.entry newName = x
  rcases x with ⟨_ | e | why, w1⟩ <;> intro bal noPanic <;> dsimp only
  · rename_i r
    rcases r with ⟨_ | ⟨e, stable⟩, inUpper⟩
    · simpa [Outcome.owned, Found.owned] using bal
    · have drop : (dropFound w1 (.positive e stable)).holds h = w.holds h := by
        rw [dropFound_holds, bal]; simp [Outcome.owned]
      dsimp only
      split
      · split
        · exact drop
        · split <;> exact drop
      · exact drop
  · simp only [Outcome.owned] at bal
    split <;> simpa using bal
  · exact absurd rfl (noPanic why)

theorem overlayRead_holds {α : Type} {f : World → Ino → Outcome α × World} (o : EntryId)
    (e : OverlayEntry) (found : w.entries o = some e) (hasLayer : e.upper.isSome ∨ e.lower.isSome)
    (keeps : ∀ w i, (f w i).2.holds = w.holds) (noPanic : ∀ w i why, (f w i).1 ≠ .panic why) :
    (overlayRead w o f).2.holds = w.holds := by
  obtain ⟨i, hi⟩ : ∃ i, readLayer e = .ok i := by
    rcases hr : readLayer e with i | err | why
    · exact ⟨i, rfl⟩
    · rcases e with ⟨_ | u, _ | l, le⟩ <;> simp_all [readLayer]
    · exact absurd hr (readLayer_ne_panic hasLayer why)
  have k := keeps (w.acquire (.reader o)) i
  have np := noPanic (w.acquire (.reader o)) i
  simp only [overlayRead, found, hi]
  revert k np
  generalize f (w.acquire (.reader o)) i = x
  rcases x with ⟨_ | _ | why, w1⟩ <;> intro k np
  · exact release_holds_of_acquire k
  · exact release_holds_of_acquire k
  · exact absurd rfl (np why)

/-- `overlayGetlink` leaves every count as it found it. -/
theorem overlayGetlink_holds (o : EntryId) (e : OverlayEntry) (found : w.entries o = some e)
    (hasLayer : e.upper.isSome ∨ e.lower.isSome) : (overlayGetlink w o).2.holds = w.holds := by
  refine overlayRead_holds o e found hasLayer (fun w i => ?_) (fun w i why => ?_)
  all_goals
    simp only [World.getlink, World.live]
    rcases w.inodes i with _ | b
    · simp
    · rcases hf : b.fault with _ | e
      · rcases hl : b.link with _ | t <;> simp [hf, hl]
      · simp [hf]

/-- `overlayBind` changes every count by exactly what the entry it returns owns. -/
theorem overlayBind_holds (o : EntryId) (name : String) (data : Nat) (oe : OverlayEntry)
    (found : w.entries o = some oe) :
    (overlayBind check w o name data).2.holds h =
      w.holds h + (overlayBind check w o name data).1.owned (fun n => n.entry.owned) h := by
  simp only [overlayBind, found]
  rcases oe.upper with _ | ou
  · simp [World.release_holds, World.acquire_holds, Outcome.owned]
  rcases hb : (w.acquire (.reader o)).bind ou name data with e | ⟨i, w2⟩
  · simp [hb, World.release_holds, World.acquire_holds, Outcome.owned]
  have made := bind_holds (h := h) hb
  simp only [World.acquire_holds] at made
  rcases hc : check (some i) none false with _ | e <;>
    simp [hb, newOverlayEntry, hc, World.release_holds, World.acquire_holds, Outcome.owned,
      OverlayEntry.owned, refOf, made] <;> omega

end Paths

/-! ## The leak in `overlayCreate` -/

section Create
variable {check : EntryCheck} {w : World}

theorem remove_holds {dir : Ino} {name : String} {w' : World} (made : w.remove dir name = .ok w') :
    w'.holds = w.holds := by
  unfold World.remove at made
  split at made
  · cases made
  · split at made
    · split at made <;> cases made
      rfl
    · cases made

theorem cleanupUpper_holds (dir : Ino) (name : String) :
    (cleanupUpper w dir name).holds = w.holds := by
  unfold cleanupUpper
  split
  · exact remove_holds ‹_›
  · rfl

theorem overlayCreate_rejected {parent : DirentId} {name : String} {flags : FileFlags}
    {w₁ w₂ : World} {ou i : Ino} {e : Errno}
    (copied : copyUp w parent = (.ok (), w₁)) (upper : w₁.upperOf parent = some ou)
    (made : w₁.create ou name = .ok (i, w₂)) (rejected : check (some i) none false = some e)
    (h : Hold) :
    (overlayCreate check w parent name flags).1 = .err e ∧
      (overlayCreate check w parent name flags).2.holds h = w₁.holds h +
        (if h = .inode i then 1 else 0) + (if h = .file ou name then 1 else 0) +
        (if h = .dirent ou name then 1 else 0) := by
  simp [overlayCreate, afterCopyUp, copied, withUpper, upper, made, newOverlayEntry, rejected,
    cleanupUpper_holds, World.acquire_holds, create_holds made]
  omega

end Create

/-- An overlay mount whose root is an empty upper directory. -/
def upperRootWorld : World :=
  .build [(⟨.upper, 0⟩, Inode.fresh .directory ⟨.upper, 0⟩ "" none)]
    [⟨some ⟨.upper, 0⟩, none, false⟩] [⟨"", none, 0, ⟨.directory, 0, 0⟩⟩]

theorem overlayCreate_leaks_on_reject :
    (overlayCreate (fun _ _ _ => some .EINVAL) upperRootWorld 0 "f" ⟨true, true⟩).1 = .err .EINVAL ∧
      (overlayCreate (fun _ _ _ => some .EINVAL) upperRootWorld 0 "f" ⟨true, true⟩).2.holds
          (.inode ⟨.upper, 1⟩) = upperRootWorld.holds (.inode ⟨.upper, 1⟩) + 1 ∧
      (overlayCreate (fun _ _ _ => some .EINVAL) upperRootWorld 0 "f" ⟨true, true⟩).2.holds
          (.file ⟨.upper, 0⟩ "f") = upperRootWorld.holds (.file ⟨.upper, 0⟩ "f") + 1 ∧
      (overlayCreate (fun _ _ _ => some .EINVAL) upperRootWorld 0 "f" ⟨true, true⟩).2.holds
          (.dirent ⟨.upper, 0⟩ "f") = upperRootWorld.holds (.dirent ⟨.upper, 0⟩ "f") + 1 := by
  have copied : copyUp upperRootWorld 0 = (.ok (), upperRootWorld) := Prod.ext (by decide) rfl
  obtain ⟨w₂, made⟩ : ∃ w₂, upperRootWorld.create ⟨.upper, 0⟩ "f" = .ok (⟨.upper, 1⟩, w₂) := ⟨_, rfl⟩
  have leak := @overlayCreate_rejected (fun _ _ _ => some .EINVAL) upperRootWorld 0 "f" ⟨true, true⟩
    upperRootWorld w₂ ⟨.upper, 0⟩ ⟨.upper, 1⟩ .EINVAL copied rfl made rfl
  refine ⟨(leak (.inode ⟨.upper, 1⟩)).1, ?_, ?_, ?_⟩ <;> simp [(leak _).2]

theorem overlayGetlink_holds_root :
    upperRootWorld.entries 0 = some ⟨some ⟨.upper, 0⟩, none, false⟩ ∧
      ((⟨some ⟨.upper, 0⟩, none, false⟩ : OverlayEntry).upper.isSome ∨
        (⟨some ⟨.upper, 0⟩, none, false⟩ : OverlayEntry).lower.isSome) ∧
      (overlayGetlink upperRootWorld 0).2.holds = upperRootWorld.holds :=
  ⟨rfl, .inl rfl, overlayGetlink_holds 0 _ rfl (.inl rfl)⟩

theorem overlayBind_holds_socket :
    upperRootWorld.entries 0 = some ⟨some ⟨.upper, 0⟩, none, false⟩ ∧
      (overlayBind (fun _ _ _ => none) upperRootWorld 0 "s" 7).2.holds (.inode ⟨.upper, 1⟩) =
        upperRootWorld.holds (.inode ⟨.upper, 1⟩) +
          (overlayBind (fun _ _ _ => none) upperRootWorld 0 "s" 7).1.owned
            (fun n => n.entry.owned) (.inode ⟨.upper, 1⟩) :=
  ⟨rfl, overlayBind_holds 0 "s" 7 _ rfl⟩

end ContainerFs.Fs
