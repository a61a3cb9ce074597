import ContainerFs.Fs.Lookup

/-! The merge rule of §4.1 stated from the answers of the two backing lookups and the
whiteout test, and `overlayLookup` shown to compute it. -/

set_option autoImplicit false

namespace ContainerFs.Fs

/-- The error an answer carries, unless it is `ENOENT`, which a lookup tolerates. -/
def Looked.failure : Looked → Option Errno
  | .error e => if e = .ENOENT then none else some e
  | _ => none

def Looked.positive? : Looked → Option Ino
  | .positive i => some i
  | _ => none

def Looked.isNegative : Looked → Bool
  | .negative => true
  | _ => false

/-- An entry with these counterparts, or `newOverlayEntry`'s refusal. -/
def ruleEntry (check : EntryCheck) (upper lower : Option Ino) (lowerExists : Bool)
    (stable : StableAttr) : Outcome (Found × Bool) :=
  match check upper lower lowerExists with
  | some e => .err e
  | none => .ok (.positive ⟨upper, lower, lowerExists⟩ stable, upper.isSome)

/-- No positive match: a negative Dirent exactly when the upper returned one. -/
def ruleAbsent (negative : Bool) : Outcome (Found × Bool) :=
  if negative then .ok (.negative, false) else .err .ENOENT

/-- The rule once the upper answer is known and no whiteout masks the name. -/
def ruleMerge (check : EntryCheck) (stableOf : Ino → StableAttr) (upperMatch : Option Ino)
    (negative : Bool) (lo : Option Looked) : Outcome (Found × Bool) :=
  match lo.bind Looked.failure with
  | some e => .err e
  | none =>
    let lowerMatch := (lo.bind Looked.positive?).filter fun l =>
      upperMatch.all fun u => compatible (stableOf u) (stableOf l)
    match upperMatch, lowerMatch with
    | none, none => ruleAbsent negative
    | some u, none => ruleEntry check (some u) none false (stableOf u)
    | none, some l => ruleEntry check none (some l) true (stableOf l)
    | some u, some l =>
      ruleEntry check (some u) (if isDir (stableOf l) then some l else none) true (stableOf l)

/-- The merge rule as the spec words it, from the two lookups' answers and the whiteout. -/
def lookupRule (check : EntryCheck) (stableOf : Ino → StableAttr) (up : Option Looked)
    (whiteout : Bool) (lo : Option Looked) : Outcome (Found × Bool) :=
  match up.bind Looked.failure with
  | some e => .err e
  | none =>
    if whiteout then
      match up.bind Looked.positive? with
      | some u => ruleEntry check (some u) none false (stableOf u)
      | none => ruleAbsent (up.any Looked.isNegative)
    else ruleMerge check stableOf (up.bind Looked.positive?) (up.any Looked.isNegative) lo

theorem direntOutcome_map (check : EntryCheck) (stable : StableAttr) (u : Option Ino)
    (l : Option Ino) (le : Bool) :
    (direntOutcome check stable u l le).map (·, u.isSome) = ruleEntry check u l le stable := by
  unfold direntOutcome ruleEntry
  cases check u l le <;> rfl

section
variable (check : EntryCheck) (s : Ino → StableAttr)

theorem mergeOutcome_none (u : Option Ino) (neg : Bool) :
    mergeOutcome check s u none neg = ruleMerge check s u neg none := by
  rcases u with _ | u
  · rfl
  · exact direntOutcome_map check (s u) (some u) none false

theorem lowerOutcome_eq_ruleMerge (lo : Option Looked) (u : Option Ino) (neg : Bool) :
    lowerOutcome check s lo u neg = ruleMerge check s u neg lo := by
  rcases lo with _ | (c | _ | e)
  · exact mergeOutcome_none check s u neg
  · rcases u with _ | u
    · exact direntOutcome_map check (s c) none (some c) true
    · by_cases compat : compatible (s u) (s c) <;>
        simp [lowerOutcome, lowerStep, ruleMerge, mergeOutcome, Looked.failure, Looked.positive?,
          Option.filter, compat, ← direntOutcome_map]
  · exact mergeOutcome_none check s u neg
  · by_cases h : e = .ENOENT
    · simpa [lowerOutcome, lowerStep, ruleMerge, Looked.failure, Looked.positive?, h] using
        mergeOutcome_none check s u neg
    · simp [lowerOutcome, lowerStep, ruleMerge, Looked.failure, h]

theorem whiteoutOutcome_eq (u : Option Ino) (neg : Bool) :
    whiteoutOutcome check s u neg =
      match u with
      | some u => ruleEntry check (some u) none false (s u)
      | none => ruleAbsent neg := by
  rcases u with _ | u
  · rfl
  · exact direntOutcome_map check (s u) (some u) none false

theorem upperOutcome_eq_lookupRule (a : Looked) (wo : Bool) (lo : Option Looked) :
    (match upperStep a with
      | .error e => .err e
      | .ok (u, neg) =>
        if wo then whiteoutOutcome check s u neg else lowerOutcome check s lo u neg) =
      lookupRule check s (some a) wo lo := by
  rcases a with u | _ | e
  · cases wo <;> simp [upperStep, lookupRule, Looked.failure, Looked.positive?, Looked.isNegative,
      whiteoutOutcome_eq, lowerOutcome_eq_ruleMerge]
  · cases wo <;> simp [upperStep, lookupRule, Looked.failure, Looked.positive?, Looked.isNegative,
      whiteoutOutcome_eq, lowerOutcome_eq_ruleMerge]
  · by_cases h : e = .ENOENT
    · cases wo <;> simp [upperStep, lookupRule, Looked.failure, Looked.positive?, Looked.isNegative,
        whiteoutOutcome_eq, lowerOutcome_eq_ruleMerge, h]
    · simp [upperStep, lookupRule, Looked.failure, h]

end

/-! ## Under a whiteout the lower is not consulted -/

section Whiteout
variable (check : EntryCheck) (w : World) (e : EntryId) (x : OverlayEntry) (name : String)

theorem lookupUpper_setEntry (dir : Ino) :
    lookupUpper (w.setEntry e x) dir name =
      ((lookupUpper w dir name).1, (lookupUpper w dir name).2.setEntry e x) := by
  have same : (w.setEntry e x).slot dir name = w.slot dir name := rfl
  rcases hs : w.slot dir name with _ | (i | _ | err) <;>
    simp only [lookupUpper, World.lookup, hs, same] <;> (try split) <;> rfl

theorem overlayLookupWhiteout_setEntry (u : Option Ino) (neg : Bool) :
    overlayLookupWhiteout check (w.setEntry e x) u neg =
      ((overlayLookupWhiteout check w u neg).1, (overlayLookupWhiteout check w u neg).2.setEntry e x) := by
  rcases u with _ | u
  · rfl
  · simp only [overlayLookupWhiteout, newOverlayDirent]
    split <;> try rfl
    rename_i entry _
    rcases entry with ⟨_ | u', l, le⟩ <;> rcases l with _ | l <;> rfl

theorem overlayLookup_setEntry_lower {parent : EntryId} {p : OverlayEntry}
    (found : w.entries parent = some p) {pu : Ino} (hu : p.upper = some pu)
    (whited : overlayHasWhiteout w pu name = true) (l : Option Ino) :
    overlayLookup check (w.setEntry parent { p with lower := l }) parent name =
      ((overlayLookup check w parent name).1,
        (overlayLookup check w parent name).2.setEntry parent { p with lower := l }) := by
  have acquired : ∀ y, (w.setEntry parent y).acquire (.reader parent) =
      (w.acquire (.reader parent)).setEntry parent y := fun _ => rfl
  have released : ∀ (w' : World) y, (w'.setEntry parent y).release (.reader parent) =
      (w'.release (.reader parent)).setEntry parent y := fun _ _ => rfl
  have same := lookupUpper_inodes (w.acquire (.reader parent)) pu name
  simp only [overlayLookup, World.setEntry_entries, Function.update_same, found, hu, acquired,
    overlayLookupLocked, lookupUpper_setEntry]
  generalize lookupUpper (w.acquire (.reader parent)) pu name = r at same
  rcases r with ⟨_ | ⟨u, neg⟩, w1⟩
  · simp [released]
  · have whited1 : overlayHasWhiteout w1 pu name = true := by
      rwa [overlayHasWhiteout_congr w same]
    have whitedE : ∀ y, overlayHasWhiteout (w1.setEntry parent y) pu name = true := fun _ => whited1
    simp only [whited1, whitedE, if_true, overlayLookupWhiteout_setEntry]
    generalize overlayLookupWhiteout check w1 u neg = r
    rcases r with ⟨_ | _ | _, w2⟩ <;> simp [released]
end Whiteout

/-- `overlayLookup` computes the merge rule, and under a whiteout ignores the lower. -/
theorem overlayLookup_eq_lookupRule (check : EntryCheck) (w : World) (parent : EntryId)
    (p : OverlayEntry) (name : String) (found : w.entries parent = some p) (wf : p.WellFormed)
    (live : w.SlotsLive) :
    (overlayLookup check w parent name).1 =
      lookupRule check w.stableOf (p.upper.map fun d => (w.lookup d name).1)
        (p.upper.any fun d => overlayHasWhiteout w d name)
        (p.lower.map fun d => (w.lookup d name).1) ∧
    ∀ pu, p.upper = some pu → overlayHasWhiteout w pu name = true → ∀ l : Option Ino,
      overlayLookup check (w.setEntry parent { p with lower := l }) parent name =
        ((overlayLookup check w parent name).1,
          (overlayLookup check w parent name).2.setEntry parent { p with lower := l }) := by
  refine ⟨?_, fun pu hu whited l => overlayLookup_setEntry_lower check w name found hu whited l⟩
  have liveUpper : ∀ dir u, p.upper = some dir → (w.acquire (.reader parent)).slot dir name =
      some (.bound u) → ((w.acquire (.reader parent)).inodes u).isSome := by
    intro dir u _ bound
    simp only [World.slot, World.acquire_inodes, Option.bind_eq_some] at bound ⊢
    obtain ⟨b, hb, hc⟩ := bound
    exact live dir b name u hb hc
  have same := World.acquire_inodes (w := w) (h := .reader parent)
  rw [overlayLookup_fst w name parent p found wf.hasLayer, overlayLookupLocked_fst _ name p liveUpper]
  simp only [stableOf_acquire, World.lookup_fst_congr same, overlayHasWhiteout_congr w same]
  rcases p with ⟨_ | ud, lo, le⟩
  · exact lowerOutcome_eq_ruleMerge check w.stableOf _ none false
  · exact upperOutcome_eq_lookupRule check w.stableOf _ _ _

/-- A merged root: its upper and its lower directory both hold a regular file `a`. -/
def mergedWorld : World :=
  .build
    [(⟨.upper, 0⟩, { Inode.fresh .directory ⟨.upper, 0⟩ "" none with
        children := [("a", .bound ⟨.upper, 1⟩)] }),
      (⟨.upper, 1⟩, Inode.fresh .regularFile ⟨.upper, 1⟩ "" none),
      (⟨.lower, 0⟩, { Inode.fresh .directory ⟨.lower, 0⟩ "" none with
        children := [("a", .bound ⟨.lower, 1⟩)] }),
      (⟨.lower, 1⟩, Inode.fresh .regularFile ⟨.lower, 1⟩ "" none)]
    [⟨some ⟨.upper, 0⟩, some ⟨.lower, 0⟩, true⟩] []

theorem overlayLookup_eq_lookupRule_merged :
    mergedWorld.entries 0 = some ⟨some ⟨.upper, 0⟩, some ⟨.lower, 0⟩, true⟩ ∧
      OverlayEntry.WellFormed ⟨some ⟨.upper, 0⟩, some ⟨.lower, 0⟩, true⟩ ∧ mergedWorld.SlotsLive ∧
      (overlayLookup (fun _ _ _ => none) mergedWorld 0 "a").1 =
        lookupRule (fun _ _ _ => none) mergedWorld.stableOf
          (some (mergedWorld.lookup ⟨.upper, 0⟩ "a").1)
          (overlayHasWhiteout mergedWorld ⟨.upper, 0⟩ "a")
          (some (mergedWorld.lookup ⟨.lower, 0⟩ "a").1) ∧
      ∀ pu, some ⟨.upper, 0⟩ = some pu → overlayHasWhiteout mergedWorld pu "a" = true →
        ∀ l : Option Ino,
          overlayLookup (fun _ _ _ => none)
              (mergedWorld.setEntry 0 ⟨some ⟨.upper, 0⟩, l, true⟩) 0 "a" =
            ((overlayLookup (fun _ _ _ => none) mergedWorld 0 "a").1,
              (overlayLookup (fun _ _ _ => none) mergedWorld 0 "a").2.setEntry 0
                ⟨some ⟨.upper, 0⟩, l, true⟩) :=
  have wf : OverlayEntry.WellFormed ⟨some ⟨.upper, 0⟩, some ⟨.lower, 0⟩, true⟩ :=
    ⟨by decide, by decide⟩
  have live := World.build_slotsLive _ _ (by decide)
  ⟨rfl, wf, live, overlayLookup_eq_lookupRule _ mergedWorld 0 _ "a" rfl wf live⟩

end ContainerFs.Fs
