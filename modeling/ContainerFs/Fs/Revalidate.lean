import ContainerFs.Fs.Mount

/-! `Revalidate` of the overlay mount source. A Dirent's entry has an upper counterpart only under
a parent whose entry has one, so the upper mount source always gets a non-nil parent; after a
rename the lower mount source can get a nil one. -/

set_option autoImplicit false

namespace ContainerFs.Fs

/-- A call of a backing mount source's `Revalidate`. -/
structure RevalidateCall where
  layer : Layer
  name : String
  parent : Option Ino
  child : Ino
  deriving DecidableEq, Repr

/-- `overlayMountSourceOperations.Revalidate`: the verdict and the backing calls it makes. -/
def overlayRevalidate (revalidate : RevalidateCall → Bool) (name : String)
    (parent child : Option OverlayEntry) : Outcome Bool × List RevalidateCall :=
  match child, parent with
  | none, _ => (.panic "overlay cannot revalidate inode that is not an overlay", [])
  | some _, none =>
    (.panic "trying to revalidate an overlay inode but the parent is not an overlay", [])
  | some c, some p =>
    let lower : List RevalidateCall :=
      match c.lower with
      | some l => [⟨.lower, name, p.lower, l⟩]
      | none => []
    if lower.any revalidate then
      (.panic "an overlay cannot revalidate file objects from the lower fs", lower)
    else
      match c.upper with
      | none => (.ok false, lower)
      | some u =>
        let call : RevalidateCall := ⟨.upper, name, p.upper, u⟩
        (.ok (revalidate call), lower ++ [call])

theorem overlayRevalidate_upper_call (revalidate : RevalidateCall → Bool) (name : String)
    {parent child : Option OverlayEntry} {call : RevalidateCall}
    (made : call ∈ (overlayRevalidate revalidate name parent child).2) (upper : call.layer = .upper) :
    ∃ p c, parent = some p ∧ child = some c ∧ c.upper = some call.child ∧ call.parent = p.upper := by
  rcases child with _ | c
  · cases made
  rcases parent with _ | p
  · cases made
  simp only [overlayRevalidate] at made
  rcases hl : c.lower with _ | l <;> rcases hu : c.upper with _ | u <;>
    simp only [hl, hu] at made <;> split at made <;>
    simp only [List.mem_append, List.mem_singleton, List.not_mem_nil, List.nil_append] at made
  all_goals rcases made with rfl | rfl
  all_goals first | exact ⟨p, c, rfl, rfl, hu, rfl⟩ | cases upper

section Tree
variable {check : EntryCheck} {readdirOne : World → OverlayEntry → Except Errno (List String)}
  {w : World}

/-- In every reachable state a copied-up Dirent has a copied-up parent. -/
theorem reach_upper_parent (r : Reach check readdirOne w) :
    (∀ d dd p, w.dirents d = some dd → dd.parent = some p →
      (w.upperOf d).isSome → (w.upperOf p).isSome) ∧
    (∀ revalidate d dd p pd call, w.dirents d = some dd → dd.parent = some p →
      w.dirents p = some pd →
      call ∈ (overlayRevalidate revalidate dd.name (w.entries pd.entry) (w.entries dd.entry)).2 →
      call.layer = .upper → call.parent.isSome) ∧
    (∀ child cd parent w1, w.dirents child = some cd → cd.parent = some parent →
      copyUp w parent = (.ok (), w1) → (w1.upperOf parent).isSome) ∧
    (∀ renamed rd oldParent newParent newName replacement repl w1 w2 w3,
      w.dirents renamed = some rd → rd.parent = some oldParent →
      renameReplaced check readdirOne w newParent newName replacement = (.ok repl, w1) →
      copyUp w1 renamed = (.ok (), w2) → copyUp w2 newParent = (.ok (), w3) →
      (w3.upperOf oldParent).isSome ∧ (w3.upperOf newParent).isSome) := by
  have inv := r.invariant
  refine ⟨inv.upperTree, ?_, fun _ _ _ _ _ _ cu => (copyUp_ok inv cu).2, ?_⟩
  · intro revalidate d dd p pd call hd hp hpd made upper
    obtain ⟨pe, ce, hpe, hce, hu, hparent⟩ := overlayRevalidate_upper_call revalidate dd.name made upper
    have up := inv.upperTree d dd p hd hp (by simp [World.upperOf, hd, hce, hu])
    simpa [World.upperOf, hpd, hpe, hparent] using up
  · intro renamed rd oldParent newParent newName replacement repl w1 w2 w3 hr hp replaced cu2 cu3
    have ev1 := evolves_renameReplaced check readdirOne inv newParent newName replacement
    rw [replaced] at ev1
    obtain ⟨ev2, up2⟩ := copyUp_ok (ev1.invariant inv) cu2
    obtain ⟨ev3, up3⟩ := copyUp_ok (ev2.invariant (ev1.invariant inv)) cu3
    have ev := ev1.trans (ev2.trans ev3)
    exact ⟨(ev.invariant inv).upperTree renamed rd oldParent (ev.dirents ▸ hr) hp
      (ev3.upperOf_isSome up2), up3⟩

end Tree

def splitRenamed : World :=
  (exec (fun _ _ _ => none) (fun _ _ => .ok [])
    (exec (fun _ _ _ => none) (fun _ _ => .ok [])
      (exec (fun _ _ _ => none) (fun _ _ => .ok []) splitMount (.lookup 0 "m")).2
      (.lookup 0 "n")).2
    (.rename 1 2 "m" false)).2

theorem splitRenamed_reach : Reach (fun _ _ _ => none) (fun _ _ => .ok []) splitRenamed :=
  .step _ (.step _ (.step _ splitMount_reach (by decide)) (by decide)) (by decide)

theorem reach_upper_parent_renamed :
    Reach (fun _ _ _ => none) (fun _ _ => .ok []) splitRenamed ∧
      ∀ d dd p, splitRenamed.dirents d = some dd → dd.parent = some p →
        (splitRenamed.upperOf d).isSome → (splitRenamed.upperOf p).isSome :=
  ⟨splitRenamed_reach, (reach_upper_parent splitRenamed_reach).1⟩

theorem rename_loses_lower_parent :
    Reach (fun _ _ _ => none) (fun _ _ => .ok []) splitRenamed ∧
      (splitRenamed.dirents 1).bind Dirent.parent = some 2 ∧
      (splitRenamed.dirents 1).map Dirent.entry = some 1 ∧
      (splitRenamed.dirents 2).map Dirent.entry = some 2 ∧
      (splitRenamed.entries 1).bind OverlayEntry.lower = some ⟨.lower, 1⟩ ∧
      (splitRenamed.entries 2).bind OverlayEntry.lower = none ∧
      (overlayRevalidate (fun _ => false) "m" (splitRenamed.entries 2) (splitRenamed.entries 1)).2 =
        [⟨.lower, "m", none, ⟨.lower, 1⟩⟩, ⟨.upper, "m", some ⟨.upper, 2⟩, ⟨.upper, 1⟩⟩] :=
  ⟨splitRenamed_reach, by decide, by decide, by decide, by decide, by decide, by decide⟩

end ContainerFs.Fs
