import ContainerFs.Image.Varint
import Mathlib.Data.List.Forall2

/-! The first image generator (`main.go`): `fileWriter`, the walk of `zarManager`, `WriteHeader`
and `writeImage`. `align` is declared nowhere in the file and the gob encoder is outside src/, so
both are parameters; I/O is taken to succeed. `WriteInt64` counts the header twice, so the count
`Close` prints is the image's size only when the header is ten bytes longer than its location. -/

set_option autoImplicit false

namespace ContainerFs.Image.V1

def pageBoundary : Nat := 4096

/-- `fileWriter`: the bytes written through its buffered writer, and `count`. -/
structure FileWriter where
  written : List UInt8
  count : Int
  deriving DecidableEq, Repr

structure FileMetadata where
  begin : Int
  «end» : Int
  name : String
  deriving DecidableEq, Repr

structure ZarManager where
  pageAlign : Bool
  writer : FileWriter
  metadata : List FileMetadata
  deriving DecidableEq, Repr

/-- What `ioutil.ReadDir` lists: a directory with its listing, or a file with its bytes. -/
inductive DirEntry where
  | file (name : String) (content : List UInt8)
  | dir (name : String) (files : List DirEntry)
  deriving Repr

/-- `fileWriter.Init`: a new, empty image file behind the buffered writer. -/
def FileWriter.init (w : FileWriter) : Except String FileWriter :=
  if w.count ≠ 0 then .error "unknown error, writer counter is not 0 when initializing"
  else .ok { w with written := [] }

section Writer

variable (align : Nat)

/-- The padding `fileWriter.Write` computes after `n` bytes of data. -/
def padding (pageAlign : Bool) (n : Nat) : Nat :=
  if pageAlign then (align - n % align) % pageBoundary else 0

/-- `fileWriter.Write`: `data`, then the padding if there is any; returns where `data` ends. -/
def FileWriter.write (w : FileWriter) (data : List UInt8) (pageAlign : Bool) : Int × FileWriter :=
  let n := data.length
  let pad := padding align pageAlign n
  let n2 := if 0 < pad then pad else 0
  (w.count + n, ⟨w.written ++ data ++ List.replicate n2 0, w.count + (n + n2 : Nat)⟩)

/-- `fileWriter.WriteInt64`: `Write` of the varint buffer, then `count` grows again. -/
def FileWriter.writeInt64 (w : FileWriter) (v : Int) : Int × FileWriter :=
  let r := w.write align (Binary.varintBuffer v) false
  (r.1, { r.2 with count := r.2.count + r.1 })

namespace ZarManager

def includeFolderBegin (z : ZarManager) (name : String) : ZarManager :=
  { z with metadata := z.metadata ++ [⟨-1, -1, name⟩] }

def includeFolderEnd (z : ZarManager) : ZarManager :=
  { z with metadata := z.metadata ++ [⟨-1, -1, ".."⟩] }

/-- `IncludeFile` of a file with the bytes `content`; the offset it returns is not used. -/
def includeFile (z : ZarManager) (fn : String) (content : List UInt8) : ZarManager :=
  let oldCounter := z.writer.count
  let r := z.writer.write align content z.pageAlign
  { z with writer := r.2, metadata := z.metadata ++ [⟨oldCounter, r.1, fn⟩] }

mutual

/-- `WalkDir` over the listing `files` of `foldername`; the root is not marked. -/
def walkDir (z : ZarManager) (foldername : String) (root : Bool) (files : List DirEntry) :
    ZarManager :=
  let z := if root then z else z.includeFolderBegin foldername
  let z := z.walkFiles files
  if root then z else z.includeFolderEnd
termination_by (sizeOf files, 1)

/-- The loop of `WalkDir`, in the order `ReadDir` lists. -/
def walkFiles (z : ZarManager) : List DirEntry → ZarManager
  | [] => z
  | .file name content :: rest => (z.includeFile align name content).walkFiles rest
  | .dir name files :: rest => (z.walkDir name false files).walkFiles rest
termination_by files => (sizeOf files, 0)

end

variable (encode : List FileMetadata → List UInt8)

/-- `WriteHeader`: the gob encoding of the metadata, then its location by `WriteInt64`. -/
def writeHeader (z : ZarManager) : ZarManager :=
  let headerLoc := z.writer.count
  let w := { z.writer with written := z.writer.written ++ encode z.metadata }
  { z with writer := (w.writeInt64 align headerLoc).2 }

end ZarManager

def ZarManager.empty (pageAlign : Bool) : ZarManager := ⟨pageAlign, ⟨[], 0⟩, []⟩

/-- `writeImage`: the bytes of the image file, once `Close` has flushed them. -/
def writeImage (encode : List FileMetadata → List UInt8) (files : List DirEntry)
    (pageAlign : Bool) : Except String (List UInt8) :=
  ((ZarManager.empty pageAlign).writer.init).map fun w =>
    ((({ ZarManager.empty pageAlign with writer := w }).walkDir align "" true files).writeHeader
      align encode).writer.written

end Writer

/-! ## What the walk records -/

/-- The entries the metadata of a walk records, in order. -/
def flatten : List DirEntry → List (String × Option (List UInt8))
  | [] => []
  | .file name content :: rest => (name, some content) :: flatten rest
  | .dir name files :: rest => (name, none) :: flatten files ++ ("..", none) :: flatten rest

/-- Metadata entry `m` records the flattened entry `e` in the image `img`. -/
inductive Records (img : List UInt8) : FileMetadata → String × Option (List UInt8) → Prop
  | mark (name : String) : Records img ⟨-1, -1, name⟩ (name, none)
  | file (name : String) (content : List UInt8) (start : Nat)
      (fits : start + content.length ≤ img.length)
      (holds : (img.drop start).take content.length = content) :
      Records img ⟨start, start + content.length, name⟩ (name, some content)

/-- `z'` follows `z` by a walk over part of a tree whose flattening is `flat`. -/
structure Grows (z z' : ZarManager) (flat : List (String × Option (List UInt8))) : Prop where
  pageAlign : z'.pageAlign = z.pageAlign
  counted : z'.writer.count = z'.writer.written.length
  grows : z.writer.written <+: z'.writer.written
  records : ∃ added, z'.metadata = z.metadata ++ added ∧
    ∀ img, z'.writer.written <+: img → List.Forall₂ (Records img) added flat

section Walk

variable {z z₁ z₂ z' : ZarManager}

theorem Grows.refl (counted : z.writer.count = z.writer.written.length) : Grows z z [] :=
  ⟨rfl, counted, List.prefix_refl _, [], by simp, fun _ _ => .nil⟩

theorem Grows.trans {f₁ f₂ : List (String × Option (List UInt8))} (h₁ : Grows z z₁ f₁)
    (h₂ : Grows z₁ z₂ f₂) : Grows z z₂ (f₁ ++ f₂) where
  pageAlign := h₂.pageAlign.trans h₁.pageAlign
  counted := h₂.counted
  grows := h₁.grows.trans h₂.grows
  records := by
    obtain ⟨a₁, e₁, r₁⟩ := h₁.records
    obtain ⟨a₂, e₂, r₂⟩ := h₂.records
    exact ⟨a₁ ++ a₂, by rw [e₂, e₁, List.append_assoc],
      fun img p => List.rel_append (r₁ img (h₂.grows.trans p)) (r₂ img p)⟩

theorem grows_mark (counted : z.writer.count = z.writer.written.length) (name : String)
    (h : z' = { z with metadata := z.metadata ++ [⟨-1, -1, name⟩] }) : Grows z z' [(name, none)] :=
  h ▸ ⟨rfl, counted, List.prefix_refl _, [_], rfl, fun _ _ => .cons (.mark name) .nil⟩

variable (align : Nat)

theorem includeFile_grows (counted : z.writer.count = z.writer.written.length) (fn : String)
    (content : List UInt8) : Grows z (z.includeFile align fn content) [(fn, some content)] := by
  refine ⟨rfl, ?_, ⟨_, List.append_assoc _ _ _ |>.symm⟩, [_], rfl, fun img p => .cons ?_ .nil⟩
  · simp only [ZarManager.includeFile, FileWriter.write, counted, List.length_append,
      List.length_replicate]
    omega
  · obtain ⟨rest, rfl⟩ := p
    simp only [ZarManager.includeFile, FileWriter.write, counted]
    refine .file fn content _ (by simp only [List.length_append]; omega) ?_
    simp [List.append_assoc]

mutual

theorem walkDir_grows (z : ZarManager) (counted : z.writer.count = z.writer.written.length)
    (name : String) (root : Bool) (files : List DirEntry) :
    Grows z (z.walkDir align name root files)
      (if root then flatten files else (name, none) :: flatten files ++ [("..", none)]) := by
  rw [ZarManager.walkDir]
  cases root
  · have opened := grows_mark counted name rfl
    have walked := walkFiles_grows _ opened.counted files
    have closed := grows_mark walked.counted ".." rfl
    simpa using (opened.trans walked).trans closed
  · simpa using walkFiles_grows z counted files
termination_by (sizeOf files, 1)

theorem walkFiles_grows (z : ZarManager) (counted : z.writer.count = z.writer.written.length)
    (files : List DirEntry) : Grows z (z.walkFiles align files) (flatten files) := by
  match files with
  | [] => rw [ZarManager.walkFiles, flatten]; exact .refl counted
  | .file name content :: rest =>
    rw [ZarManager.walkFiles, flatten]
    have step := includeFile_grows align counted name content
    exact step.trans (walkFiles_grows _ step.counted rest)
  | .dir name files :: rest =>
    rw [ZarManager.walkFiles, flatten]
    have step := walkDir_grows z counted name false files
    simpa using step.trans (walkFiles_grows _ step.counted rest)
termination_by (sizeOf files, 0)

end

end Walk

/-! ## Properties every step keeps -/

/-- `P` holds after each `Include` step from a manager where it holds. -/
structure StepInvariant (align : Nat) (P : ZarManager → Prop) : Prop where
  file : ∀ z fn content, P z → P (z.includeFile align fn content)
  opened : ∀ z name, P z → P (z.includeFolderBegin name)
  closed : ∀ z, P z → P z.includeFolderEnd

section Invariant

variable {align : Nat} {P : ZarManager → Prop} (inv : StepInvariant align P)
include inv

mutual

theorem walkDir_invariant (z : ZarManager) (h : P z) (name : String) (root : Bool)
    (files : List DirEntry) : P (z.walkDir align name root files) := by
  rw [ZarManager.walkDir]
  cases root
  · exact inv.closed _ (walkFiles_invariant _ (inv.opened z name h) files)
  · exact walkFiles_invariant z h files
termination_by (sizeOf files, 1)

theorem walkFiles_invariant (z : ZarManager) (h : P z) (files : List DirEntry) :
    P (z.walkFiles align files) := by
  match files with
  | [] => rwa [ZarManager.walkFiles]
  | .file name content :: rest =>
    rw [ZarManager.walkFiles]; exact walkFiles_invariant _ (inv.file z name content h) rest
  | .dir name files :: rest =>
    rw [ZarManager.walkFiles]; exact walkFiles_invariant _ (walkDir_invariant z h name false files) rest
termination_by (sizeOf files, 0)

end

end Invariant

/-! ## Page alignment -/

section Alignment

variable {align : Nat}

/-- With `pageAlign` set, `count` and every recorded file start at a page boundary. -/
def ZarManager.Aligned (z : ZarManager) : Prop :=
  z.pageAlign = true → z.writer.count % pageBoundary = 0 ∧
    ∀ m ∈ z.metadata, m.begin = -1 ∨ m.begin % pageBoundary = 0

theorem padded (good : 0 < align ∧ pageBoundary ∣ align) (n : Nat) :
    (n + if 0 < padding align true n then padding align true n else 0) % pageBoundary = 0 := by
  obtain ⟨k, rfl⟩ := good.2
  have lt := Nat.mod_lt n good.1
  have split := Nat.div_add_mod n (pageBoundary * k)
  rw [Nat.mul_assoc] at split
  simp only [padding, if_true, pageBoundary] at *
  generalize n % (4096 * k) = r at *
  generalize k * (n / (4096 * k)) = m at *
  split <;> omega

theorem ZarManager.Aligned.mark {z : ZarManager} (h : z.Aligned) (name : String) :
    ({ z with metadata := z.metadata ++ [⟨-1, -1, name⟩] } : ZarManager).Aligned := by
  intro set
  obtain ⟨count, begins⟩ := h set
  refine ⟨count, fun m mem => ?_⟩
  rcases List.mem_append.mp mem with old | new
  · exact begins m old
  · exact .inl (by rw [List.mem_singleton.mp new])

theorem ZarManager.Aligned.includeFile (good : 0 < align ∧ pageBoundary ∣ align) {z : ZarManager}
    (h : z.Aligned) (fn : String) (content : List UInt8) : (z.includeFile align fn content).Aligned := by
  intro set
  obtain ⟨count, begins⟩ := h set
  have pad := padded good content.length
  simp only [ZarManager.includeFile, FileWriter.write] at set ⊢
  rw [set]
  refine ⟨by simp only [pageBoundary] at pad count ⊢; omega, fun m mem => ?_⟩
  rcases List.mem_append.mp mem with old | new
  · exact begins m old
  · exact .inr (by rw [List.mem_singleton.mp new]; exact count)

/-- With page alignment every file and the header start at a page boundary. -/
theorem walkDir_aligned (good : 0 < align ∧ pageBoundary ∣ align) (files : List DirEntry) :
    ((ZarManager.empty true).walkDir align "" true files).writer.count % pageBoundary = 0 ∧
      ∀ m ∈ ((ZarManager.empty true).walkDir align "" true files).metadata,
        m.begin = -1 ∨ m.begin % pageBoundary = 0 := by
  have inv : StepInvariant align ZarManager.Aligned :=
    ⟨fun _ fn c h => h.includeFile good fn c, fun _ name h => h.mark name, fun _ h => h.mark ".."⟩
  exact walkDir_invariant inv (ZarManager.empty true)
    (fun _ => ⟨rfl, fun _ mem => absurd mem (List.not_mem_nil _)⟩)
    "" true files (walkDir_grows align _ rfl "" true files).pageAlign

theorem walkDir_aligned_nested :
    (0 < 8192 ∧ pageBoundary ∣ 8192) ∧
      ((ZarManager.empty true).walkDir 8192 "" true [.file "a" [1, 2, 3], .dir "d" [.file "b" [4]]]).writer.count %
          pageBoundary = 0 ∧
      ∀ m ∈ ((ZarManager.empty true).walkDir 8192 "" true
          [.file "a" [1, 2, 3], .dir "d" [.file "b" [4]]]).metadata,
        m.begin = -1 ∨ m.begin % pageBoundary = 0 :=
  ⟨⟨by decide, by decide⟩, walkDir_aligned ⟨by decide, by decide⟩ _⟩

end Alignment

/-! ## Layout -/

section Layout

variable {align : Nat}

/-- The recorded files lie in order in disjoint ranges between byte 0 and `count`. -/
def ZarManager.Laid (z : ZarManager) : Prop :=
  0 ≤ z.writer.count ∧
    (∀ m ∈ z.metadata, m.begin ≠ -1 → 0 ≤ m.begin ∧ m.begin ≤ m.end ∧ m.end ≤ z.writer.count) ∧
    z.metadata.Pairwise fun a b => a.begin ≠ -1 → b.begin ≠ -1 → a.end ≤ b.begin

theorem ZarManager.Laid.mark {z : ZarManager} (h : z.Laid) (name : String) :
    ({ z with metadata := z.metadata ++ [⟨-1, -1, name⟩] } : ZarManager).Laid := by
  obtain ⟨count, bounds, order⟩ := h
  refine ⟨count, fun m mem => ?_, List.pairwise_append.mpr ⟨order, List.pairwise_singleton _ _,
    fun a _ b mem => ?_⟩⟩
  · rcases List.mem_append.mp mem with old | new
    · exact bounds m old
    · rw [List.mem_singleton.mp new]; exact fun ne => absurd rfl ne
  · rw [List.mem_singleton.mp mem]; exact fun _ ne => absurd rfl ne

theorem ZarManager.Laid.includeFile {z : ZarManager} (h : z.Laid) (fn : String)
    (content : List UInt8) : (z.includeFile align fn content).Laid := by
  obtain ⟨count, bounds, order⟩ := h
  simp only [ZarManager.Laid, ZarManager.includeFile, FileWriter.write]
  refine ⟨by omega, fun m mem => ?_, List.pairwise_append.mpr ⟨order, List.pairwise_singleton _ _,
    fun a old b mem => ?_⟩⟩
  · rcases List.mem_append.mp mem with old | new
    · exact fun ne => have := bounds m old ne; ⟨this.1, this.2.1, by omega⟩
    · rw [List.mem_singleton.mp new]
      exact fun _ => ⟨count, by dsimp only; omega, by dsimp only; omega⟩
  · rw [List.mem_singleton.mp mem]
    exact fun ne _ => (bounds a old ne).2.2

/-- The files of an image lie in order, in byte ranges that do not overlap. -/
theorem walkDir_files_disjoint (files : List DirEntry) (pageAlign : Bool) :
    (∀ m ∈ ((ZarManager.empty pageAlign).walkDir align "" true files).metadata, m.begin ≠ -1 →
      0 ≤ m.begin ∧ m.begin ≤ m.end ∧
        m.end ≤ ((ZarManager.empty pageAlign).walkDir align "" true files).writer.count) ∧
      ((ZarManager.empty pageAlign).walkDir align "" true files).metadata.Pairwise
        fun a b => a.begin ≠ -1 → b.begin ≠ -1 → a.end ≤ b.begin := by
  have inv : StepInvariant align ZarManager.Laid :=
    ⟨fun _ fn c h => h.includeFile fn c, fun _ name h => h.mark name, fun _ h => h.mark ".."⟩
  exact (walkDir_invariant inv (ZarManager.empty pageAlign)
    ⟨le_rfl, fun _ mem => absurd mem (List.not_mem_nil _), List.Pairwise.nil⟩ "" true files).2

end Layout

/-! ## The header -/

section Header

variable (align : Nat) (encode : List FileMetadata → List UInt8)

theorem writeHeader_writer (z : ZarManager) :
    (z.writeHeader align encode).writer =
      ⟨z.writer.written ++ encode z.metadata ++ Binary.varintBuffer z.writer.count,
        2 * (z.writer.count + 10)⟩ := by
  obtain ⟨pad, -, length⟩ := Binary.varintBuffer_eq z.writer.count
  simp only [ZarManager.writeHeader, FileWriter.writeInt64, FileWriter.write, padding, length,
    Binary.maxVarintLen64, Bool.false_eq_true, if_false, lt_self_iff_false, List.replicate_zero,
    List.append_nil, FileWriter.mk.injEq, true_and]
  omega

theorem writeImage_eq (files : List DirEntry) (pageAlign : Bool) :
    writeImage align encode files pageAlign =
      .ok (((ZarManager.empty pageAlign).walkDir align "" true files).writeHeader
        align encode).writer.written := rfl

/-- The count `Close` prints against the image's size. -/
theorem writeImage_count (files : List DirEntry) (pageAlign : Bool) :
    (((ZarManager.empty pageAlign).walkDir align "" true files).writeHeader align encode).writer.count =
        2 * (((ZarManager.empty pageAlign).walkDir align "" true files).writer.count + 10) ∧
      ((((ZarManager.empty pageAlign).walkDir align "" true files).writeHeader
          align encode).writer.written.length : Int) =
        ((ZarManager.empty pageAlign).walkDir align "" true files).writer.count +
          (encode ((ZarManager.empty pageAlign).walkDir align "" true files).metadata).length + 10 ∧
      ((((ZarManager.empty pageAlign).walkDir align "" true files).writeHeader
          align encode).writer.count =
        (((ZarManager.empty pageAlign).walkDir align "" true files).writeHeader
          align encode).writer.written.length ↔
        ((encode ((ZarManager.empty pageAlign).walkDir align "" true files).metadata).length : Int) =
          ((ZarManager.empty pageAlign).walkDir align "" true files).writer.count + 10) := by
  have counted := (walkDir_grows align (ZarManager.empty pageAlign) rfl "" true files).counted
  obtain ⟨pad, -, length⟩ := Binary.varintBuffer_eq
    ((ZarManager.empty pageAlign).walkDir align "" true files).writer.count
  rw [writeHeader_writer]
  simp only [List.length_append, length, Binary.maxVarintLen64, true_and]
  omega

end Header

end ContainerFs.Image.V1
