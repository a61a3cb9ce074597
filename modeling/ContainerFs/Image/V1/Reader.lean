import ContainerFs.Image.V1.Writer

/-! `readImage` of the first image generator, with slicing out of range an error carrying the Go
runtime's message and the gob decoder a parameter. An image `writeImage` wrote reads back as its
tree (`readImage_writeImage`), and `readImage` accepts exactly the files with a trailer naming a
header that decodes and, in detail mode, file entries inside the file (`readImage_ok_iff`). -/

set_option autoImplicit false

namespace ContainerFs.Image.V1

/-- What `readImage` prints for a metadata entry. -/
inductive Shown where
  | folder (name : String)
  | file (name : String) (data : Option (List UInt8))
  deriving DecidableEq, Repr

/-- `s[lo:hi]` on a byte slice whose capacity is its length. -/
def slice (s : List UInt8) (lo hi : Int) : Except String (List UInt8) :=
  if hi < 0 then .error ("runtime error: slice bounds out of range [:" ++ toString hi ++ "]")
  else if (s.length : Int) < hi then
    .error ("runtime error: slice bounds out of range [:" ++ toString hi ++ "] with capacity " ++
      toString s.length)
  else if lo < 0 then .error ("runtime error: slice bounds out of range [" ++ toString lo ++ ":]")
  else if hi < lo then
    .error ("runtime error: slice bounds out of range [" ++ toString lo ++ ":" ++ toString hi ++ "]")
  else .ok ((s.drop lo.toNat).take (hi - lo).toNat)

/-- The body of `readImage`'s loop for the entry `v` of the metadata of the image `mmap`. -/
def showEntry (detail : Bool) (mmap : List UInt8) (v : FileMetadata) : Except String Shown :=
  if v.begin = -1 then .ok (.folder v.name)
  else if detail then (slice mmap v.begin v.end).map fun b => .file v.name (some b)
  else .ok (.file v.name none)

/-- `readImage` of an image file holding the bytes `mmap`. -/
def readImage (decode : List UInt8 → Except String (List FileMetadata)) (detail : Bool)
    (mmap : List UInt8) : Except String (List Shown) := do
  let length : Int := mmap.length
  if length = 0 then throw "can't mmap the image file, err: invalid argument"
  let headerLoc ← slice mmap (length - 10) length
  let n ← (Binary.readVarint headerLoc).mapError ("can't read header location, err: " ++ ·)
  let header ← slice mmap n (length - 10)
  let metadata ← (decode header).mapError ("can't decode metadata data, err: " ++ ·)
  metadata.mapM (showEntry detail mmap)

def shownEntry (detail : Bool) : String × Option (List UInt8) → Shown
  | (name, none) => .folder name
  | (name, some content) => .file name (if detail then some content else none)

/-- What `readImage` may show for the metadata entry `m` of the image `image`. -/
def Accepts (detail : Bool) (image : List UInt8) (m : FileMetadata) (s : Shown) : Prop :=
  if m.begin = -1 then s = .folder m.name
  else if detail then 0 ≤ m.begin ∧ m.begin ≤ m.end ∧ m.end ≤ image.length ∧
    s = .file m.name (some ((image.drop m.begin.toNat).take (m.end - m.begin).toNat))
  else s = .file m.name none

theorem slice_eq (s : List UInt8) (lo len : Nat) (fits : lo + len ≤ s.length) {lo' hi : Int}
    (hLo : lo' = lo) (hHi : hi = lo + len) : slice s lo' hi = .ok ((s.drop lo).take len) := by
  subst hLo hHi
  rw [slice, if_neg (by omega), if_neg (by omega), if_neg (by omega), if_neg (by omega)]
  congr 3; omega

theorem showEntry_records (detail : Bool) {img : List UInt8} {m : FileMetadata}
    {e : String × Option (List UInt8)} (h : Records img m e) :
    showEntry detail img m = .ok (shownEntry detail e) := by
  cases h with
  | mark name => rfl
  | file name content start fits holds =>
    rw [showEntry, if_neg (by simp only; omega)]
    cases detail
    · rfl
    · simp only [if_true]
      rw [slice_eq img start content.length fits rfl rfl, holds]
      rfl

theorem mapM_showEntry (detail : Bool) {img : List UInt8} {ms : List FileMetadata}
    {flat : List (String × Option (List UInt8))} (h : List.Forall₂ (Records img) ms flat) :
    ms.mapM (showEntry detail img) = .ok (flat.map (shownEntry detail)) := by
  induction h with
  | nil => rfl
  | cons head _ ih =>
    simp only [List.mapM_cons, showEntry_records detail head, ih]
    rfl

/-- Every image `writeImage` writes reads back as the tree it was written from. -/
theorem readImage_writeImage (align : Nat) (encode : List FileMetadata → List UInt8)
    (decode : List UInt8 → Except String (List FileMetadata)) (files : List DirEntry)
    (pageAlign detail : Bool)
    (small : ((ZarManager.empty pageAlign).walkDir align "" true files).writer.count <
      9223372036854775808)
    (gob : decode (encode ((ZarManager.empty pageAlign).walkDir align "" true files).metadata) =
      .ok ((ZarManager.empty pageAlign).walkDir align "" true files).metadata) :
    (writeImage align encode files pageAlign).bind (readImage decode detail) =
      .ok ((flatten files).map (shownEntry detail)) := by
  have grows := walkDir_grows align (ZarManager.empty pageAlign) rfl "" true files
  rw [writeImage_eq, writeHeader_writer]
  generalize (ZarManager.empty pageAlign).walkDir align "" true files = z at grows small gob ⊢
  obtain ⟨added, hms, records⟩ := grows.records
  obtain ⟨pad, hbuf, blen⟩ := Binary.varintBuffer_eq z.writer.count
  simp only [ZarManager.empty, List.nil_append, if_true] at hms records
  have counted := grows.counted
  generalize hW : z.writer.written = W at counted records
  generalize hE : encode z.metadata = E at gob
  generalize hB : Binary.varintBuffer z.writer.count = B at hbuf blen
  have shows := mapM_showEntry detail (records (W ++ E ++ B) ⟨E ++ B, by simp⟩)
  rw [← hms] at shows
  have len : (W ++ E ++ B).length = W.length + E.length + 10 := by
    simp only [List.length_append, blen, Binary.maxVarintLen64]
  have trailer : slice (W ++ E ++ B) ((W ++ E ++ B).length - 10) (W ++ E ++ B).length = .ok B := by
    rw [slice_eq _ (W.length + E.length) 10 (by omega) (by omega) (by omega)]
    simp [blen, Binary.maxVarintLen64]
  have loc : Binary.readVarint B = .ok (W.length : Int) := by
    rw [hbuf, ← counted]; exact Binary.readVarint_putVarint _ (by omega) small pad
  have header : slice (W ++ E ++ B) (W.length : Int) ((W ++ E ++ B).length - 10) = .ok E := by
    rw [slice_eq _ W.length E.length (by omega) rfl (by omega)]
    simp
  simp only [Except.bind, readImage, trailer]
  rw [if_neg (by omega)]
  simp only [bind, pure, Except.bind, Except.pure, Except.mapError, loc, header, gob, shows]

theorem readImage_writeImage_oneFile :
    ((ZarManager.empty true).walkDir 4096 "" true [.file "a" [1, 2, 3]]).writer.count <
        9223372036854775808 ∧
      (fun _ => .ok ((ZarManager.empty true).walkDir 4096 "" true [.file "a" [1, 2, 3]]).metadata :
          List UInt8 → Except String (List FileMetadata))
        ((fun _ => []) ((ZarManager.empty true).walkDir 4096 "" true [.file "a" [1, 2, 3]]).metadata) =
        .ok ((ZarManager.empty true).walkDir 4096 "" true [.file "a" [1, 2, 3]]).metadata ∧
      (writeImage 4096 (fun _ => []) [.file "a" [1, 2, 3]] true).bind
          (readImage (fun _ => .ok ((ZarManager.empty true).walkDir 4096 "" true
            [.file "a" [1, 2, 3]]).metadata) true) =
        .ok ((flatten [.file "a" [1, 2, 3]]).map (shownEntry true)) := by
  have small : ((ZarManager.empty true).walkDir 4096 "" true [.file "a" [1, 2, 3]]).writer.count <
      9223372036854775808 := by
    simp only [ZarManager.walkDir, ZarManager.walkFiles, if_true, ZarManager.includeFile,
      FileWriter.write, padding, ZarManager.empty, pageBoundary]
    decide
  exact ⟨small, rfl, readImage_writeImage 4096 _ _ _ true true small rfl⟩

/-! ## What the reader accepts -/

theorem slice_ok_iff {s : List UInt8} {lo hi : Int} {r : List UInt8} :
    slice s lo hi = .ok r ↔
      0 ≤ lo ∧ lo ≤ hi ∧ hi ≤ s.length ∧ r = (s.drop lo.toNat).take (hi - lo).toNat := by
  unfold slice
  split_ifs
  iterate 4 simp only [reduceCtorEq, false_iff]; omega
  simp only [Except.ok.injEq, eq_comm (a := r)]
  exact ⟨fun h => ⟨by omega, by omega, by omega, h⟩, fun h => h.2.2.2⟩

theorem showEntry_ok_iff {detail : Bool} {image : List UInt8} {m : FileMetadata} {s : Shown} :
    showEntry detail image m = .ok s ↔ Accepts detail image m s := by
  unfold showEntry Accepts
  split_ifs
  · simp [eq_comm]
  · rcases h : slice image m.begin m.end with e | b
    · simp only [Except.map, reduceCtorEq, false_iff]
      exact fun ⟨lo, le, hi, _⟩ => by simp [slice_ok_iff.mpr ⟨lo, le, hi, rfl⟩] at h
    · obtain ⟨lo, le, hi, rfl⟩ := slice_ok_iff.mp h
      simp [Except.map, lo, le, hi, eq_comm]
  · simp [eq_comm]

theorem bind_ok_iff {ε α β : Type} {x : Except ε α} {f : α → Except ε β} {b : β} :
    x.bind f = .ok b ↔ ∃ a, x = .ok a ∧ f a = .ok b := by
  cases x <;> simp [Except.bind]

theorem mapError_ok_iff {ε ε' α : Type} {x : Except ε α} {f : ε → ε'} {a : α} :
    x.mapError f = .ok a ↔ x = .ok a := by
  cases x <;> simp [Except.mapError]

theorem mapM_ok_iff {ε α β : Type} {f : α → Except ε β} {l : List α} {r : List β} :
    l.mapM f = .ok r ↔ List.Forall₂ (fun a b => f a = .ok b) l r := by
  induction l generalizing r with
  | nil => cases r <;> simp [List.mapM.loop, pure, Except.pure]
  | cons a l ih =>
    simp only [List.mapM_cons, bind, pure, Except.pure, bind_ok_iff, ih]
    cases r <;> simp [List.forall₂_cons, eq_comm]

/-- `readImage` accepts exactly the well-formed images. -/
theorem readImage_ok_iff (decode : List UInt8 → Except String (List FileMetadata)) (detail : Bool)
    (mmap : List UInt8) (shown : List Shown) :
    readImage decode detail mmap = .ok shown ↔
      ∃ n metadata, 10 ≤ mmap.length ∧ Binary.readVarint (mmap.drop (mmap.length - 10)) = .ok n ∧
        0 ≤ n ∧ n ≤ mmap.length - 10 ∧
        decode ((mmap.drop n.toNat).take (mmap.length - 10 - n).toNat) = .ok metadata ∧
        List.Forall₂ (Accepts detail mmap) metadata shown := by
  simp only [readImage, bind, pure, Except.pure]
  split_ifs with empty
  · simp only [throw, throwThe, MonadExceptOf.throw, Except.bind, reduceCtorEq, false_iff]
    exact fun ⟨_, _, ten, _⟩ => by omega
  have trailer (ten : 10 ≤ mmap.length) : (mmap.drop (mmap.length - 10 : Int).toNat).take
      (mmap.length - (mmap.length - 10 : Int)).toNat = mmap.drop (mmap.length - 10) := by
    rw [show (mmap.length - 10 : Int).toNat = mmap.length - 10 by omega]
    exact List.take_of_length_le (by simp; omega)
  simp only [bind_ok_iff, slice_ok_iff, mapError_ok_iff, mapM_ok_iff, showEntry_ok_iff]
  constructor
  · rintro ⟨-, -, _, ⟨ten, -, -, rfl⟩, n, hn, _, ⟨n0, nle, -, rfl⟩, metadata, hd, shows⟩
    have ten : 10 ≤ mmap.length := by omega
    exact ⟨n, metadata, ten, trailer ten ▸ hn, n0, nle, hd, shows⟩
  · rintro ⟨n, metadata, ten, hn, n0, nle, hd, shows⟩
    exact ⟨(), trivial, _, ⟨by omega, by omega, le_rfl, rfl⟩, n, (trailer ten).symm ▸ hn, _,
      ⟨n0, nle, by omega, rfl⟩, metadata, hd, shows⟩

end ContainerFs.Image.V1
