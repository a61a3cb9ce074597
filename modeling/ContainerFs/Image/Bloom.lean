import ContainerFs.Image.Manager
import ContainerFs.Image.Murmur3

/-! The image's Bloom filter: `Initialize`, `AddElement`, `TestElement` and `GenerateFilter`.
`bloom.go` does not compile as it stands and is read as its comments say, with the hash a
parameter. `int64` arithmetic wraps and `%` keeps the dividend's sign, so `AddElement` panics on a
negative index; when it completes, every element added tests positive (`addAll_testElement`). -/

set_option autoImplicit false

namespace ContainerFs.Image

/-! ## `int64` arithmetic and `[]bool` slices -/

/-- `int64` arithmetic wraps around: `x` modulo `2^64`, read in `[-2^63, 2^63)`. -/
def wrap64 (x : Int) : Int :=
  (x + 9223372036854775808) % 18446744073709551616 - 9223372036854775808

/-- `int64(w)` of a 64-bit word. -/
def toInt64 (w : UInt64) : Int := wrap64 w.toNat

/-- `x / y` on `int64`: truncated, wrapping at `-2^63 / -1`; a run-time panic for `y = 0`. -/
def goDiv (x y : Int) : Except String Int :=
  if y = 0 then .error "runtime error: integer divide by zero" else .ok (wrap64 (x.tdiv y))

/-- `x % y` on `int64`: truncated, so of the sign of `x`; a run-time panic for `y = 0`. -/
def goRem (x y : Int) : Except String Int :=
  if y = 0 then .error "runtime error: integer divide by zero" else .ok (x.tmod y)

/-- `int64(f)` on amd64: the integer part of `f`; NaN and values out of range give `-2^63`. -/
def int64OfFloat (f : Float) : Int :=
  if f.isNaN || 9223372036854775808.0 ≤ f || f < -9223372036854775808.0 then -9223372036854775808
  else if f < 0 then -((-f).toUInt64.toNat : Int) else ((f.toUInt64.toNat : Nat) : Int)

def makeSlice (n : Int) : Except String (List Bool) :=
  if n < 0 then .error "runtime error: makeslice: len out of range"
  else .ok (List.replicate n.toNat false)

/-- `s[i] = true` on a `[]bool`: a run-time panic outside `[0, len(s))`. -/
def setIndex (s : List Bool) (i : Int) : Except String (List Bool) :=
  if i < 0 then .error ("runtime error: index out of range [" ++ toString i ++ "]")
  else if (s.length : Int) ≤ i then
    .error ("runtime error: index out of range [" ++ toString i ++ "] with length " ++
      toString s.length)
  else .ok (s.set i.toNat true)

theorem tmod_bounds {x m : Int} (hm : 0 < m) : -m < x.tmod m ∧ x.tmod m < m := by
  obtain ⟨M, rfl⟩ := Int.eq_ofNat_of_zero_le hm.le
  have pos : 0 < M := by omega
  cases x with
  | ofNat a =>
    have := Nat.mod_lt a pos
    simp only [Int.tmod, Int.ofNat_eq_coe] at *; omega
  | negSucc a =>
    have := Nat.mod_lt a.succ pos
    simp only [Int.tmod, Int.ofNat_eq_coe] at *; omega

theorem setIndex_eq_ok {s s' : List Bool} {i : Int} :
    setIndex s i = .ok s' ↔ 0 ≤ i ∧ i < s.length ∧ s' = s.set i.toNat true := by
  unfold setIndex
  split_ifs with neg big
  · simp only [reduceCtorEq, false_iff]; omega
  · simp only [reduceCtorEq, false_iff]; omega
  · simp only [Except.ok.injEq]
    constructor
    · rintro rfl; exact ⟨by omega, by omega, rfl⟩
    · rintro ⟨-, -, rfl⟩; rfl

theorem map_eq_ok_iff {ε α β : Type} {f : α → β} {x : Except ε α} {y : β} :
    x.map f = .ok y ↔ ∃ a, x = .ok a ∧ f a = y := by
  cases x <;> simp [Except.map]

theorem foldlM_setIndex_ok_iff {s : List Bool} {is : List Int} :
    (∃ s', is.foldlM setIndex s = .ok s') ↔ ∀ i ∈ is, 0 ≤ i ∧ i < s.length := by
  induction is generalizing s with
  | nil => exact ⟨fun _ _ h => (by cases h), fun _ => ⟨s, rfl⟩⟩
  | cons i is ih =>
    simp only [List.foldlM_cons, bind, Except.bind, List.mem_cons, forall_eq_or_imp]
    rcases h : setIndex s i with e | s1
    · have out : ¬ (0 ≤ i ∧ i < s.length) := fun ok => by
        rw [setIndex_eq_ok.mpr ⟨ok.1, ok.2, rfl⟩] at h; cases h
      simp only [reduceCtorEq, exists_false, false_iff]
      exact fun ok => out ok.1
    · obtain ⟨hi0, hil, rfl⟩ := setIndex_eq_ok.mp h
      simp only [ih, List.length_set]
      exact ⟨fun all => ⟨⟨hi0, hil⟩, all⟩, And.right⟩

theorem foldlM_setIndex_bits {s s' : List Bool} {is : List Int}
    (h : is.foldlM setIndex s = .ok s') :
    s'.length = s.length ∧ ∀ j : Nat, s'[j]? = some true ↔ s[j]? = some true ∨ (j : Int) ∈ is := by
  induction is generalizing s with
  | nil =>
    cases h
    simp
  | cons i is ih =>
    simp only [List.foldlM_cons, bind, Except.bind] at h
    rcases hs : setIndex s i with e | s1 <;> rw [hs] at h
    · cases h
    obtain ⟨hi0, hil, rfl⟩ := setIndex_eq_ok.mp hs
    obtain ⟨len, bits⟩ := ih h
    refine ⟨len.trans (List.length_set ..), fun j => ?_⟩
    rw [bits j, List.getElem?_set, List.mem_cons]
    by_cases hj : i.toNat = j
    · subst hj
      have same : ((i.toNat : Nat) : Int) = i := by omega
      have lt : i.toNat < s.length := by omega
      simp [lt, same]
    · have other : (j : Int) ≠ i := by omega
      simp only [hj, other, if_false, false_or]

theorem zipWith_and_beq_self {t u : List Bool} (hl : t.length = u.length) :
    (List.zipWith (· && ·) t u == t) = true ↔
      ∀ j : Nat, t[j]? = some true → u[j]? = some true := by
  rw [beq_iff_eq]
  induction t generalizing u with
  | nil => simp
  | cons x t ih =>
    cases u with
    | nil => cases hl
    | cons y u =>
      simp only [List.zipWith_cons_cons, List.cons.injEq, ih (Nat.succ.inj hl)]
      constructor
      · rintro ⟨hx, rest⟩ (_ | j) hj
        · cases x <;> cases y <;> simp_all
        · simpa using rest j (by simpa using hj)
      · intro sub
        have head := sub 0
        simp only [List.getElem?_cons_zero, Option.some.injEq] at head
        exact ⟨by cases x <;> cases y <;> simp_all,
          fun j hj => by simpa using sub (j + 1) (by simpa using hj)⟩

/-! ## The filter -/

/-- The loop `AddElement` and `TestElement` each write out, over `n` rounds. -/
def hashRounds {σ : Type} (set : σ → Int → Except String σ) (numHashes filterSize h2 : Int) :
    Nat → Int → σ → Except String σ
  | 0, _, s => .ok s
  | n + 1, intHash, s => do
    let intHash := wrap64 (intHash + wrap64 (numHashes * h2))
    let bitToSet ← goRem intHash filterSize
    let s ← set s bitToSet
    hashRounds set numHashes filterSize h2 n intHash s

def bitsToSet (numHashes filterSize h2 : Int) : Nat → Int → List Int
  | 0, _ => []
  | n + 1, intHash =>
    let intHash := wrap64 (intHash + wrap64 (numHashes * h2))
    intHash.tmod filterSize :: bitsToSet numHashes filterSize h2 n intHash

theorem hashRounds_eq {σ : Type} (set : σ → Int → Except String σ) {numHashes filterSize : Int}
    (h2 : Int) (hm : filterSize ≠ 0) (n : Nat) (intHash : Int) (s : σ) :
    hashRounds set numHashes filterSize h2 n intHash s =
      (bitsToSet numHashes filterSize h2 n intHash).foldlM set s := by
  induction n generalizing intHash s with
  | zero => rfl
  | succ n ih =>
    simp only [hashRounds, bitsToSet, goRem, if_neg hm, List.foldlM_cons, bind, Except.bind, ih]

theorem bitsToSet_bounds {numHashes filterSize h2 : Int} (hm : 0 < filterSize) {n : Nat}
    {intHash i : Int} (hi : i ∈ bitsToSet numHashes filterSize h2 n intHash) :
    -filterSize < i ∧ i < filterSize := by
  induction n generalizing intHash with
  | zero => cases hi
  | succ n ih =>
    rcases List.mem_cons.mp hi with rfl | hi
    · exact tmod_bounds hm
    · exact ih hi

structure BloomFilter where
  fpProb : Float
  numHashes : Int
  numElem : Int
  filterSize : Int
  bitSet : List Bool

namespace BloomFilter

/-- `calcFilterSize`: `m = ceil(n log p / log(1 / 2^log 2))`. -/
def calcFilterSize (b : BloomFilter) : Int :=
  int64OfFloat (Float.ceil (Float.ofInt b.numElem * Float.log b.fpProb /
    Float.log (1 / Float.pow 2 (Float.log 2))))

/-- `calcNumHashes`: `k = round((m / n) log 2)`, the quotient taken in `int64`. -/
def calcNumHashes (b : BloomFilter) : Except String Int := do
  let q ← goDiv b.filterSize b.numElem
  return int64OfFloat (Float.round (Float.ofInt q * Float.log 2))

def initializeFilter (b : BloomFilter) : Except String BloomFilter :=
  if b.numElem < 0 then .ok b
  else do
    let b := { b with filterSize := b.calcFilterSize }
    let bitSet ← makeSlice b.filterSize
    let b := { b with bitSet := bitSet }
    let numHashes ← b.calcNumHashes
    return { b with numHashes := numHashes }

def setBits (b : BloomFilter) (bits : Int) : Except String BloomFilter := do
  let bitSet ← setIndex b.bitSet bits
  return { b with bitSet := bitSet }

section Hash
variable (hash : List UInt8 → UInt64 × UInt64)

/-- `AddElement`, with `hash` for `hashElement`. -/
def addElement (b : BloomFilter) (elem : List UInt8) : Except String BloomFilter :=
  let h1 := toInt64 (hash elem).1
  let h2 := toInt64 (hash elem).2
  hashRounds setBits b.numHashes b.filterSize h2 b.numHashes.toNat h1 b

def testElement (b : BloomFilter) (elem : List UInt8) : Except String Bool := do
  let h1 := toInt64 (hash elem).1
  let h2 := toInt64 (hash elem).2
  let testFilter ← makeSlice b.filterSize
  let testFilter ← hashRounds setIndex b.numHashes b.filterSize h2 b.numHashes.toNat h1 testFilter
  return List.zipWith (· && ·) testFilter b.bitSet == testFilter

def addAll (b : BloomFilter) (elems : List (List UInt8)) : Except String BloomFilter :=
  elems.foldlM (addElement hash) b

end Hash

/-! ## What the filter keeps -/

/-- What `Initialize` leaves and `AddElement` keeps: a positive `FilterSize`, that many bits. -/
structure Sized (b : BloomFilter) : Prop where
  pos : 0 < b.filterSize
  length : b.bitSet.length = b.filterSize.toNat

structure Grows (b b' : BloomFilter) : Prop where
  numHashes : b'.numHashes = b.numHashes
  filterSize : b'.filterSize = b.filterSize
  length : b'.bitSet.length = b.bitSet.length
  mono : ∀ j : Nat, b.bitSet[j]? = some true → b'.bitSet[j]? = some true

theorem Grows.refl (b : BloomFilter) : b.Grows b := ⟨rfl, rfl, rfl, fun _ h => h⟩

theorem Grows.trans {b b' b'' : BloomFilter} (h : b.Grows b') (h' : b'.Grows b'') :
    b.Grows b'' :=
  ⟨h'.numHashes.trans h.numHashes, h'.filterSize.trans h.filterSize, h'.length.trans h.length,
    fun j hj => h'.mono j (h.mono j hj)⟩

theorem Grows.sized {b b' : BloomFilter} (h : b.Grows b') (hb : b.Sized) : b'.Sized :=
  ⟨h.filterSize ▸ hb.pos, by rw [h.length, hb.length, h.filterSize]⟩

theorem foldlM_setBits (b : BloomFilter) (is : List Int) :
    is.foldlM setBits b = (is.foldlM setIndex b.bitSet).map fun s => { b with bitSet := s } := by
  induction is generalizing b with
  | nil => rfl
  | cons i is ih =>
    simp only [List.foldlM_cons, setBits, bind, Except.bind]
    cases setIndex b.bitSet i with
    | error e => rfl
    | ok s => exact ih { b with bitSet := s }

section Hash
variable (hash : List UInt8 → UInt64 × UInt64)

def bitsOf (b : BloomFilter) (elem : List UInt8) : List Int :=
  bitsToSet b.numHashes b.filterSize (toInt64 (hash elem).2) b.numHashes.toNat
    (toInt64 (hash elem).1)

def Holds (b : BloomFilter) (elem : List UInt8) : Prop :=
  ∀ i ∈ b.bitsOf hash elem, 0 ≤ i ∧ b.bitSet[i.toNat]? = some true

theorem Sized.lt_length {b : BloomFilter} (hb : b.Sized) {elem : List UInt8} {i : Int}
    (hi : i ∈ b.bitsOf hash elem) : i < b.bitSet.length := by
  have := (bitsToSet_bounds hb.pos hi).2
  rw [hb.length]
  omega

theorem Grows.holds {b b' : BloomFilter} (h : b.Grows b') {elem : List UInt8}
    (held : b.Holds hash elem) : b'.Holds hash elem := by
  intro i hi
  simp only [bitsOf, h.numHashes, h.filterSize] at hi
  exact ⟨(held i hi).1, h.mono _ (held i hi).2⟩

theorem addElement_eq {b : BloomFilter} (hm : b.filterSize ≠ 0) (elem : List UInt8) :
    b.addElement hash elem =
      ((b.bitsOf hash elem).foldlM setIndex b.bitSet).map fun s => { b with bitSet := s } := by
  simp only [addElement, hashRounds_eq _ _ hm, foldlM_setBits]
  rfl

theorem testElement_eq {b : BloomFilter} (hb : b.Sized) (elem : List UInt8) :
    b.testElement hash elem =
      ((b.bitsOf hash elem).foldlM setIndex (List.replicate b.filterSize.toNat false)).map
        fun t => List.zipWith (· && ·) t b.bitSet == t := by
  simp only [testElement, makeSlice, if_neg (Int.not_lt.mpr hb.pos.le),
    hashRounds_eq _ _ hb.pos.ne', bitsOf, bind, Except.bind]
  cases (bitsToSet b.numHashes b.filterSize (toInt64 (hash elem).2) b.numHashes.toNat
    (toInt64 (hash elem).1)).foldlM setIndex (List.replicate b.filterSize.toNat false) <;> rfl

theorem addElement_spec {b b' : BloomFilter} (hb : b.Sized) {elem : List UInt8}
    (h : b.addElement hash elem = .ok b') : b.Grows b' ∧ b'.Holds hash elem := by
  rw [addElement_eq hash hb.pos.ne', map_eq_ok_iff] at h
  obtain ⟨s, hs, rfl⟩ := h
  obtain ⟨len, bits⟩ := foldlM_setIndex_bits hs
  have inRange := foldlM_setIndex_ok_iff.mp ⟨s, hs⟩
  refine ⟨⟨rfl, rfl, len, fun j hj => (bits j).mpr (.inl hj)⟩, fun i hi => ?_⟩
  have nonneg := (inRange i hi).1
  exact ⟨nonneg, (bits _).mpr (.inr (by rwa [Int.toNat_of_nonneg nonneg]))⟩

/-- `AddElement` completes exactly when none of its bits is negative. -/
theorem addElement_ok_iff {b : BloomFilter} (hb : b.Sized) (elem : List UInt8) :
    (∃ b', b.addElement hash elem = .ok b') ↔ ∀ i ∈ b.bitsOf hash elem, 0 ≤ i := by
  constructor
  · rintro ⟨b', h⟩ i hi
    rw [addElement_eq hash hb.pos.ne', map_eq_ok_iff] at h
    obtain ⟨s, hs, -⟩ := h
    exact (foldlM_setIndex_ok_iff.mp ⟨s, hs⟩ i hi).1
  · intro nonneg
    obtain ⟨s, hs⟩ := foldlM_setIndex_ok_iff.mpr fun i hi => ⟨nonneg i hi, hb.lt_length hash hi⟩
    exact ⟨_, by rw [addElement_eq hash hb.pos.ne', hs]; rfl⟩

theorem addElement_ok_iff_apples :
    Sized ⟨0.01, 7, 2, 20, List.replicate 20 false⟩ ∧
      ((∃ b', addElement Murmur3.sum128 ⟨0.01, 7, 2, 20, List.replicate 20 false⟩
          (bytes "/root/apples.txt") = .ok b') ↔
        ∀ i ∈ bitsOf Murmur3.sum128 ⟨0.01, 7, 2, 20, List.replicate 20 false⟩
          (bytes "/root/apples.txt"), 0 ≤ i) :=
  have hb : Sized ⟨0.01, 7, 2, 20, List.replicate 20 false⟩ := ⟨by decide, rfl⟩
  ⟨hb, addElement_ok_iff Murmur3.sum128 hb _⟩

theorem testElement_ok_true_iff {b : BloomFilter} (hb : b.Sized) (elem : List UInt8) :
    b.testElement hash elem = .ok true ↔ b.Holds hash elem := by
  have fresh : (List.replicate b.filterSize.toNat false).length = b.bitSet.length := by
    rw [List.length_replicate, hb.length]
  rw [testElement_eq hash hb, map_eq_ok_iff]
  constructor
  · rintro ⟨t, ht, test⟩ i hi
    obtain ⟨len, bits⟩ := foldlM_setIndex_bits ht
    have nonneg := (foldlM_setIndex_ok_iff.mp ⟨t, ht⟩ i hi).1
    refine ⟨nonneg, (zipWith_and_beq_self (len.trans fresh)).mp test _ ((bits _).mpr (.inr ?_))⟩
    rwa [Int.toNat_of_nonneg nonneg]
  · intro held
    obtain ⟨t, ht⟩ := (foldlM_setIndex_ok_iff (s := List.replicate b.filterSize.toNat false)).mpr
      fun i hi => ⟨(held i hi).1, fresh ▸ hb.lt_length hash hi⟩
    obtain ⟨len, bits⟩ := foldlM_setIndex_bits ht
    refine ⟨t, ht, (zipWith_and_beq_self (len.trans fresh)).mpr fun j hj => ?_⟩
    rcases (bits j).mp hj with clear | mem
    · simp [List.getElem?_replicate] at clear
    · simpa using (held _ mem).2

theorem addAll_spec {b b' : BloomFilter} (hb : b.Sized) {elems : List (List UInt8)}
    (h : b.addAll hash elems = .ok b') : b.Grows b' ∧ ∀ e ∈ elems, b'.Holds hash e := by
  induction elems generalizing b with
  | nil =>
    cases h
    exact ⟨.refl _, fun _ h => by cases h⟩
  | cons e es ih =>
    simp only [addAll, List.foldlM_cons, bind, Except.bind] at h
    rcases he : b.addElement hash e with err | b1 <;> rw [he] at h
    · cases h
    obtain ⟨g1, held⟩ := addElement_spec hash hb he
    obtain ⟨g, rest⟩ := ih (g1.sized hb) h
    refine ⟨g1.trans g, fun e' mem => ?_⟩
    rcases List.mem_cons.mp mem with rfl | mem
    · exact g.holds hash held
    · exact rest e' mem

theorem addAll_testElement {b b' : BloomFilter} (hb : b.Sized) {elems : List (List UInt8)}
    (h : b.addAll hash elems = .ok b') {elem : List UInt8} (mem : elem ∈ elems) :
    b'.testElement hash elem = .ok true :=
  let ⟨g, held⟩ := addAll_spec hash hb h
  (testElement_ok_true_iff hash (g.sized hb) elem).mpr (held elem mem)

theorem bitsOf_grows {b b' : BloomFilter} (h : b.Grows b') (elem : List UInt8) :
    b'.bitsOf hash elem = b.bitsOf hash elem := by
  simp only [bitsOf, h.numHashes, h.filterSize]

theorem addAll_ok_iff {b : BloomFilter} (hb : b.Sized) (elems : List (List UInt8)) :
    (∃ b', b.addAll hash elems = .ok b') ↔ ∀ e ∈ elems, ∀ i ∈ b.bitsOf hash e, 0 ≤ i := by
  induction elems generalizing b with
  | nil => exact ⟨fun _ _ h => (by cases h), fun _ => ⟨b, rfl⟩⟩
  | cons e es ih =>
    simp only [List.mem_cons, forall_eq_or_imp]
    rcases he : b.addElement hash e with err | b1
    · simp only [addAll, List.foldlM_cons, he, bind, Except.bind, reduceCtorEq, exists_false,
        false_iff, not_and]
      intro ok
      obtain ⟨b', h'⟩ := (addElement_ok_iff hash hb e).mpr ok
      rw [he] at h'
      cases h'
    · have g := (addElement_spec hash hb he).1
      have nonneg := (addElement_ok_iff hash hb e).mp ⟨b1, he⟩
      have rest := ih (g.sized hb)
      simp only [bitsOf_grows hash g] at rest
      rw [show b.addAll hash (e :: es) = b1.addAll hash es by
        simp only [addAll, List.foldlM_cons, he, bind, Except.bind], rest]
      exact ⟨fun all => ⟨nonneg, all⟩, And.right⟩

theorem addAll_bits {b b' : BloomFilter} (hb : b.Sized) {elems : List (List UInt8)}
    (h : b.addAll hash elems = .ok b') :
    b' = { b with bitSet := b'.bitSet } ∧ b'.bitSet.length = b.bitSet.length ∧
      ∀ j : Nat, b'.bitSet[j]? = some true ↔
        b.bitSet[j]? = some true ∨ ∃ e ∈ elems, (j : Int) ∈ b.bitsOf hash e := by
  induction elems generalizing b with
  | nil =>
    cases h
    simp
  | cons e es ih =>
    simp only [addAll, List.foldlM_cons, bind, Except.bind] at h
    rcases he : b.addElement hash e with err | b1 <;> rw [he] at h
    · cases h
    rw [addElement_eq hash hb.pos.ne', map_eq_ok_iff] at he
    obtain ⟨s, hs, rfl⟩ := he
    obtain ⟨len, bits⟩ := foldlM_setIndex_bits hs
    obtain ⟨shape, len', bits'⟩ := ih (b := { b with bitSet := s })
      ⟨hb.pos, show s.length = _ by rw [len, hb.length]⟩ h
    refine ⟨shape, len'.trans len, fun j => ?_⟩
    rw [bits' j, bits j]
    simp only [List.mem_cons, or_and_right, exists_or, exists_eq_left, or_assoc]
    rfl

/-- The filter depends only on the set of elements added. -/
theorem addAll_congr {b b' : BloomFilter} (hb : b.Sized) {elems elems' : List (List UInt8)}
    (same : ∀ e, e ∈ elems ↔ e ∈ elems') (h : b.addAll hash elems = .ok b') :
    b.addAll hash elems' = .ok b' := by
  have nonneg := (addAll_ok_iff hash hb elems).mp ⟨b', h⟩
  obtain ⟨b'', h'⟩ := (addAll_ok_iff hash hb elems').mpr fun e mem => nonneg e ((same e).mpr mem)
  obtain ⟨shape, len, bits⟩ := addAll_bits hash hb h
  obtain ⟨shape', len', bits'⟩ := addAll_bits hash hb h'
  have set : ∀ j : Nat, b''.bitSet[j]? = some true ↔ b'.bitSet[j]? = some true := fun j => by
    rw [bits j, bits' j]
    simp only [same]
  have eq : b''.bitSet = b'.bitSet := by
    apply List.ext_getElem?
    intro j
    rcases Nat.lt_or_ge j b.bitSet.length with lt | ge
    · have key := set j
      rw [List.getElem?_eq_getElem (by omega), List.getElem?_eq_getElem (by omega)] at key ⊢
      simp only [Option.some.injEq] at key ⊢
      exact Bool.eq_iff_iff.mpr key
    · rw [List.getElem?_eq_none (by omega), List.getElem?_eq_none (by omega)]
  rw [h', shape', shape, eq]

end Hash

theorem addAll_congr_reordered :
    Sized ⟨0.01, 7, 2, 20, List.replicate 20 false⟩ ∧
      (∀ e : List UInt8, e ∈ [[1], [2]] ↔ e ∈ [[2], [1], [1]]) ∧
      addAll (fun _ => (0, 1)) ⟨0.01, 7, 2, 20, List.replicate 20 false⟩ [[1], [2]] =
        .ok ⟨0.01, 7, 2, 20, [false, true, true, false, false, false, false, true, true, true,
          false, false, false, false, true, true, false, false, false, false]⟩ ∧
      addAll (fun _ => (0, 1)) ⟨0.01, 7, 2, 20, List.replicate 20 false⟩ [[2], [1], [1]] =
        .ok ⟨0.01, 7, 2, 20, [false, true, true, false, false, false, false, true, true, true,
          false, false, false, false, true, true, false, false, false, false]⟩ :=
  have hb : Sized ⟨0.01, 7, 2, 20, List.replicate 20 false⟩ := ⟨by decide, rfl⟩
  have same : ∀ e : List UInt8, e ∈ [[1], [2]] ↔ e ∈ [[2], [1], [1]] := fun e => by
    simp only [List.mem_cons, List.mem_singleton, List.not_mem_nil, or_false]
    tauto
  have h : addAll (fun _ => (0, 1)) ⟨0.01, 7, 2, 20, List.replicate 20 false⟩ [[1], [2]] =
      .ok ⟨0.01, 7, 2, 20, [false, true, true, false, false, false, false, true, true, true,
        false, false, false, false, true, true, false, false, false, false]⟩ := rfl
  ⟨hb, same, h, addAll_congr _ hb same h⟩

end BloomFilter

/-- `ZarManager.GenerateFilter` with a `BloomFilter`: `Initialize`, then the adds. -/
def generateFilter (hash : List UInt8 → UInt64 × UInt64) (b : BloomFilter)
    (metadata : List FileMetadata) : Except String BloomFilter := do
  let b ← b.initializeFilter
  b.addAll hash ((constructFilter metadata).map bytes)

theorem mapM_eq_ok_const {α β ε : Type} {f : α → Except ε β} {l : List α} {c : β}
    (h : ∀ a ∈ l, f a = .ok c) : l.mapM f = .ok (l.map fun _ => c) := by
  induction l with
  | nil => rfl
  | cons a l ih =>
    simp only [List.mapM_cons, h a (List.mem_cons_self a l),
      ih fun a' mem => h a' (List.mem_cons_of_mem a mem)]
    rfl

/-- No false negatives: every file and symlink of the tree tests positive. -/
theorem walkDir_addAll_testElement (hash : List UInt8 → UInt64 × UInt64) {b b' : BloomFilter}
    (hb : b.Sized) (z : ZarManager) (foldername : String) (modTime : Int) (files : List Entry)
    (empty : z.metadata = []) (named : Entry.wellNamed files = true)
    (h : b.addAll hash ((constructFilter (z.walkDir foldername modTime true files).metadata).map
      bytes) = .ok b') :
    (Entry.treeFiles files).mapM (fun f => b'.testElement hash (bytes (fullPath f.1 f.2))) =
      .ok ((Entry.treeFiles files).map fun _ => true) := by
  have paths : constructFilter (z.walkDir foldername modTime true files).metadata =
      (Entry.treeFiles files).map (fun f => fullPath f.1 f.2) := by
    rw [constructFilter, ZarManager.run_walkDir _ z foldername modTime true files named
      (fun h => absurd h (by decide)), empty, if_pos rfl]
    simp [FilterBuild.addAll, ← joinPath_empty]
  rw [paths, List.map_map] at h
  exact mapM_eq_ok_const fun f mem =>
    BloomFilter.addAll_testElement hash hb h (List.mem_map_of_mem _ mem)

theorem walkDir_addAll_testElement_oneFile :
    BloomFilter.Sized ⟨0.01, 7, 2, 20, List.replicate 20 false⟩ ∧
      (⟨[], ⟨0, 0, 0⟩⟩ : ZarManager).metadata = [] ∧ Entry.wellNamed [.file "a" 0] = true ∧
      BloomFilter.addAll (fun _ => (0, 1)) ⟨0.01, 7, 2, 20, List.replicate 20 false⟩
          ((constructFilter ((⟨[], ⟨0, 0, 0⟩⟩ : ZarManager).walkDir "" 0 true
            [.file "a" 0]).metadata).map bytes) =
        .ok ⟨0.01, 7, 2, 20, [false, true, true, false, false, false, false, true, true,
          true, false, false, false, false, true, true, false, false, false, false]⟩ ∧
      (Entry.treeFiles [.file "a" 0]).mapM (fun f => BloomFilter.testElement (fun _ => (0, 1))
          ⟨0.01, 7, 2, 20, [false, true, true, false, false, false, false, true, true,
          true, false, false, false, false, true, true, false, false, false, false]⟩ (bytes (fullPath f.1 f.2))) =
        .ok ((Entry.treeFiles [.file "a" 0]).map fun _ => true) := by
  have sized : BloomFilter.Sized ⟨0.01, 7, 2, 20, List.replicate 20 false⟩ := ⟨by decide, rfl⟩
  have h : BloomFilter.addAll (fun _ => (0, 1)) ⟨0.01, 7, 2, 20, List.replicate 20 false⟩
      ((constructFilter ((⟨[], ⟨0, 0, 0⟩⟩ : ZarManager).walkDir "" 0 true
        [.file "a" 0]).metadata).map bytes) =
      .ok ⟨0.01, 7, 2, 20, [false, true, true, false, false, false, false, true, true,
          true, false, false, false, false, true, true, false, false, false, false]⟩ := by
    simp only [ZarManager.walkDir, if_true, ZarManager.includeEntries, ZarManager.walkSubdirs,
      ZarManager.includeFile]
    rfl
  exact ⟨sized, rfl, rfl, h, walkDir_addAll_testElement _ sized _ _ _ _ rfl rfl h⟩

/-! ## The repository's filter test -/

/-- The metadata of the repository's filter test. -/
def filterTestMetadata : List FileMetadata :=
  [⟨"root", "", 0, .directory⟩, ⟨"apples.txt", "", 0, .regularFile⟩,
    ⟨"Groceries", "", 0, .directory⟩, ⟨"..", "", 0, .directory⟩,
    ⟨"OtherApples.txt", "", 0, .symlink⟩]

theorem constructFilter_filterTest :
    constructFilter filterTestMetadata = ["/root/apples.txt", "/root/OtherApples.txt"] := by
  have close := step_close ("" ++ "/" ++ "root") "Groceries" (by decide)
    ["" ++ "/" ++ "root" ++ "/" ++ "apples.txt"] "" 0
  unfold constructFilter filterTestMetadata
  simp only [List.foldl_cons, List.foldl_nil]
  erw [close]
  decide

/-- The filter `Initialize` leaves for the test's two files: 20 bits, 7 hashes. -/
def twoFileFilter : BloomFilter := ⟨0.01, 7, 2, 20, List.replicate 20 false⟩

/-- On the repository's test tree the first bit is `-1`, so `AddElement` panics. -/
theorem constructFilter_negative_bit :
    0 < twoFileFilter.numElem ∧ twoFileFilter.Sized ∧
      constructFilter filterTestMetadata = ["/root/apples.txt", "/root/OtherApples.txt"] ∧
      twoFileFilter.bitsOf Murmur3.sum128 (bytes "/root/apples.txt") =
        [-1, -14, 9, 16, 3, -10, -3] ∧
      twoFileFilter.addAll Murmur3.sum128 ((constructFilter filterTestMetadata).map bytes) =
        .error "runtime error: index out of range [-1]" :=
  ⟨by decide, ⟨by decide, rfl⟩, constructFilter_filterTest, by decide,
    by rw [constructFilter_filterTest]; rfl⟩

end ContainerFs.Image
