import DistributedKV.Lib.BitWords
import DistributedKV.Performance.Basic

/-!
# Bloom filters (`BloomFilter` of `storage.go`)

A filter sets the bits at the positions that the hashes of an item give, and may contain an item
if all of its bits are set. Hashes are computed in 64 bits with overflow, and the remainder of a
negative number is made positive.
-/

namespace DistributedKV.Performance

open List

/-- `BloomFilter`. -/
structure BloomFilter where
  bitArray : BitWords
  size : Int64
  hashFuncs : Int64

/-- `NewBloomFilter`. -/
def newBloomFilter (size hashFuncs : Int64) : Except Fault BloomFilter :=
  let numWords := (size + 63) / 64
  if numWords < 0 then .error .negativeLength
  else .ok ⟨List.replicate numWords.toNatClampNeg 0, size, hashFuncs⟩

namespace BloomFilter

variable (bf : BloomFilter)

/-- The string `salt`. -/
def salt : List UInt8 := [0x73, 0x61, 0x6C, 0x74]

/-- One round of the loop of `hash`. -/
def hashAt (item : List UInt8) (i : Nat) : Int64 :=
  let hash := (simpleHash item + .ofNat i * simpleHash (item ++ salt)) % bf.size
  if hash < 0 then -hash else hash

/-- `hash`. -/
def hash (item : List UInt8) : Except Fault (List Int64) :=
  if bf.hashFuncs < 0 then .error .negativeLength
  else if 0 < bf.hashFuncs ∧ bf.size = 0 then .error .divideByZero
  else .ok ((List.range bf.hashFuncs.toNatClampNeg).map (bf.hashAt item))

/-- The loop of `Add`. -/
def setAll (bitArray : BitWords) : List Int64 → Except Fault BitWords
  | [] => .ok bitArray
  | hash :: hashes =>
    if (hash / 64).toInt < bitArray.length then
      if hash < 0 then .error .indexOutOfRange
      else setAll (bitArray.set hash.toNatClampNeg) hashes
    else setAll bitArray hashes

/-- `Add`. -/
def add (item : List UInt8) : Except Fault BloomFilter := do
  let hashes ← bf.hash item
  let bitArray ← setAll bf.bitArray hashes
  return { bf with bitArray := bitArray }

/-- The loop of `Contains`. -/
def testAll (bitArray : BitWords) : List Int64 → Except Fault Bool
  | [] => .ok true
  | hash :: hashes =>
    if (hash / 64).toInt ≥ bitArray.length then .ok false
    else if hash < 0 then .error .indexOutOfRange
    else if bitArray.get hash.toNatClampNeg then testAll bitArray hashes
    else .ok false

/-- `Contains`. -/
def contains (item : List UInt8) : Except Fault Bool := do
  let hashes ← bf.hash item
  testAll bf.bitArray hashes

/-- Calls of `Add`, one after the other. -/
def addAll (bf : BloomFilter) : List (List UInt8) → Except Fault BloomFilter
  | [] => .ok bf
  | item :: items => do
    let bf ← bf.add item
    bf.addAll items

/-! ## No item is denied -/

/-- A filter with a size and a number of hashes that make sense, and its bits. -/
structure Valid (bf : BloomFilter) : Prop where
  size_pos : 0 < bf.size.toInt
  hashFuncs_nonneg : 0 ≤ bf.hashFuncs.toInt
  bits : ∀ i : Nat, (i : Int) < bf.size.toInt → i / 64 < bf.bitArray.length

/-- The positions of an item. -/
def positions (item : List UInt8) : List Nat :=
  (List.range bf.hashFuncs.toNatClampNeg).map fun i => (bf.hashAt item i).toNatClampNeg

variable {bf : BloomFilter} {item : List UInt8}

theorem hashAt_bounds (hsize : 0 < bf.size.toInt) (item : List UInt8) (i : Nat) :
    0 ≤ (bf.hashAt item i).toInt ∧ (bf.hashAt item i).toInt < bf.size.toInt := by
  unfold hashAt
  generalize simpleHash item + .ofNat i * simpleHash (item ++ salt) = x
  have hmod : (x % bf.size).toInt = x.toInt.tmod bf.size.toInt := Int64.toInt_mod x bf.size
  have hlt : x.toInt.tmod bf.size.toInt < bf.size.toInt := Int.tmod_lt_of_pos x.toInt hsize
  have hgt : -bf.size.toInt < x.toInt.tmod bf.size.toInt := Int.lt_tmod_of_pos x.toInt hsize
  have hmax := bf.size.toInt_lt
  dsimp only
  split
  · next hneg =>
    rw [Int64.lt_iff_toInt_lt] at hneg
    have hzero : (0 : Int64).toInt = 0 := rfl
    rw [Int64.toInt_neg, Int.bmod_eq_of_le (by omega) (by omega)]
    omega
  · next hneg =>
    rw [Int64.lt_iff_toInt_lt] at hneg
    have hzero : (0 : Int64).toInt = 0 := rfl
    omega

theorem Valid.hash_eq (h : bf.Valid) (item : List UInt8) :
    bf.hash item = .ok ((List.range bf.hashFuncs.toNatClampNeg).map (bf.hashAt item)) := by
  have hfuncs : ¬bf.hashFuncs < 0 := by
    rw [Int64.lt_iff_toInt_lt]
    exact Int.not_lt.mpr h.hashFuncs_nonneg
  have hsize : bf.size ≠ 0 := by
    intro hzero
    have hpos := h.size_pos
    rw [hzero] at hpos
    exact absurd hpos (by decide)
  rw [hash, if_neg hfuncs, if_neg fun hzero => hsize hzero.2]

theorem index_ok {hash : Int64} {n : Nat} (h : 0 ≤ hash.toInt ∧ hash.toNatClampNeg / 64 < n) :
    (hash / 64).toInt < n ∧ ¬hash < 0 := by
  have hdiv : (hash / 64).toInt = hash.toInt.tdiv 64 :=
    Int64.toInt_div_of_ne_right hash 64 (by decide)
  rw [hdiv, Int.tdiv_eq_ediv_of_nonneg h.1, Int64.lt_iff_toInt_lt]
  rw [Int64.toNatClampNeg] at h
  exact ⟨by omega, Int.not_lt.mpr h.1⟩

section

variable {bits : BitWords} {hashes : List Int64}
  (h : ∀ hash ∈ hashes, 0 ≤ hash.toInt ∧ hash.toNatClampNeg / 64 < bits.length)
include h

theorem setAll_eq :
    setAll bits hashes = .ok ((hashes.map Int64.toNatClampNeg).foldl BitWords.set bits) := by
  induction hashes generalizing bits with
  | nil => rfl
  | cons hash hashes ih =>
    obtain ⟨hindex, hneg⟩ := index_ok (h hash mem_cons_self)
    rw [setAll, if_pos hindex, if_neg hneg, map_cons, foldl_cons]
    refine ih fun hash' hmem => ?_
    rw [BitWords.length_set]
    exact h hash' (mem_cons_of_mem _ hmem)

theorem testAll_eq : testAll bits hashes = .ok ((hashes.map Int64.toNatClampNeg).all bits.get) := by
  induction hashes with
  | nil => rfl
  | cons hash hashes ih =>
    obtain ⟨hindex, hneg⟩ := index_ok (h hash mem_cons_self)
    rw [testAll, if_neg (not_le.mpr hindex), if_neg hneg, map_cons, all_cons,
      ih fun hash' hmem => h hash' (mem_cons_of_mem _ hmem)]
    cases bits.get hash.toNatClampNeg <;> rfl

end

section

variable (h : bf.Valid)
include h

theorem Valid.hashes : ∀ hash ∈ (List.range bf.hashFuncs.toNatClampNeg).map (bf.hashAt item),
      0 ≤ hash.toInt ∧ hash.toNatClampNeg / 64 < bf.bitArray.length := by
  intro hash hmem
  obtain ⟨i, -, rfl⟩ := mem_map.mp hmem
  obtain ⟨hnonneg, hlt⟩ := hashAt_bounds h.size_pos item i
  refine ⟨hnonneg, h.bits _ ?_⟩
  rw [Int64.toNatClampNeg]
  omega

theorem Valid.add_eq (item : List UInt8) : bf.add item =
    .ok { bf with bitArray := (bf.positions item).foldl BitWords.set bf.bitArray } := by
  rw [add, h.hash_eq]
  show (setAll bf.bitArray _ >>= _) = _
  rw [setAll_eq h.hashes, map_map]
  rfl

theorem Valid.contains_eq (item : List UInt8) :
    bf.contains item = .ok ((bf.positions item).all bf.bitArray.get) := by
  rw [contains, h.hash_eq]
  show testAll bf.bitArray _ = _
  rw [testAll_eq h.hashes, map_map]
  rfl

theorem Valid.positions_lt : ∀ i ∈ bf.positions item, i / 64 < bf.bitArray.length := by
  intro i hi
  rw [positions, ← Function.comp_def Int64.toNatClampNeg, ← map_map] at hi
  obtain ⟨hash, hmem, rfl⟩ := mem_map.mp hi
  exact (h.hashes hash hmem).2

theorem Valid.add {bf' : BloomFilter} (hadd : bf.add item = .ok bf') :
    bf'.Valid ∧ bf'.size = bf.size ∧ bf'.hashFuncs = bf.hashFuncs := by
  rw [h.add_eq] at hadd
  cases hadd
  refine ⟨⟨h.size_pos, h.hashFuncs_nonneg, fun i hi => ?_⟩, rfl, rfl⟩
  rw [BitWords.length_foldl_set]
  exact h.bits i hi

/-- What was added is contained, and what was contained still is. -/
theorem Valid.contains_add {bf' : BloomFilter} (hadd : bf.add item = .ok bf')
    {other : List UInt8} (hother : other = item ∨ bf.contains other = .ok true) :
    bf'.contains other = .ok true := by
  have hvalid' := (h.add hadd).1
  rw [h.add_eq] at hadd
  cases hadd
  rw [hvalid'.contains_eq, Except.ok.injEq, all_eq_true]
  intro i hi
  refine BitWords.get_foldl_set h.positions_lt ?_
  rcases hother with rfl | hother
  · exact .inr hi
  · rw [h.contains_eq, Except.ok.injEq, all_eq_true] at hother
    exact .inl (hother i hi)

/-- Calls of `Add` do not fail, and then the filter contains what it contained and what was
added. -/
theorem Valid.addAll (items : List (List UInt8)) : ∃ bf', bf.addAll items = .ok bf' ∧ bf'.Valid ∧
      ∀ item, item ∈ items ∨ bf.contains item = .ok true → bf'.contains item = .ok true := by
  induction items generalizing bf with
  | nil => exact ⟨bf, rfl, h, fun item hitem => hitem.resolve_left not_mem_nil⟩
  | cons first items ih =>
    have hadd := h.add_eq first
    obtain ⟨bf', hadds, hvalid', hcontains⟩ := ih (h.add hadd).1
    refine ⟨bf', ?_, hvalid', fun item hitem => hcontains item ?_⟩
    · show (bf.add first >>= fun bf => bf.addAll items) = _
      rw [hadd]
      exact hadds
    rcases hitem with hitem | hold
    · rcases mem_cons.mp hitem with rfl | hlater
      · exact .inr (h.contains_add hadd (.inl rfl))
      · exact .inl hlater
    · exact .inr (h.contains_add hadd (.inr hold))

end

end BloomFilter

theorem toInt_numWords_eq (size : Int64) :
    ((size + 63) / 64).toInt = ((size.toInt + 63).bmod (2 ^ 64)).tdiv 64 :=
  (Int64.toInt_div_of_ne_right (size + 63) 64 (by decide)).trans
    (congrArg (Int.tdiv · 64) (Int64.toInt_add size 63))

/-- The number of words of a filter, if the sum does not overflow. -/
theorem toInt_numWords {size : Int64} (hsize : 0 < size.toInt) (hfits : size.toInt + 63 < 2 ^ 63) :
    ((size + 63) / 64).toInt = (size.toInt + 63) / 64 := by
  rw [toInt_numWords_eq, Int.bmod_eq_of_le (by omega) (by omega),
    Int.tdiv_eq_ediv_of_nonneg (by omega)]

/-- If the sum overflows the number of words is negative. -/
theorem numWords_neg_iff {size : Int64} (hsize : 0 < size.toInt) :
    (size + 63) / 64 < 0 ↔ 2 ^ 63 ≤ size.toInt + 63 := by
  have hzero : (0 : Int64).toInt = 0 := rfl
  have hmax := size.toInt_lt
  by_cases hfits : size.toInt + 63 < 2 ^ 63
  · rw [Int64.lt_iff_toInt_lt, toInt_numWords hsize hfits]
    omega
  have hneg : (size.toInt + 63).bmod (2 ^ 64) = -(2 ^ 64 - 63 - size.toInt) := by
    rw [Int.bmod_def]
    omega
  rw [Int64.lt_iff_toInt_lt, toInt_numWords_eq, hneg, Int.neg_tdiv,
    Int.tdiv_eq_ediv_of_nonneg (by omega)]
  omega

/-- A new filter of a positive size has a bit for every position. -/
theorem valid_newBloomFilter {size hashFuncs : Int64} {bf : BloomFilter} (hsize : 0 < size.toInt)
    (hfuncs : 0 ≤ hashFuncs.toInt) (h : newBloomFilter size hashFuncs = .ok bf) :
    bf.Valid ∧ bf.size = size ∧ bf.hashFuncs = hashFuncs := by
  unfold newBloomFilter at h
  dsimp only at h
  split at h
  · cases h
  next hwords =>
    cases h
    refine ⟨⟨hsize, hfuncs, fun i hi => ?_⟩, rfl, rfl⟩
    rw [length_replicate]
    have hfits : size.toInt + 63 < 2 ^ 63 :=
      Int.not_le.mp fun hle => hwords ((numWords_neg_iff hsize).mpr hle)
    rw [Int64.toNatClampNeg, toInt_numWords hsize hfits]
    dsimp only at hi
    omega

/-- A filter answers for every item, and does not deny any that was added. -/
def BloomFilter.Answers (bf : BloomFilter) (items : List (List UInt8)) : Prop :=
  ∀ item, ∃ answer, bf.contains item = .ok answer ∧ (item ∈ items → answer = true)

end DistributedKV.Performance
