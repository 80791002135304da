import Hearth.Storage.Memtable

/-!
# The Bloom filter of an SST

Double hashing over CRC-32: a key sets the `k` bits `h1 + i * h2`. The hash
function is a parameter, and so is every statement here.

`mightContain_fromHashes`: a key that was inserted is never reported absent.
-/

namespace Hearth.Storage

open Base List Option

structure BloomFilter where
  bits : Bytes
  k : Nat
  deriving DecidableEq, Repr

/-- `bloom_hashes`: the two salts, the realm and the key in both orders; the second hash is odd. -/
def bloomHashes (crc32 : Bytes → Nat) (c : CompositeKey) : Nat × Nat :=
  (crc32 ([0x9e, 0x37, 0x79, 0xb1] ++ c.realmId.uuid ++ c.key),
    crc32 ([0x51, 0x4e, 0x28, 0xb7] ++ c.key ++ c.realmId.uuid) ||| 1)

def bitMask (bit : Nat) : UInt8 := 1 <<< UInt8.ofNat (bit % 8)

def setBit (bits : Bytes) (bit : Nat) : Bytes := bits.modify (bit / 8) (· ||| bitMask bit)

def hasBit (bits : Bytes) (bit : Nat) : Bool := bits[bit / 8]?.any fun b => b &&& bitMask bit ≠ 0

/-- The `i`-th probe position in an array of `m` bits; the sums wrap at 64 bits. -/
def probe (m : Nat) (h : Nat × Nat) (i : Nat) : Nat := (h.1 + i * h.2 % 2 ^ 64) % 2 ^ 64 % m

namespace BloomFilter

/-- `empty_for`: about ten bits per entry; no entry at all gives a filter that always passes. -/
def emptyFor (n : Nat) : BloomFilter :=
  if n = 0 then { bits := [], k := 0 }
  else { bits := replicate ((max (n * 10) 64 + 7) / 8) 0, k := 7 }

def insertHashes (filter : BloomFilter) (h : Nat × Nat) : BloomFilter :=
  if filter.bits.isEmpty then filter
  else
    { filter with
      bits := (range filter.k).foldl
        (fun bits i => setBit bits (probe (filter.bits.length * 8) h i)) filter.bits }

/-- `from_hashes`: sized for exactly these keys, with every one of them inserted. -/
def fromHashes (hashes : List (Nat × Nat)) : BloomFilter :=
  hashes.foldl insertHashes (emptyFor hashes.length)

def mightContain (crc32 : Bytes → Nat) (filter : BloomFilter) (c : CompositeKey) : Bool :=
  if filter.bits.isEmpty then true
  else (range filter.k).all fun i =>
    hasBit filter.bits (probe (filter.bits.length * 8) (bloomHashes crc32 c) i)

end BloomFilter

/-! ## Bits -/

section

variable {bits : Bytes} {a b : Nat}

theorem bitMask_ne_zero (bit : Nat) : bitMask bit ≠ 0 := by
  have h : ∀ i < 8, (1 : UInt8) <<< .ofNat i ≠ 0 := by decide
  exact h _ (Nat.mod_lt _ (by decide))

theorem or_and (x y m : UInt8) : (x ||| y) &&& m = (x &&& m) ||| (y &&& m) := by
  apply UInt8.toNat_inj.1
  simp [Nat.and_or_distrib_right]

@[simp] theorem length_setBit : (setBit bits b).length = bits.length := length_modify _ _ _

theorem hasBit_setBit_self (h : b / 8 < bits.length) : hasBit (setBit bits b) b = true := by
  rw [hasBit, setBit, getElem?_modify, getElem?_eq_getElem h]
  simp only [if_true, Option.map_eq_map, map_some, any_some, decide_eq_true_eq, or_and,
    UInt8.and_self]
  exact fun hz => bitMask_ne_zero b (UInt8.or_eq_zero_iff.1 hz).2

theorem hasBit_setBit (h : hasBit bits a = true) : hasBit (setBit bits b) a = true := by
  rw [hasBit] at h ⊢
  rw [setBit, getElem?_modify]
  cases hget : bits[a / 8]? with
  | none =>
    rw [hget] at h
    cases h
  | some x =>
    rw [hget] at h
    simp only [any_some, decide_eq_true_eq, Option.map_eq_map, map_some] at h ⊢
    split
    · rw [or_and]
      exact fun hz => h (UInt8.or_eq_zero_iff.1 hz).1
    · exact h

theorem setBits_spec (bits) (ps : List Nat) (hps : ∀ p ∈ ps, p / 8 < bits.length) :
    (ps.foldl setBit bits).length = bits.length ∧
    (∀ p, hasBit bits p = true ∨ p ∈ ps → hasBit (ps.foldl setBit bits) p = true) := by
  induction ps generalizing bits with
  | nil => exact ⟨rfl, fun p hp => hp.resolve_right (not_mem_nil)⟩
  | cons q ps ih =>
    obtain ⟨hlen, hbit⟩ := ih (setBit bits q) fun p hp => by
      rw [length_setBit]
      exact hps p (mem_cons_of_mem _ hp)
    refine ⟨hlen.trans length_setBit, fun p hp => hbit p ?_⟩
    rcases hp with hp | hp
    · exact .inl (hasBit_setBit hp)
    · rcases mem_cons.1 hp with rfl | hp
      · exact .inl (hasBit_setBit_self (hps p mem_cons_self))
      · exact .inr hp

end

/-! ## No false negatives -/

namespace BloomFilter

/-- The `k` bits of a key are set. -/
def Holds (filter : BloomFilter) (h : Nat × Nat) : Prop :=
  ∀ i < filter.k, hasBit filter.bits (probe (filter.bits.length * 8) h i) = true

theorem insertHashes_spec {filter : BloomFilter} (hne : filter.bits ≠ []) (h : Nat × Nat) :
    (filter.insertHashes h).bits.length = filter.bits.length ∧
    (filter.insertHashes h).k = filter.k ∧ (filter.insertHashes h).Holds h ∧
    ∀ h', filter.Holds h' → (filter.insertHashes h).Holds h' := by
  have hpos : 0 < filter.bits.length := length_pos_iff.2 hne
  have hrange : ∀ p ∈ (range filter.k).map (probe (filter.bits.length * 8) h),
      p / 8 < filter.bits.length := by
    intro p hp
    obtain ⟨i, -, rfl⟩ := mem_map.1 hp
    have hlt : probe (filter.bits.length * 8) h i < filter.bits.length * 8 :=
      Nat.mod_lt _ (by omega)
    omega
  obtain ⟨hlen, hbit⟩ := setBits_spec _ _ hrange
  have heq : (filter.insertHashes h).bits =
      ((range filter.k).map (probe (filter.bits.length * 8) h)).foldl setBit filter.bits := by
    rw [insertHashes, if_neg (by simpa using hne), foldl_map]
  have hk : (filter.insertHashes h).k = filter.k := by
    rw [insertHashes, if_neg (by simpa using hne)]
  refine ⟨heq ▸ hlen, hk, fun i hi => ?_, fun h' hh' i hi => ?_⟩
  · rw [heq, hlen]
    exact hbit _ (.inr (mem_map_of_mem (mem_range.2 (hk ▸ hi))))
  · rw [heq, hlen]
    exact hbit _ (.inl (hh' i (hk ▸ hi)))

theorem foldl_insertHashes_holds (hashes : List (Nat × Nat)) {filter : BloomFilter}
    (hne : filter.bits ≠ []) :
    (hashes.foldl insertHashes filter).bits ≠ [] ∧
    ∀ h, filter.Holds h ∨ h ∈ hashes → (hashes.foldl insertHashes filter).Holds h := by
  induction hashes generalizing filter with
  | nil => exact ⟨hne, fun h hh => hh.resolve_right not_mem_nil⟩
  | cons a hashes ih =>
    obtain ⟨hlen, -, hself, hkeep⟩ := insertHashes_spec hne a
    have hne' : (filter.insertHashes a).bits ≠ [] := by
      rw [← length_pos_iff, hlen]
      exact length_pos_iff.2 hne
    obtain ⟨hne'', hholds⟩ := ih hne'
    refine ⟨hne'', fun h hh => hholds h ?_⟩
    rcases hh with hh | hh
    · exact .inl (hkeep h hh)
    · rcases mem_cons.1 hh with rfl | hh
      · exact .inl hself
      · exact .inr hh

/-- A key whose hashes were inserted is never reported absent. -/
theorem mightContain_fromHashes {crc32 c hashes} (h : bloomHashes crc32 c ∈ hashes) :
    (fromHashes hashes).mightContain crc32 c = true := by
  have hn : hashes.length ≠ 0 := fun h0 => by
    rw [length_eq_zero_iff.1 h0] at h
    cases h
  have hne : (emptyFor hashes.length).bits ≠ [] := by
    rw [emptyFor, if_neg hn]
    intro hnil
    have := congrArg length hnil
    simp only [length_replicate, length_nil] at this
    omega
  obtain ⟨hne', hholds⟩ := foldl_insertHashes_holds _ hne
  rw [mightContain, fromHashes, if_neg (by simpa using hne')]
  refine all_eq_true.2 fun i hi => ?_
  exact hholds _ (.inr h) i (mem_range.1 hi)

end BloomFilter

end Hearth.Storage
