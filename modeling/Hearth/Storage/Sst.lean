import Hearth.Base.Runs
import Hearth.Storage.Bloom

/-!
# SST files

The format of an entry, the block structure of a file, and the writer of the
current version. A file is modelled by what its blocks decode to: the encryption
of a block and the cache of decrypted blocks are left out, and a block handle is
the block it leads to.

Results:
1. `decodeBlock_encode`: the bytes of a data block decode to its entries.
2. `writeSst_spec`: a file that the writer finishes holds the entries pushed, in
   order, under indexes, filters and a key range that agree with them.
-/

namespace Hearth.Storage

open Base Wal List

/-! ## Entries -/

variable (e : Entry)

/-- `serialize_entry`. -/
def serializeEntry : Bytes :=
  match e.2 with
  | .data v => 0x00 :: (e.1.realmId.uuid ++ (lengthPrefixed e.1.key ++ lengthPrefixed v))
  | .tombstone => 0x01 :: (e.1.realmId.uuid ++ (lengthPrefixed e.1.key ++ leBytes 4 0))

/-- A length-prefixed field of an entry. -/
def readField (what : String) (data : Bytes) : Except StorageError (Bytes × Bytes) :=
  match cut 4 data with
  | none => .error (.invalidSstFormat s!"truncated entry: missing {what} length")
  | some (len, rest) =>
    match cut (leNat len) rest with
    | none => .error (.invalidSstFormat s!"truncated entry: missing {what} data")
    | some r => .ok r

/-- `read_entry`: the entry at the start of the data, and what follows it. -/
def readEntry (data : Bytes) : Except StorageError (Entry × Bytes) :=
  match data with
  | [] => .error (.invalidSstFormat "truncated entry: missing type byte")
  | entryType :: rest =>
    if h : 16 ≤ rest.length then do
      let (key, rest') ← readField "key" (rest.drop 16)
      let (value, rest'') ← readField "value" rest'
      let k : CompositeKey := ⟨⟨rest.take 16, length_take_of_le h⟩, key⟩
      if entryType = 0x00 then .ok ((k, .data value), rest'')
      else if entryType = 0x01 then .ok ((k, .tombstone), rest'')
      else .error (.invalidSstFormat
        s!"unknown entry type: 0x{String.ofList (Nat.toDigits 16 entryType.toNat)}")
    else .error (.invalidSstFormat "truncated entry: missing realm UUID")

/-- The loop of `parse_entries`, and of `DataBlock::decode` on less than 4 GiB: it also refuses an
entry whose offset takes more than 32 bits. An entry takes a byte at least, so as many turns as
there are bytes are enough. -/
def decodeLoop : Nat → Bytes → Except StorageError (List Entry)
  | _, [] | 0, _ :: _ => .ok []
  | fuel + 1, b :: data => do
    let (e, rest) ← readEntry (b :: data)
    let es ← decodeLoop fuel rest
    return e :: es

def decodeBlock (data : Bytes) : Except StorageError (List Entry) := decodeLoop data.length data

/-- The lengths of the key and the value fit their 32-bit fields. -/
def EntryFits : Prop := e.1.key.length < 2 ^ 32 ∧ ∀ v ∈ e.2.live, v.length < 2 ^ 32

theorem readField_append (what : String) {bs} (h : bs.length < 2 ^ 32) (rest) :
    readField what (lengthPrefixed bs ++ rest) = .ok (bs, rest) := by
  have hmod : bs.length % 2 ^ 32 = bs.length := Nat.mod_eq_of_lt h
  unfold readField lengthPrefixed
  rw [append_assoc, cut_append (length_leBytes _ _).symm]
  simp only [hmod, leNat_leBytes (w := 4) h, cut_append rfl]

theorem readEntry_serializeEntry {e} (h : EntryFits e) (rest) :
    readEntry (serializeEntry e ++ rest) = .ok (e, rest) := by
  obtain ⟨⟨⟨uuid, huuid⟩, key⟩, v⟩ := e
  obtain ⟨hk, hv⟩ := h
  have hbody : ∀ tail : Bytes, 16 ≤ (uuid ++ tail).length ∧ (uuid ++ tail).take 16 = uuid ∧
      (uuid ++ tail).drop 16 = tail := fun tail => by
    refine ⟨by rw [length_append]; omega, ?_, ?_⟩
    · rw [← huuid, take_left]
    · rw [← huuid, drop_left]
  cases v with
  | data v =>
    simp only [serializeEntry, readEntry, cons_append, append_assoc, hbody, dif_pos,
      readField_append _ hk, readField_append _ (hv v rfl), bind, Except.bind, if_true]
  | tombstone =>
    simp only [serializeEntry, readEntry, cons_append, append_assoc, hbody, readField_append _ hk]
    rfl

theorem serializeEntry_ne_nil : serializeEntry e ≠ [] := by
  unfold serializeEntry
  split <;> exact cons_ne_nil _ _

/-- The plaintext of a data block. -/
def blockBytes (block : List Entry) : Bytes := block.flatMap serializeEntry

theorem length_le_blockBytes (es) : es.length ≤ (blockBytes es).length := by
  induction es with
  | nil => exact le_rfl
  | cons e es ih =>
    have hpos := length_pos_iff.2 (serializeEntry_ne_nil e)
    simp only [blockBytes, flatMap_cons, length_append, length_cons] at ih ⊢
    omega

/-- A data block decodes to the entries it was written from. -/
theorem decodeBlock_encode {es} (h : ∀ e ∈ es, EntryFits e) : decodeBlock (blockBytes es) = .ok es := by
  suffices hloop : ∀ fuel, es.length ≤ fuel → decodeLoop fuel (blockBytes es) = .ok es from
    hloop _ (length_le_blockBytes es)
  induction es with
  | nil => exact fun fuel _ => by cases fuel <;> rfl
  | cons e es ih =>
    intro fuel hf
    cases fuel with
    | zero => cases hf
    | succ fuel =>
      have hread := readEntry_serializeEntry (h e mem_cons_self) (blockBytes es)
      have hes := ih (fun a ha => h a (mem_cons_of_mem _ ha)) fuel (Nat.le_of_succ_le_succ hf)
      have hbytes : blockBytes (e :: es) = serializeEntry e ++ blockBytes es := flatMap_cons
      rw [hbytes]
      cases hs : serializeEntry e with
      | nil => exact absurd hs (serializeEntry_ne_nil e)
      | cons b bs =>
        rw [hs] at hread
        rw [cons_append] at hread ⊢
        simp [decodeLoop, hread, hes]

theorem decodeBlock_encode_two : decodeBlock (blockBytes [(⟨.nil, [1]⟩, .data [2]), (⟨.nil, [3]⟩, .tombstone)]) =
    .ok [(⟨.nil, [1]⟩, .data [2]), (⟨.nil, [3]⟩, .tombstone)] :=
  decodeBlock_encode (by simp [EntryFits, MemtableValue.live])

/-! ## Files -/

/-- One entry of an index block: the first key of a data block, and the block its handle leads
to. -/
structure IndexEntry where
  firstKey : CompositeKey
  block : List Entry
  deriving DecidableEq, Repr

/-- A run of data blocks in key order, with their index and their filter. A file of version 3 has
one partition. -/
structure Partition where
  firstKey : CompositeKey
  index : List IndexEntry
  filter : Option BloomFilter
  deriving DecidableEq, Repr

def Partition.entries (p : Partition) : List Entry := p.index.flatMap IndexEntry.block

/-- Versions 1 and 2 are read whole, versions 3 and 4 by block. -/
inductive SstBody
  | eager (entries : List Entry)
  | blocked (partitions : List Partition)
  deriving DecidableEq, Repr

/-- What a reader of the file keeps, its number apart. -/
structure SstFile where
  body : SstBody
  entryCount : Nat
  bloomFilter : Option BloomFilter
  keyRange : Option (CompositeKey × CompositeKey)
  deriving DecidableEq, Repr

def SstBody.entries : SstBody → List Entry
  | .eager entries => entries
  | .blocked partitions => partitions.flatMap Partition.entries

/-- The partitions of a blocked body are filed under their first keys, and no filter rejects a key
of its own partition. -/
structure PartitionsOk (crc32 : Bytes → Nat) (partitions : List Partition) : Prop where
  filed : Filed Partition.firstKey Partition.entries partitions
  indexed : ∀ p ∈ partitions, Filed IndexEntry.firstKey IndexEntry.block p.index
  passes : ∀ p ∈ partitions, ∀ f ∈ p.filter, ∀ e ∈ p.entries, f.mightContain crc32 e.1 = true

/-- The file is sorted, and what prunes a lookup agrees with its entries. -/
structure SstFile.Valid (crc32 : Bytes → Nat) (f : SstFile) : Prop where
  sorted : KeySorted f.body.entries
  partitions : ∀ ps, f.body = .blocked ps → PartitionsOk crc32 ps
  passes : ∀ b ∈ f.bloomFilter, ∀ e ∈ f.body.entries, b.mightContain crc32 e.1 = true
  range : ∀ e ∈ f.body.entries, ∃ r ∈ f.keyRange, r.1 ≤ e.1 ∧ e.1 ≤ r.2

/-- The bounds of a sorted list of entries. -/
def keyRangeOf (l : List Entry) : Option (CompositeKey × CompositeKey) :=
  l.head?.bind fun a => l.getLast?.map fun b => (a.1, b.1)

theorem keyRangeOf_spec {l} (hs : KeySorted l) {e} (he : e ∈ l) :
    ∃ r ∈ keyRangeOf l, r.1 ≤ e.1 ∧ e.1 ≤ r.2 := by
  cases hl : l with
  | nil =>
    rw [hl] at he
    cases he
  | cons a rest =>
    have hne : l ≠ [] := by
      rw [hl]
      exact cons_ne_nil _ _
    have hrange : keyRangeOf l = some (a.1, (l.getLast hne).1) := by
      have hhead : l.head? = some a := by rw [hl]; rfl
      rw [keyRangeOf, getLast?_eq_some_getLast hne, hhead]
      rfl
    rw [← hl]
    refine ⟨(a.1, (l.getLast hne).1), hrange, ?_, ?_⟩
    · rw [hl] at he hs
      exact hs.head_le e he
    · obtain ⟨pre, post, hsplit⟩ := append_of_mem he
      cases post with
      | nil =>
        have hlast : l.getLast hne = e := by
          simp [hsplit]
        rw [hlast]
      | cons b post =>
        have hlast : l.getLast hne ∈ b :: post := by
          have heq : l.getLast hne = (b :: post).getLast (cons_ne_nil _ _) := by
            simp only [hsplit]
            rw [getLast_append_of_ne_nil _ (cons_ne_nil _ _), getLast_cons _]
          rw [heq]
          exact getLast_mem _
        rw [hsplit, KeySorted, pairwise_append, pairwise_cons] at hs
        exact le_of_lt (hs.2.1.1 _ hlast)

/-! ## The writer -/

/-- `V4BodyWriter`, without the file and its offsets. -/
structure V4BodyWriter where
  nextOrdinal : Nat
  block : List Entry
  blockFirstKey : Option CompositeKey
  partitionIndex : List IndexEntry
  partitionFirstKey : Option CompositeKey
  partitionHashes : List (Nat × Nat)
  partitions : List Partition
  minKey : Option CompositeKey
  maxKey : Option CompositeKey
  written : Nat

/-- The bytes of a footer key, a handle and the index entries of a partition. -/
def footerKeyBytes (k : CompositeKey) : Nat := 16 + 4 + k.key.length

def handleBytes : Nat := 8 + 4 + 4 + 4

def indexBytes (index : List IndexEntry) : Nat :=
  (index.map fun e => footerKeyBytes e.firstKey + handleBytes).sum

def partitionsBytes (partitions : List Partition) : Nat :=
  (partitions.map fun p => footerKeyBytes p.firstKey + handleBytes + 1 + handleBytes).sum

def blockTargetBytes : Nat := 4096

def indexPartitionTargetBytes : Nat := 16 * 1024

/-- The bytes AES-GCM adds to a block. -/
def tagBytes : Nat := 16

namespace V4BodyWriter

def start : V4BodyWriter :=
  { nextOrdinal := 0, block := [], blockFirstKey := none, partitionIndex := []
    partitionFirstKey := none, partitionHashes := [], partitions := [], minKey := none
    maxKey := none, written := 0 }

variable (w : V4BodyWriter)

/-- `seal`: the block of that many bytes gets the next ordinal. -/
def sealBytes (plaintextLen : Nat) : Except StorageError V4BodyWriter :=
  if w.nextOrdinal = 2 ^ 32 - 1 then
    .error (.invalidSstFormat "v4 writer: too many blocks for one file")
  else if 2 ^ 32 ≤ plaintextLen + tagBytes then
    .error (.invalidSstFormat "v4 writer: block larger than 4 GiB")
  else .ok { w with nextOrdinal := w.nextOrdinal + 1 }

def sealPartition : Except StorageError V4BodyWriter :=
  if w.partitionIndex.isEmpty then .ok w
  else
    match w.partitionFirstKey with
    | none => .error (.invalidSstFormat "v4 writer: non-empty partition without a first key")
    | some firstKey =>
      let filter := .fromHashes w.partitionHashes
      match w.sealBytes (1 + filter.bits.length) with
      | .error e => .error e
      | .ok w =>
        match w.sealBytes (indexBytes w.partitionIndex) with
        | .error e => .error e
        | .ok w =>
          if w.partitions.length = 2 ^ 32 - 1 then
            .error (.invalidSstFormat "v4 writer: too many partitions for one file")
          else .ok { w with
            partitions := w.partitions ++ [⟨firstKey, w.partitionIndex, some filter⟩]
            partitionIndex := [], partitionFirstKey := none, partitionHashes := [] }

def sealDataBlock : Except StorageError V4BodyWriter :=
  if w.block.isEmpty then .ok w
  else
    match w.blockFirstKey with
    | none => .error (.invalidSstFormat "v4 writer: non-empty block without a first key")
    | some firstKey =>
      match w.sealBytes (blockBytes w.block).length with
      | .error e => .error e
      | .ok w =>
        let w := { w with
          block := [], blockFirstKey := none
          partitionIndex := w.partitionIndex ++ [⟨firstKey, w.block⟩] }
        if indexPartitionTargetBytes ≤ indexBytes w.partitionIndex then w.sealPartition else .ok w

def push (crc32 : Bytes → Nat) (w : V4BodyWriter) (e : Entry) : Except StorageError V4BodyWriter :=
  let w := { w with
    partitionHashes := w.partitionHashes ++ [bloomHashes crc32 e.1]
    blockFirstKey := w.blockFirstKey.or (some e.1)
    partitionFirstKey := w.partitionFirstKey.or (some e.1)
    minKey := w.minKey.or (some e.1)
    maxKey := some e.1
    block := w.block ++ [e]
    written := min (w.written + 1) (2 ^ 64 - 1) }
  if blockTargetBytes ≤ (blockBytes w.block).length then w.sealDataBlock else .ok w

/-- The entries of `feed`, pushed one after the other. -/
def pushAll (crc32 : Bytes → Nat) : V4BodyWriter → List Entry → Except StorageError V4BodyWriter
  | w, [] => .ok w
  | w, e :: es =>
    match w.push crc32 e with
    | .error err => .error err
    | .ok w => pushAll crc32 w es

/-- The footer: the count, the partitions and the key range. -/
def keyRange : Option (CompositeKey × CompositeKey) :=
  w.minKey.bind fun mn => w.maxKey.map fun mx => (mn, mx)

def footerBytes : Nat :=
  8 + 4 + partitionsBytes w.partitions + 1 +
    w.keyRange.elim 0 fun r => footerKeyBytes r.1 + footerKeyBytes r.2

def finish : Except StorageError SstFile :=
  match w.sealDataBlock with
  | .error e => .error e
  | .ok w =>
    match w.sealPartition with
    | .error e => .error e
    | .ok w =>
      if 2 ^ 32 ≤ w.footerBytes + tagBytes then
        .error (.invalidSstFormat "v4 writer: footer larger than 4 GiB")
      else .ok {
        body := .blocked w.partitions
        entryCount := min w.written (2 ^ 32 - 1)
        bloomFilter := none
        keyRange := w.keyRange }

end V4BodyWriter

/-- `write_sst_with_fs`, up to the publication of the file. -/
def writeSst (crc32 : Bytes → Nat) (entries : List Entry) : Except StorageError SstFile :=
  match V4BodyWriter.start.pushAll crc32 entries with
  | .error e => .error e
  | .ok w => w.finish

/-! ## What the writer keeps -/

namespace V4BodyWriter

/-- The entries of the partition being filled. -/
def unsealed (w : V4BodyWriter) : List Entry := w.partitionIndex.flatMap IndexEntry.block ++ w.block

/-- The writer after the entries `pushed`. -/
structure Ok (crc32 : Bytes → Nat) (pushed : List Entry) (w : V4BodyWriter) : Prop where
  split : pushed = w.partitions.flatMap Partition.entries ++ w.unsealed
  partitions : PartitionsOk crc32 w.partitions
  index : Filed IndexEntry.firstKey IndexEntry.block w.partitionIndex
  blockKey : w.blockFirstKey = w.block.head?.map Prod.fst
  partitionKey : w.partitionFirstKey = w.unsealed.head?.map Prod.fst
  hashes : w.partitionHashes = w.unsealed.map fun e => bloomHashes crc32 e.1
  minKey : w.minKey = pushed.head?.map Prod.fst
  maxKey : w.maxKey = pushed.getLast?.map Prod.fst

variable {crc32 : Bytes → Nat} {pushed : List Entry} {w w' : V4BodyWriter}

theorem sealBytes_eq {n} (h : w.sealBytes n = .ok w') :
    w' = { w with nextOrdinal := w.nextOrdinal + 1 } := by
  unfold sealBytes at h
  split at h
  · cases h
  · split at h
    · cases h
    · exact (Except.ok.inj h).symm

theorem cons_of_head {l : List Entry} {k} (h : some k = l.head?.map Prod.fst) : ∃ e rest, l = e :: rest ∧ k = e.1 := by
  cases l with
  | nil => cases h
  | cons e rest => exact ⟨e, rest, rfl, Option.some.inj h⟩

section

variable (h : w.Ok crc32 pushed)

include h

/-- The sealed partition is filed under the first of its keys, and its filter holds all of them. -/
theorem Ok.sealed (hb : w.block = []) {firstKey} (hk : w.partitionFirstKey = some firstKey) :
    PartitionsOk crc32 (w.partitions ++
      [⟨firstKey, w.partitionIndex, some (.fromHashes w.partitionHashes)⟩]) := by
  have hopen : w.unsealed = w.partitionIndex.flatMap IndexEntry.block := by
    rw [unsealed, hb, append_nil]
  obtain ⟨hfiled, hindexed, hpass⟩ := h.partitions
  refine ⟨forall_mem_concat hfiled ?_, forall_mem_concat hindexed h.index, forall_mem_concat hpass ?_⟩
  · have hkey := h.partitionKey
    rw [hk, hopen] at hkey
    exact cons_of_head hkey
  · rintro f ⟨⟩ e he
    refine BloomFilter.mightContain_fromHashes ?_
    rw [h.hashes, hopen]
    exact mem_map_of_mem he

theorem Ok.sealPartition (hb : w.block = [])
    (hok : w.sealPartition = .ok w') : w'.Ok crc32 pushed ∧ w'.block = [] ∧ w'.partitionIndex = [] := by
  unfold V4BodyWriter.sealPartition at hok
  split at hok
  · next hempty =>
    cases hok
    exact ⟨h, hb, isEmpty_iff.1 hempty⟩
  · split at hok
    · cases hok
    · next firstKey hk =>
      dsimp only at hok
      split at hok
      · cases hok
      · next w1 hw1 =>
        cases sealBytes_eq hw1
        split at hok
        · cases hok
        · next w2 hw2 =>
          cases sealBytes_eq hw2
          split at hok
          · cases hok
          · cases hok
            refine ⟨⟨?_, h.sealed hb hk, nofun, h.blockKey, ?_, ?_, h.minKey, h.maxKey⟩, hb, rfl⟩
            · rw [h.split, unsealed, unsealed]
              simp [Partition.entries]
            · rw [hb]
              rfl
            · rw [hb]
              rfl

theorem Ok.sealDataBlock (hok : w.sealDataBlock = .ok w') : w'.Ok crc32 pushed ∧ w'.block = [] := by
  unfold V4BodyWriter.sealDataBlock at hok
  split at hok
  · next hempty =>
    cases hok
    exact ⟨h, isEmpty_iff.1 hempty⟩
  · split at hok
    · cases hok
    · next firstKey hk =>
      split at hok
      · cases hok
      · next w1 hw1 =>
        cases sealBytes_eq hw1
        have hsame : w.partitionIndex.flatMap IndexEntry.block ++ w.block =
            (w.partitionIndex ++ [IndexEntry.mk firstKey w.block]).flatMap IndexEntry.block ++ [] := by
          simp
        have hmoved : Ok crc32 pushed { w with
            nextOrdinal := w.nextOrdinal + 1, block := [], blockFirstKey := none
            partitionIndex := w.partitionIndex ++ [⟨firstKey, w.block⟩] } := by
          obtain ⟨hsplit, hparts, hindex, hkey, hpkey, hhash, hmin, hmax⟩ := h
          rw [unsealed, hsame] at hsplit hpkey hhash
          have hblock := cons_of_head (hk.symm.trans hkey)
          exact ⟨hsplit, hparts, forall_mem_concat hindex hblock, rfl, hpkey, hhash, hmin, hmax⟩
        dsimp only at hok
        split at hok
        · obtain ⟨hok', hb, -⟩ := hmoved.sealPartition rfl hok
          exact ⟨hok', hb⟩
        · cases hok
          exact ⟨hmoved, rfl⟩

theorem Ok.push {e} (hok : w.push crc32 e = .ok w') : w'.Ok crc32 (pushed ++ [e]) := by
  have hadded : Ok crc32 (pushed ++ [e]) { w with
      partitionHashes := w.partitionHashes ++ [bloomHashes crc32 e.1]
      blockFirstKey := w.blockFirstKey.or (some e.1)
      partitionFirstKey := w.partitionFirstKey.or (some e.1)
      minKey := w.minKey.or (some e.1)
      maxKey := some e.1
      block := w.block ++ [e]
      written := min (w.written + 1) (2 ^ 64 - 1) } := by
    have hopen : w.partitionIndex.flatMap IndexEntry.block ++ (w.block ++ [e]) = w.unsealed ++ [e] := by
      rw [unsealed, append_assoc]
    refine ⟨?_, h.partitions, h.index, ?_, ?_, ?_, ?_, ?_⟩
    · rw [unsealed, hopen, h.split, append_assoc]
    · rw [head?_append, head?_singleton, Option.map_or, h.blockKey]
      rfl
    · rw [unsealed, hopen, head?_append, head?_singleton, Option.map_or, h.partitionKey]
      rfl
    · rw [unsealed, hopen, map_append, h.hashes]
      rfl
    · rw [head?_append, head?_singleton, Option.map_or, h.minKey]
      rfl
    · rw [getLast?_append]
      rfl
  unfold V4BodyWriter.push at hok
  simp only at hok
  split at hok
  · exact (hadded.sealDataBlock hok).1
  · cases hok
    exact hadded

end

theorem Ok.pushAll {es} (h : w.Ok crc32 pushed) (hok : w.pushAll crc32 es = .ok w') :
    w'.Ok crc32 (pushed ++ es) := by
  induction es generalizing w pushed with
  | nil =>
    cases hok
    rw [append_nil]
    exact h
  | cons e es ih =>
    rw [pushAll] at hok
    split at hok
    · cases hok
    · next w1 hw1 =>
      have hrest := ih (h.push hw1) hok
      rwa [append_assoc] at hrest

theorem start_ok (crc32 : Bytes → Nat) : start.Ok crc32 [] :=
  ⟨rfl, ⟨nofun, nofun, nofun⟩, nofun, rfl, rfl, rfl, rfl, rfl⟩

theorem Ok.keyRange_eq (h : w.Ok crc32 pushed) : w.keyRange = keyRangeOf pushed := by
  rw [keyRange, h.minKey, h.maxKey, keyRangeOf]
  cases pushed.head? <;> cases pushed.getLast? <;> rfl

theorem Ok.finish {f} (h : w.Ok crc32 pushed) (hs : KeySorted pushed)
    (hok : w.finish = .ok f) : f.Valid crc32 ∧ f.body.entries = pushed := by
  unfold V4BodyWriter.finish at hok
  split at hok
  · cases hok
  · next w1 hw1 =>
    obtain ⟨h1, hb1⟩ := h.sealDataBlock hw1
    split at hok
    · cases hok
    · next w2 hw2 =>
      obtain ⟨h2, hb2, hi2⟩ := h1.sealPartition hb1 hw2
      split at hok
      · cases hok
      · cases hok
        have hent : pushed = w2.partitions.flatMap Partition.entries := by
          rw [h2.split, unsealed, hb2, hi2]
          simp
        have hbody : (SstBody.blocked w2.partitions).entries = pushed := hent.symm
        refine ⟨⟨?_, fun ps hps => ?_, nofun, fun e he => ?_⟩, hbody⟩
        · exact hbody.symm ▸ hs
        · cases hps
          exact h2.partitions
        · rw [h2.keyRange_eq]
          exact keyRangeOf_spec hs (hbody ▸ he)

end V4BodyWriter

/-- A finished file holds what was pushed, and prunes lookups soundly. -/
theorem writeSst_spec {crc32 entries f}
    (hs : KeySorted entries) (hok : writeSst crc32 entries = .ok f) :
    f.Valid crc32 ∧ f.body.entries = entries := by
  unfold writeSst at hok
  split at hok
  · cases hok
  · next w hw => exact ((V4BodyWriter.start_ok _).pushAll hw).finish hs hok

/-- A file that a reader has opened. -/
structure Sst (crc32 : Bytes → Nat) extends SstFile where
  valid : toSstFile.Valid crc32

namespace Sst

variable {crc32 : Bytes → Nat} (f : Sst crc32)

def entries : List Entry := f.body.entries

theorem sorted : KeySorted f.entries := f.valid.sorted

theorem entries_eager {entries} (h : f.body = .eager entries) : f.entries = entries := by
  rw [Sst.entries, h]
  rfl

theorem entries_blocked {ps} (h : f.body = .blocked ps) :
    f.entries = ps.flatMap Partition.entries := by
  rw [entries, h]
  rfl

/-- A file of version 1, which has no filter. -/
def ofV1 (crc32 : Bytes → Nat) (entries : List Entry) (h : KeySorted entries) : Sst crc32 where
  body := .eager entries
  entryCount := entries.length
  bloomFilter := none
  keyRange := keyRangeOf entries
  valid := ⟨h, fun _ hb => (nomatch hb), fun _ hb => (nomatch hb), fun _ he => keyRangeOf_spec h he⟩

/-- Write a sorted list of entries as a file. -/
def write (crc32 : Bytes → Nat) (entries : List Entry) (h : KeySorted entries) :
    Except StorageError (Sst crc32) :=
  match hok : writeSst crc32 entries with
  | .error e => .error e
  | .ok f => .ok ⟨f, (writeSst_spec h hok).1⟩

theorem entries_write {entries} {h : KeySorted entries} {f}
    (hok : write crc32 entries h = .ok f) : f.entries = entries := by
  unfold write at hok
  split at hok
  · cases hok
  · next f' hf' =>
    cases hok
    exact (writeSst_spec h hf').2

end Sst

end Hearth.Storage
