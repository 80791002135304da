import Hearth.Storage.KeyMerge
import Hearth.Storage.Sst

/-!
# Reading SST files

Point lookups, range scans and key cursors over files of every version, with the
pruning by key range, Bloom filter and block index.

Results, for every valid file:
1. `Sst.get_eq`: a lookup finds the entry of the file, whatever is pruned.
2. `Sst.rangeScanInner_eq`: a range scan is the window of the file's entries.
3. `Sst.remaining_cursor`: a key cursor yields that window, one block at a time.
-/

namespace Hearth.Storage

open Base List Storage.Partition SstFile

variable {crc32 : Bytes → Nat}

/-! ## Point lookups -/

/-- `partition_for_key`: the last partition whose first key is at or before the key. -/
def partitionForKey (partitions : List Partition) (c : CompositeKey) : Option Nat :=
  lastLe firstKey partitions c

/-- `position_for`: the last data block whose first key is at or before the key. -/
def positionFor (index : List IndexEntry) (c : CompositeKey) : Option Nat :=
  lastLe IndexEntry.firstKey index c

/-- `BlockedBody::get`: the partition, its filter, its index, then one data block. -/
def blockedGet (crc32 : Bytes → Nat) (partitions : List Partition) (c : CompositeKey) :
    Option MemtableValue :=
  match (partitionForKey partitions c).bind (partitions[·]?) with
  | none => none
  | some p =>
    if p.filter.any fun f => !f.mightContain crc32 c then none
    else
      match (positionFor p.index c).bind (p.index[·]?) with
      | none => none
      | some e => searchAt e.block c

namespace SstFile

def mayContain (f : SstFile) (c : CompositeKey) : Bool := f.keyRange.any fun r => r.1 ≤ c && c ≤ r.2

def overlapsRange (f : SstFile) (realmId : RealmId) (start stop : Bytes) : Bool :=
  f.keyRange.any fun r => r.1 < (⟨realmId, stop⟩ : CompositeKey) && (⟨realmId, start⟩ : CompositeKey) ≤ r.2

/-- `get_with`. Whether a block comes from the cache makes no difference here. -/
def get (crc32 : Bytes → Nat) (f : SstFile) (realmId : RealmId) (key : Bytes) :
    Option MemtableValue :=
  if !f.mayContain ⟨realmId, key⟩ then none
  else if f.bloomFilter.any fun b => !b.mightContain crc32 ⟨realmId, key⟩ then none
  else
    match f.body with
    | .eager entries => searchAt entries ⟨realmId, key⟩
    | .blocked partitions => blockedGet crc32 partitions ⟨realmId, key⟩

end SstFile

/-- What a filter may reject is not there. -/
theorem guard_filter {filter : Option BloomFilter} {c : CompositeKey} {l : List Entry}
    (h : ∀ f ∈ filter, ∀ e ∈ l, f.mightContain crc32 e.1 = true) :
    (if filter.any fun f => !f.mightContain crc32 c then none else valueAt l c) = valueAt l c := by
  split
  · next hrej =>
    symm
    refine valueAt_eq_none.2 fun e he heq => ?_
    cases filter with
    | none => cases hrej
    | some f =>
      rw [heq, Option.any_some, h f rfl e he] at hrej
      cases hrej
  · rfl

theorem blockedGet_eq {ps : List Partition} (hok : PartitionsOk crc32 ps)
    (hs : KeySorted (ps.flatMap entries)) (c) :
    blockedGet crc32 ps c = valueAt (ps.flatMap entries) c := by
  rw [valueAt_runs hok.filed hs, blockedGet, partitionForKey]
  cases hp : (lastLe firstKey ps c).bind (ps[·]?) with
  | none => rfl
  | some p =>
    have hmem : p ∈ ps := by
      obtain ⟨i, -, hi⟩ := Option.bind_eq_some_iff.1 hp
      exact mem_of_getElem? hi
    have hsort : KeySorted p.entries := (pairwise_flatMap.1 hs).1 p hmem
    have hblock : (match (positionFor p.index c).bind (p.index[·]?) with
        | none => none
        | some e => searchAt e.block c) = valueAt p.entries c := by
      rw [entries, valueAt_runs (hok.indexed p hmem) hsort, positionFor]
      cases he : (lastLe IndexEntry.firstKey p.index c).bind (p.index[·]?) with
      | none => rfl
      | some e =>
        obtain ⟨i, -, hi⟩ := Option.bind_eq_some_iff.1 he
        exact searchAt_eq ((pairwise_flatMap.1 hsort).1 e (mem_of_getElem? hi))
    simp only [hblock]
    exact guard_filter (hok.passes p hmem)

/-- A lookup finds the entry of the file. -/
theorem Sst.get_eq (f : Sst crc32) (realmId : RealmId) (key : Bytes) :
    f.get crc32 realmId key = valueAt f.entries ⟨realmId, key⟩ := by
  have hv := f.valid
  rw [SstFile.get]
  split
  · next hout =>
    symm
    refine valueAt_eq_none.2 fun e he heq => ?_
    obtain ⟨r, hr, hlo, hhi⟩ := hv.range e he
    rw [mayContain, Option.mem_def.1 hr, heq] at hout
    simp [hlo, hhi] at hout
  · have hbody : (match f.body with
        | .eager entries => searchAt entries ⟨realmId, key⟩
        | .blocked partitions => blockedGet crc32 partitions ⟨realmId, key⟩) =
        valueAt f.entries ⟨realmId, key⟩ := by
      have hsort := f.sorted
      cases hb : f.body with
      | eager entries =>
        rw [f.entries_eager hb] at hsort ⊢
        exact searchAt_eq hsort
      | blocked ps =>
        rw [f.entries_blocked hb] at hsort ⊢
        exact blockedGet_eq (hv.partitions ps hb) hsort _
    rw [hbody]
    exact guard_filter hv.passes

/-! ## Walks over the data blocks -/

/-- `BlockWalk`: the partitions from the one being walked on, and the entries of its index from the
next one to visit on, once that index is loaded. -/
structure BlockWalk where
  partitions : List Partition
  index : Option (List IndexEntry)

namespace BlockWalk

def fromStart (partitions : List Partition) : BlockWalk := ⟨partitions, none⟩

/-- `seek`: from the data block that may hold the key, or from the first one. -/
def seek (partitions : List Partition) (c : CompositeKey) : BlockWalk :=
  match partitionForKey partitions c with
  | none => fromStart partitions
  | some p =>
    ⟨partitions.drop p, partitions[p]?.map fun partition =>
      partition.index.drop ((positionFor partition.index c).getD 0)⟩

/-- The loop of `next_block`. -/
def nextBlockLoop (stop : Option CompositeKey) :
    List Partition → Option (List IndexEntry) → Option (List Entry) × BlockWalk
  | [], index => (none, ⟨[], index⟩)
  | p :: ps, index =>
    if index.isNone && stop.any (· ≤ p.firstKey) then (none, ⟨p :: ps, none⟩)
    else
      match index.getD p.index with
      | [] => nextBlockLoop stop ps none
      | e :: es =>
        if stop.any (· ≤ e.firstKey) then (none, ⟨p :: ps, some (e :: es)⟩)
        else (some e.block, ⟨p :: ps, some es⟩)

variable (w : BlockWalk)

/-- `next_block`: none when no block is left, or the next one starts at or after `stop`. -/
def nextBlock (stop : Option CompositeKey) : Option (List Entry) × BlockWalk :=
  nextBlockLoop stop w.partitions w.index

/-- The blocks the walk has yet to visit. -/
def remaining : List IndexEntry :=
  match w.partitions with
  | [] => []
  | p :: ps => w.index.getD p.index ++ ps.flatMap Partition.index

/-- The loop `while let Some(block) = walk.next_block(stop)`. -/
def blocksLoop (stop : Option CompositeKey) : Nat → BlockWalk → List (List Entry)
  | 0, _ => []
  | fuel + 1, w =>
    match w.nextBlock stop with
    | (none, _) => []
    | (some block, w) => block :: blocksLoop stop fuel w

def blocks (stop : Option CompositeKey) : List (List Entry) := blocksLoop stop w.remaining.length w

/-- A partition is filed under the first key of its index. -/
def Ok : Prop := ∀ p ∈ w.partitions, ∃ e rest, p.index = e :: rest ∧ p.firstKey = e.firstKey

variable {w : BlockWalk} {stop : Option CompositeKey}

theorem nextBlock_spec (stop : Option CompositeKey) (hok : w.Ok) : match w.remaining with
    | [] => (w.nextBlock stop).1 = none
    | e :: es =>
      if stop.any (· ≤ e.firstKey) then (w.nextBlock stop).1 = none
      else (w.nextBlock stop).1 = some e.block ∧ (w.nextBlock stop).2.remaining = es ∧
        (w.nextBlock stop).2.Ok := by
  obtain ⟨ps, index⟩ := w
  unfold nextBlock
  induction ps generalizing index with
  | nil => rfl
  | cons p ps ih =>
    obtain ⟨a, rest, hindex, hfirst⟩ := hok p mem_cons_self
    rw [remaining, nextBlockLoop]
    dsimp only
    cases index with
    | none =>
      rw [Option.getD_none, hindex, cons_append]
      dsimp only
      rw [hfirst]
      cases hstop : stop.any (· ≤ a.firstKey) with
      | true => rfl
      | false =>
        exact ⟨rfl, rfl, hok⟩
    | some es =>
      rw [Option.getD_some]
      cases es with
      | nil =>
        have htail := ih none fun q hq => hok q (mem_cons_of_mem _ hq)
        cases ps with
        | nil => exact rfl
        | cons q qs => exact htail
      | cons e es =>
        rw [cons_append]
        dsimp only
        cases hstop : stop.any (· ≤ e.firstKey) with
        | true => rfl
        | false => exact ⟨rfl, rfl, hok⟩

theorem blocks_eq (hok : w.Ok) : w.blocks stop =
    (w.remaining.takeWhile fun e => !stop.any (· ≤ e.firstKey)).map IndexEntry.block := by
  rw [blocks]
  generalize hn : w.remaining.length = n
  induction n generalizing w with
  | zero =>
    rw [length_eq_zero_iff.1 hn]
    rfl
  | succ n ih =>
    have hspec := nextBlock_spec stop hok
    rw [blocksLoop]
    cases hr : w.remaining with
    | nil =>
      rw [hr] at hn
      cases hn
    | cons e es =>
      rw [hr] at hspec hn
      dsimp only at hspec
      cases hstop : stop.any (· ≤ e.firstKey) with
      | true =>
        rw [hstop] at hspec
        rw [takeWhile_cons_of_neg (by simp [hstop]), map_nil]
        rw [← Prod.mk.eta (p := w.nextBlock stop), hspec]
      | false =>
        rw [hstop] at hspec
        obtain ⟨hblock, hrem, hok'⟩ := hspec
        rw [takeWhile_cons_of_pos (by simp [hstop]), map_cons,
          ← Prod.mk.eta (p := w.nextBlock stop), hblock]
        dsimp only
        rw [ih hok' (by rw [hrem]; exact Nat.succ.inj hn), hrem]

/-- The entries of the blocks the walk has yet to visit. -/
def pending (w : BlockWalk) : List Entry := w.remaining.flatMap IndexEntry.block

/-- A walk over the data blocks of a valid file. -/
structure Sound (w : BlockWalk) : Prop where
  ok : w.Ok
  filed : Filed IndexEntry.firstKey IndexEntry.block w.remaining
  sorted : KeySorted w.pending

theorem flatMap_index (ps : List Partition) :
    (ps.flatMap Partition.index).flatMap IndexEntry.block = ps.flatMap entries :=
  flatMap_assoc

variable {ps : List Partition}

theorem ok_of_partitions (hok : PartitionsOk crc32 ps) : (fromStart ps).Ok := by
  intro p hp
  obtain ⟨a, rest, hents, hfirst⟩ := hok.filed p hp
  cases hi : p.index with
  | nil =>
    rw [entries, hi] at hents
    cases hents
  | cons e es =>
    obtain ⟨b, rest', hblock, hkey⟩ := hok.indexed p hp e (by rw [hi]; exact mem_cons_self)
    refine ⟨e, es, rfl, ?_⟩
    rw [entries, hi, flatMap_cons, hblock] at hents
    rw [hfirst, hkey, (cons.inj hents).1]

theorem sound_of_suffix (hok : PartitionsOk crc32 ps) (hs : KeySorted (ps.flatMap entries))
    (hparts : ∀ p ∈ w.partitions, p ∈ ps) (hsuff : w.remaining <:+ ps.flatMap Partition.index) :
    w.Sound := by
  refine ⟨fun p hp => ok_of_partitions hok p (hparts p hp), fun e he => ?_, ?_⟩
  · obtain ⟨p, hp, hep⟩ := mem_flatMap.1 (hsuff.subset he)
    exact hok.indexed p hp e hep
  · rw [← flatMap_index] at hs
    obtain ⟨pre, hpre⟩ := hsuff
    rw [← hpre, flatMap_append] at hs
    exact hs.sublist (sublist_append_right _ _)

theorem remaining_fromStart (ps : List Partition) :
    (fromStart ps).remaining = ps.flatMap Partition.index := by
  cases ps <;> rfl

section

variable (hok : PartitionsOk crc32 ps)

include hok

section

variable (hs : KeySorted (ps.flatMap entries))

include hs

theorem sound_fromStart : (fromStart ps).Sound :=
  sound_of_suffix hok hs (fun _ hp => hp) (remaining_fromStart ps ▸ suffix_rfl)

/-- A walk from the sought block misses no key from the sought one on. -/
theorem seek_spec (c) : (seek ps c).Sound ∧
      (seek ps c).pending.filter (fun e => !decide (e.1 < c)) =
        (ps.flatMap entries).filter fun e => !decide (e.1 < c) := by
  have hfilt := filter_from_lastLe (k := c) hok.filed hs
  have hspec := lastLe_spec (k := c) hok.filed hs
  rw [seek, partitionForKey]
  cases hp : lastLe firstKey ps c with
  | none =>
    refine ⟨sound_fromStart hok hs, ?_⟩
    rw [pending, remaining_fromStart, flatMap_index]
  | some i =>
    rw [hp] at hspec hfilt
    obtain ⟨pre, p, post, hsplit, hlen, -, -⟩ := hspec
    obtain ⟨hget, hdrop⟩ := at_split hsplit hlen
    have hmem : p ∈ ps := mem_of_getElem? hget
    have hrem : (mk (ps.drop i) (ps[i]?.map fun partition =>
        partition.index.drop ((positionFor partition.index c).getD 0))).remaining =
        p.index.drop ((positionFor p.index c).getD 0) ++ post.flatMap Partition.index := by
      rw [hdrop, hget]
      rfl
    constructor
    · refine sound_of_suffix hok hs (fun q => mem_of_mem_drop) ?_
      rw [hrem, hsplit, flatMap_append]
      exact ((suffix_append_inj_of_length_eq rfl).2 ⟨drop_suffix _ _, rfl⟩).trans
        (suffix_append _ _)
    · have hsort : KeySorted p.entries := (pairwise_flatMap.1 hs).1 p hmem
      have hinner := filter_from_lastLe (k := c) (hok.indexed p hmem) hsort
      rw [hfilt, Option.getD_some, hdrop, flatMap_cons, filter_append, entries,
        hinner, ← flatMap_index, ← filter_append, ← flatMap_append, pending, hrem]
      rfl

theorem firstKey_le_index {p} (hp : p ∈ ps) {i} (hi : i ∈ p.index) : p.firstKey ≤ i.firstKey := by
  obtain ⟨a, rest, hblock, hkey⟩ := hok.indexed p hp i hi
  rw [hkey]
  refine hok.filed.key_le hs hp a (mem_flatMap.2 ⟨i, hi, ?_⟩)
  rw [hblock]
  exact mem_cons_self

/-- Behind the sought block every block starts after the key. -/
theorem seek_tail (c) : ∀ i ∈ (seek ps c).remaining.tail, c < i.firstKey := by
  have hspec := lastLe_spec (k := c) hok.filed hs
  intro i hi
  rw [seek, partitionForKey] at hi
  cases hp : lastLe firstKey ps c with
  | none =>
    simp only [hp, remaining_fromStart] at hi hspec
    obtain ⟨p, hmem, hip⟩ := mem_flatMap.1 (mem_of_mem_tail hi)
    exact lt_of_lt_of_le (hspec p hmem) (firstKey_le_index hok hs hmem hip)
  | some n =>
    rw [hp] at hspec
    obtain ⟨pre, p, post, hsplit, hlen, -, hpost⟩ := hspec
    obtain ⟨hget, hdrop⟩ := at_split hsplit hlen
    have hmem : p ∈ ps := mem_of_getElem? hget
    have hsort : KeySorted p.entries := (pairwise_flatMap.1 hs).1 p hmem
    simp only [hp, hdrop, hget, Option.map_some] at hi
    have hcases : i ∈ (p.index.drop ((positionFor p.index c).getD 0)).tail ∨
        i ∈ post.flatMap Partition.index := by
      cases hd : p.index.drop ((positionFor p.index c).getD 0) with
      | nil =>
        rw [hd] at hi
        exact .inr (mem_of_mem_tail hi)
      | cons a as =>
        rw [hd] at hi
        exact mem_append.1 hi
    rcases hcases with hi | hi
    · have hin := lastLe_spec (k := c) (hok.indexed p hmem) hsort
      rw [positionFor] at hi
      cases hq : lastLe IndexEntry.firstKey p.index c with
      | none =>
        rw [hq] at hi hin
        exact hin i (mem_of_mem_tail hi)
      | some m =>
        rw [hq] at hi hin
        obtain ⟨pre', a, post', hsplit', hlen', -, hpost'⟩ := hin
        rw [Option.getD_some, hsplit', ← hlen', drop_left] at hi
        exact hpost' i hi
    · obtain ⟨q, hq, hiq⟩ := mem_flatMap.1 hi
      have hqmem : q ∈ ps := by
        rw [hsplit]
        exact mem_append_right _ (mem_cons_of_mem _ hq)
      exact lt_of_lt_of_le (hpost q hq) (firstKey_le_index hok hs hqmem hiq)

end

end

end BlockWalk

/-! ## Range scans -/

namespace SstFile

/-- `iter_all`, which is also what a compaction cursor streams block by block. -/
def iterAll (f : SstFile) : List Entry :=
  match f.body with
  | .eager entries => entries
  | .blocked partitions => ((BlockWalk.fromStart partitions).blocks none).flatten

/-- `range_scan_inner`: `project` turns a value, none for a tombstone, into what is returned. -/
def rangeScanInner {T : Type} (project : Option Bytes → T) (f : SstFile) (realmId : RealmId)
    (start stop : Bytes) : Except StorageError (List (Bytes × T)) :=
  if stop < start then .error .invalidRange
  else if !f.overlapsRange realmId start stop then .ok []
  else
    let s : CompositeKey := ⟨realmId, start⟩
    let e : CompositeKey := ⟨realmId, stop⟩
    match f.body with
    | .eager entries =>
      .ok (((entries.take (lowerBound entries e)).drop (lowerBound entries s)).map fun x =>
        (x.1.key, project x.2.live))
    | .blocked partitions =>
      .ok ((((BlockWalk.seek partitions s).blocks (some e)).flatten.filter fun x =>
        !decide (x.1 < s) && decide (x.1 < e)).map fun x => (x.1.key, project x.2.live))

def rangeScan : SstFile → RealmId → Bytes → Bytes → Except StorageError (List (Bytes × MemtableValue)) :=
  rangeScanInner fun v => v.elim .tombstone .data

def rangeScanKeys : SstFile → RealmId → Bytes → Bytes → Except StorageError (List (Bytes × Bool)) :=
  rangeScanInner Option.isSome

end SstFile

open BlockWalk (blocks_eq seek seek_spec)

theorem inWindow_eq (realmId start stop k) : inWindow realmId start stop k =
      (!decide (k < (⟨realmId, start⟩ : CompositeKey)) && decide (k < (⟨realmId, stop⟩ : CompositeKey))) := by
  rw [Bool.eq_iff_iff, inWindow_iff]
  simp

namespace Sst

variable (f : Sst crc32) (realmId : RealmId) {start stop : Bytes}

theorem iterAll_eq : f.iterAll = f.entries := by
  unfold iterAll
  cases hb : f.body with
  | eager entries => exact (f.entries_eager hb).symm
  | blocked ps =>
    have hok := f.valid.partitions ps hb
    have hall : ((ps.flatMap index).takeWhile fun e =>
        !(none : Option CompositeKey).any (· ≤ e.firstKey)) = ps.flatMap index :=
      takeWhile_eq_self_iff.2 fun _ _ => rfl
    simp only [blocks_eq (BlockWalk.ok_of_partitions hok), BlockWalk.remaining_fromStart, hall]
    rw [← flatMap_def, BlockWalk.flatMap_index, f.entries_blocked hb]

theorem window_of_disjoint (h : f.overlapsRange realmId start stop = false) :
    f.entries.filter (fun e => inWindow realmId start stop e.1) = [] := by
  refine filter_eq_nil_iff.2 fun e he hin => ?_
  obtain ⟨hge, hlt⟩ := inWindow_iff.1 hin
  obtain ⟨r, hr, hlo, hhi⟩ := f.valid.range e he
  rw [overlapsRange, Option.mem_def.1 hr] at h
  simp [lt_of_le_of_lt hlo hlt, le_trans hge hhi] at h

/-- The blocks from the sought one up to the end of the window hold all of its keys. -/
theorem window_of_seek (start stop) {ps} (hb : f.body = .blocked ps) :
    ((seek ps ⟨realmId, start⟩).blocks (some ⟨realmId, stop⟩)).flatten.filter
      (fun e => inWindow realmId start stop e.1) =
    f.entries.filter fun e => inWindow realmId start stop e.1 := by
  have hent : f.entries = ps.flatMap Partition.entries := f.entries_blocked hb
  have hsort : KeySorted (ps.flatMap Partition.entries) := hent ▸ f.sorted
  obtain ⟨hsound, hseek⟩ := seek_spec (f.valid.partitions ps hb) hsort _
  have huntil := filter_until _ hsound.filed hsound.sorted
    (p := fun e => inWindow realmId start stop e.1) fun e he => (inWindow_iff.1 he).2
  -- the window asks for keys from `start` on, so the two filters may be taken one after the other
  have hboth : ∀ l : List Entry, l.filter (fun e => inWindow realmId start stop e.1) =
      (l.filter fun e => !decide (e.1 < (⟨realmId, start⟩ : CompositeKey))).filter
        fun e => inWindow realmId start stop e.1 := by
    intro l
    rw [filter_filter]
    refine filter_congr fun e _ => ?_
    rw [inWindow_eq]
    cases decide (e.1 < (⟨realmId, start⟩ : CompositeKey)) <;> simp
  rw [blocks_eq hsound.ok, ← flatMap_def]
  simp only [Option.any_some]
  rw [huntil, hent, hboth, ← BlockWalk.pending, hseek, ← hboth]

theorem rangeScanInner_eq {T : Type} (project : Option Bytes → T) (h : start ≤ stop) :
    f.rangeScanInner project realmId start stop =
      .ok ((window realmId start stop f.entries).map fun e => (e.1, project e.2.live)) := by
  rw [rangeScanInner, if_neg (not_lt.2 h), window, map_map]
  split
  · next hno =>
    rw [window_of_disjoint f _ (by simpa using hno)]
    rfl
  · cases hb : f.body with
    | eager entries =>
      have hent : f.entries = entries := f.entries_eager hb
      have hs : KeySorted entries := hent ▸ f.sorted
      dsimp only
      rw [slice_lowerBound hs (realm_le _ h), hent]
      simp only [inWindow_eq]
      rfl
    | blocked ps =>
      have hwin := window_of_seek f realmId start stop hb
      simp only [inWindow_eq] at hwin ⊢
      rw [hwin]
      rfl

end Sst

/-! ## Key cursors -/

/-- `SstKeyCursor`. Of the current block, the entries from the current one on. -/
inductive SstKeyCursor
  | done
  | eager (entries : List Entry)
  | blocked (walk : BlockWalk) (stop : CompositeKey) (block : Option (List Entry))

/-- The loop of `settle`: past the end of an exhausted block into the next one, up to the end of the
window. -/
def settleLoop (stop : CompositeKey) :
    Nat → BlockWalk → Option (List Entry) → BlockWalk × Option (List Entry)
  | _, w, none => (w, none)
  | _, w, some (e :: rest) => (w, if stop ≤ e.1 then none else some (e :: rest))
  | 0, w, some [] => (w, none)
  | fuel + 1, w, some [] =>
    settleLoop stop fuel (w.nextBlock (some stop)).2 (w.nextBlock (some stop)).1

/-- `settle`; every turn of its loop takes a block from the walk. -/
def settle (w : BlockWalk) (stop : CompositeKey) (block : Option (List Entry)) : SstKeyCursor :=
  .blocked (settleLoop stop (w.remaining.length + 1) w block).1 stop
    (settleLoop stop (w.remaining.length + 1) w block).2

namespace SstKeyCursor

def entry : SstKeyCursor → Option Entry
  | .done => none
  | .eager entries => entries.head?
  | .blocked _ _ block => block.bind head?

def advance : SstKeyCursor → SstKeyCursor
  | .done => .done
  | .eager entries => .eager entries.tail
  | .blocked w stop block => settle w stop (block.map tail)

/-- The cursor of a valid file stands at an entry of its window, or behind the last one. -/
inductive Ok : SstKeyCursor → Prop
  | done : Ok .done
  | eager {entries : List Entry} {realmId} : KeySorted entries →
      (∀ e ∈ entries, e.1.realmId = realmId) → Ok (.eager entries)
  | exhausted {w stop} : Ok (.blocked w stop none)
  | blocked {w : BlockWalk} {stop : CompositeKey} {e : Entry} {rest} : w.Sound →
      KeySorted (e :: rest ++ w.pending) → (∀ a ∈ e :: rest ++ w.pending, ⟨stop.realmId, []⟩ ≤ a.1) →
      e.1 < stop → Ok (.blocked w stop (some (e :: rest)))

/-- The entries of the window from the cursor on. -/
def pending : SstKeyCursor → List Entry
  | .done => []
  | .eager entries => entries
  | .blocked _ _ none => []
  | .blocked w stop (some block) => (block ++ w.pending).filter fun e => e.1 < stop

end SstKeyCursor

namespace BlockWalk

variable {w : BlockWalk} {stop : CompositeKey}

theorem Sound.nextBlock (hw : w.Sound) (stop) :
    ((w.nextBlock (some stop)).1 = none ∧ w.pending.filter (fun e => e.1 < stop) = []) ∨
    ∃ e rest, (w.nextBlock (some stop)).1 = some (e :: rest) ∧ e.1 < stop ∧
      (w.nextBlock (some stop)).2.Sound ∧ (w.nextBlock (some stop)).2.remaining = w.remaining.tail ∧
      w.pending = e :: rest ++ (w.nextBlock (some stop)).2.pending := by
  have hspec := nextBlock_spec (some stop) hw.ok
  have hfiled := hw.filed
  have hsort := hw.sorted
  unfold pending at hsort ⊢
  cases hr : w.remaining with
  | nil =>
    rw [hr] at hspec
    exact .inl ⟨hspec, rfl⟩
  | cons i is =>
    rw [hr] at hspec hfiled hsort
    dsimp only at hspec
    by_cases hstop : stop ≤ i.firstKey
    · rw [if_pos (by simpa using hstop)] at hspec
      refine .inl ⟨hspec, filter_eq_nil_iff.2 fun e he => ?_⟩
      obtain ⟨j, hj, hej⟩ := mem_flatMap.1 he
      have hfirst : i.firstKey ≤ j.firstKey := by
        rcases mem_cons.1 hj with rfl | hj'
        · exact le_rfl
        · obtain ⟨a, rest, hblock, hkey⟩ := hfiled i mem_cons_self
          have hlt := (pairwise_cons.1 (hfiled.keys hsort)).1 j hj' a
            (by rw [hblock]; exact mem_cons_self)
          exact hkey ▸ le_of_lt hlt
      have hge := le_trans (le_trans hstop hfirst) (hfiled.key_le hsort hj e hej)
      simpa using hge
    · rw [if_neg (by simpa using hstop)] at hspec
      obtain ⟨hblock, hrem, hok⟩ := hspec
      obtain ⟨a, rest, ha, hkey⟩ := hfiled i mem_cons_self
      refine .inr ⟨a, rest, by rw [hblock, ha], hkey ▸ not_le.1 hstop, ⟨hok, ?_, ?_⟩, hrem, ?_⟩
      · rw [hrem]
        exact fun r hr => hfiled r (mem_cons_of_mem _ hr)
      · rw [pending, hrem]
        exact hsort.sublist (sublist_append_right _ _)
      · rw [flatMap_cons, ha, hrem]

end BlockWalk

/-- `settle` stands at the first entry of the window, and skips nothing of it. -/
theorem settle_spec {w} (stop : CompositeKey) (block : List Entry) (hw : w.Sound)
    (hs : KeySorted (block ++ w.pending))
    (hr : ∀ a ∈ block ++ w.pending, ⟨stop.realmId, []⟩ ≤ a.1) :
    (settle w stop (some block)).Ok ∧
    (settle w stop (some block)).pending = (block ++ w.pending).filter fun e => e.1 < stop := by
  unfold settle
  cases block with
  | cons e rest =>
    rw [settleLoop]
    by_cases hstop : stop ≤ e.1
    · rw [if_pos hstop]
      refine ⟨.exhausted, (filter_eq_nil_iff.2 fun a ha => ?_).symm⟩
      simpa using le_trans hstop (hs.head_le a ha)
    · rw [if_neg hstop]
      exact ⟨.blocked hw hs hr (not_le.1 hstop), rfl⟩
  | nil =>
    rw [settleLoop]
    rw [nil_append] at hs hr ⊢
    rcases hw.nextBlock stop with ⟨hnone, hempty⟩ | ⟨e, rest, hsome, hlt, hw', -, hpend⟩
    · rw [hnone, hempty]
      cases w.remaining.length <;> exact ⟨.exhausted, rfl⟩
    · rw [hsome]
      rw [hpend] at hs hr ⊢
      have hin : ¬stop ≤ e.1 := not_le.2 hlt
      · rw [settleLoop, if_neg hin]
        exact ⟨.blocked hw' hs hr hlt, rfl⟩

namespace SstKeyCursor

variable {c : SstKeyCursor}

theorem Ok.entry_eq (h : c.Ok) : c.entry = c.pending.head? := by
  cases h with
  | done | eager | exhausted => rfl
  | @blocked w stop e rest _ _ _ hlt =>
    show some e = ((e :: (rest ++ w.pending)).filter fun a => decide (a.1 < stop)).head?
    rw [filter_cons_of_pos (by simpa using hlt)]
    rfl

theorem Ok.advance (h : c.Ok) : c.advance.Ok ∧ c.advance.pending = c.pending.tail := by
  cases h with
  | done => exact ⟨.done, rfl⟩
  | eager hs hr =>
    exact ⟨.eager (hs.sublist (tail_sublist _)) fun e he => hr e (mem_of_mem_tail he), rfl⟩
  | exhausted =>
    rename_i w stop
    cases w.remaining.length <;> exact ⟨.exhausted, rfl⟩
  | @blocked w stop e rest hw hs hr hlt =>
    obtain ⟨hok, hpend⟩ := settle_spec stop rest hw (keySorted_cons.1 hs).2
      fun a ha => hr a (mem_cons_of_mem _ ha)
    refine ⟨hok, hpend.trans ?_⟩
    show _ = ((e :: (rest ++ w.pending)).filter fun a => decide (a.1 < stop)).tail
    rw [filter_cons_of_pos (by simpa using hlt)]
    rfl

theorem keySorted_of_realm {l : List Entry} (realmId) (hs : KeySorted l)
    (hr : ∀ e ∈ l, e.1.realmId = realmId) : KeySorted (l.map fun e => (e.1.key, e.2)) := by
  refine pairwise_map.2 (hs.imp_of_mem fun {a b} ha hb hab => ?_)
  rcases CompositeKey.lt_iff.1 hab with hlt | ⟨-, hlt⟩
  · rw [hr a ha, hr b hb] at hlt
    exact absurd hlt (lt_irrefl _)
  · exact hlt

theorem Ok.sorted (h : c.Ok) : KeySorted (c.pending.map fun e => (e.1.key, e.2)) := by
  cases h with
  | done | exhausted => exact keySorted_nil
  | eager hs hr => exact keySorted_of_realm _ hs hr
  | @blocked w stop e rest hw hs hr hlt =>
    refine keySorted_of_realm stop.realmId (hs.sublist filter_sublist) fun a ha => ?_
    obtain ⟨hmem, hstop⟩ := mem_filter.1 ha
    have hin : inWindow stop.realmId [] stop.key a.1 = true :=
      inWindow_iff.2 ⟨hr a hmem, of_decide_eq_true hstop⟩
    simp only [inWindow, Bool.and_eq_true, decide_eq_true_eq] at hin
    exact hin.1.1

end SstKeyCursor

abbrev SstCursor := { c : SstKeyCursor // c.Ok }

instance : KeyCursor SstCursor where
  current c := c.1.entry.map fun e => (e.1.key, e.2.live.isSome)
  value c := c.1.entry.bind fun e => e.2.live
  advance c := ⟨c.1.advance, c.2.advance.1⟩

instance : LawfulKeyCursor SstCursor where
  remaining c := c.1.pending.map fun e => (e.1.key, e.2)
  sorted c := c.2.sorted
  current_eq c := by
    show c.1.entry.map _ = _
    rw [c.2.entry_eq, head?_map, Option.map_map]
    rfl
  value_eq c := by
    show c.1.entry.bind _ = _
    rw [c.2.entry_eq, head?_map]
    cases c.1.pending.head? <;> rfl
  remaining_advance c := by
    show c.1.advance.pending.map _ = _
    rw [c.2.advance.2, map_tail]

/-- The body of `cursor`, behind its check of the window. -/
def SstFile.cursorInOrder (f : SstFile) (realmId : RealmId) (start stop : Bytes) : SstKeyCursor :=
  if !f.overlapsRange realmId start stop then .done
  else
    let s : CompositeKey := ⟨realmId, start⟩
    let e : CompositeKey := ⟨realmId, stop⟩
    match f.body with
    | .eager entries =>
      .eager ((entries.take (lowerBound entries e)).drop (lowerBound entries s))
    | .blocked partitions =>
      let first := (seek partitions s).nextBlock (some e)
      settle first.2 e (first.1.map fun block => block.drop (lowerBound block s))

namespace Sst

variable (f : Sst crc32) (realmId : RealmId) {start stop : Bytes}

theorem realm_of_inWindow {k} (h : inWindow realmId start stop k = true) : k.realmId = realmId := by
  simp only [inWindow, Bool.and_eq_true, decide_eq_true_eq] at h
  exact h.1.1

theorem blocked_cursor {ps} (hb : f.body = .blocked ps) :
    let first := (seek ps ⟨realmId, start⟩).nextBlock (some ⟨realmId, stop⟩)
    let c := settle first.2 ⟨realmId, stop⟩
      (first.1.map fun block => block.drop (lowerBound block ⟨realmId, start⟩))
    c.Ok ∧ c.pending = f.entries.filter fun e => inWindow realmId start stop e.1 := by
  intro first c
  have hent : f.entries = ps.flatMap Partition.entries := f.entries_blocked hb
  have hsort : KeySorted (ps.flatMap Partition.entries) := hent ▸ f.sorted
  have hok := f.valid.partitions ps hb
  obtain ⟨hsound, hseek⟩ := seek_spec hok hsort _
  have hwin : (f.entries.filter fun e => inWindow realmId start stop e.1) =
      ((seek ps ⟨realmId, start⟩).pending.filter fun e =>
        !decide (e.1 < (⟨realmId, start⟩ : CompositeKey))).filter
          fun e => decide (e.1 < (⟨realmId, stop⟩ : CompositeKey)) := by
    rw [hseek, hent, filter_filter]
    refine filter_congr fun e _ => ?_
    rw [inWindow_eq, Bool.and_comm]
  rcases hsound.nextBlock _ with ⟨hnone, hempty⟩ | ⟨e, rest, hsome, -, hw, hrem, hpend⟩
  · have hc : c = .blocked first.2 ⟨realmId, stop⟩ none := by
      show settle first.2 ⟨realmId, stop⟩ (first.1.map _) = _
      rw [hnone]
      cases first.2.remaining.length <;> rfl
    rw [hc, hwin, filter_comm, hempty]
    exact ⟨.exhausted, rfl⟩
  · -- behind the first block of the walk every key lies behind `start`
    have htail : ∀ a ∈ first.2.pending, ⟨realmId, start⟩ ≤ a.1 := by
      intro a ha
      obtain ⟨i, hi, hai⟩ := mem_flatMap.1 ha
      have hlt := BlockWalk.seek_tail hok hsort _ i (hrem ▸ hi)
      exact le_of_lt (lt_of_lt_of_le hlt (hw.filed.key_le hw.sorted hi a hai))
    have hblock : KeySorted (e :: rest) := by
      have hs := hsound.sorted
      rw [hpend] at hs
      exact hs.sublist (sublist_append_left _ _)
    have hall : (e :: rest).drop (lowerBound (e :: rest) ⟨realmId, start⟩) ++ first.2.pending =
        (seek ps ⟨realmId, start⟩).pending.filter fun a =>
          !decide (a.1 < (⟨realmId, start⟩ : CompositeKey)) := by
      rw [drop_lowerBound hblock, hpend, filter_append]
      congr 1
      exact (filter_eq_self.2 (by simpa using htail)).symm
    have hc : c = settle first.2 ⟨realmId, stop⟩
        (some ((e :: rest).drop (lowerBound (e :: rest) ⟨realmId, start⟩))) := by
      show settle first.2 ⟨realmId, stop⟩ (first.1.map _) = _
      rw [hsome]
      rfl
    obtain ⟨hcok, hcp⟩ := settle_spec ⟨realmId, stop⟩ _ hw
      (by rw [hall]; exact hsound.sorted.sublist filter_sublist)
      (by
        rw [hall]
        intro a ha
        have hge : ⟨realmId, start⟩ ≤ a.1 := by simpa using (mem_filter.1 ha).2
        exact le_trans (realm_start_le _ _) hge)
    rw [hc, hwin]
    exact ⟨hcok, hcp.trans (by rw [hall])⟩

theorem cursorInOrder_spec (h : start ≤ stop) : (f.cursorInOrder realmId start stop).Ok ∧
    (f.cursorInOrder realmId start stop).pending =
      f.entries.filter fun e => inWindow realmId start stop e.1 := by
  rw [cursorInOrder]
  split
  · next hno =>
    rw [window_of_disjoint f _ (by simpa using hno)]
    exact ⟨.done, rfl⟩
  · cases hb : f.body with
    | eager entries =>
      have hent : f.entries = entries := f.entries_eager hb
      have hslice := slice_lowerBound (hent ▸ f.sorted) (realm_le realmId h)
      dsimp only
      rw [hslice, hent]
      simp only [← inWindow_eq]
      exact ⟨.eager ((hent ▸ f.sorted).sublist filter_sublist) fun e he =>
        realm_of_inWindow _ (mem_filter.1 he).2, rfl⟩
    | blocked ps => exact f.blocked_cursor _ hb

/-- `cursor`, behind `key_cursor` and `uncached_cursor`. -/
def cursor (start stop : Bytes) : Except StorageError SstCursor :=
  if h : stop < start then .error .invalidRange
  else .ok ⟨f.cursorInOrder realmId start stop, (f.cursorInOrder_spec realmId (not_lt.1 h)).1⟩

theorem remaining_cursor (h : start ≤ stop) : ∃ c, f.cursor realmId start stop = .ok c ∧
      LawfulKeyCursor.remaining c = window realmId start stop f.entries := by
  refine ⟨_, dif_neg (not_lt.2 h), ?_⟩
  show (f.cursorInOrder realmId start stop).pending.map _ = _
  rw [(f.cursorInOrder_spec _ h).2]
  rfl

/-- A file gives back what it was written from, whichever way it is read: by key, as a whole, and
by a scan or a cursor over any window. -/
theorem written_file_reads_back {entries} {h : KeySorted entries} {f} (hok : write crc32 entries h = .ok f) :
    (∀ realmId key, f.get crc32 realmId key = valueAt entries ⟨realmId, key⟩) ∧ f.iterAll = entries ∧
      ∀ realmId start stop, start ≤ stop →
        f.rangeScan realmId start stop = .ok (window realmId start stop entries) ∧
        ∃ c, f.cursor realmId start stop = .ok c ∧
          LawfulKeyCursor.remaining c = window realmId start stop entries := by
  obtain rfl := entries_write hok
  refine ⟨f.get_eq, f.iterAll_eq, fun realmId start stop hle => ⟨?_, f.remaining_cursor realmId hle⟩⟩
  rw [rangeScan, f.rangeScanInner_eq realmId _ hle]
  refine congrArg _ ((map_congr_left fun e _ => ?_).trans (map_id _))
  obtain ⟨k, v⟩ := e
  cases v <;> rfl

/-- A value and a deletion. -/
def twoEntries : List Entry := [(⟨.nil, [3]⟩, .data [2]), (⟨.nil, [5]⟩, .tombstone)]

theorem keySorted_twoEntries : KeySorted twoEntries := pairwise_pair.2 (by decide)

theorem written_file_reads_back_two : ∃ f, write (fun _ => 0) twoEntries keySorted_twoEntries = .ok f ∧
    f.get (fun _ => 0) .nil [3] = some (.data [2]) ∧ f.get (fun _ => 0) .nil [5] = some .tombstone ∧
      f.iterAll = twoEntries := by
  obtain ⟨f, hf⟩ := exists_ok_of_isOk (x := write (fun _ => 0) twoEntries keySorted_twoEntries)
    (by decide +kernel)
  obtain ⟨hget, hall, -⟩ := written_file_reads_back hf
  exact ⟨f, hf, hget .nil [3], hget .nil [5], hall⟩

end Sst

end Hearth.Storage
