import Hearth.Base.Sorted
import Hearth.Wal.Record

/-!
# The memtable

The sorted in-memory map of recent writes, with the map that a flush has parked.
A SkipMap is a tree map here; the write lock makes each function one step.

Results:
1. `getEntry_eq`, `iterRealmRangeWith_spec`: point and range reads look every key
   up in the active map first and then in the parked one.
2. `park_getEntry`, `reabsorb_getEntry`: neither the start of a flush nor its
   failure changes a lookup.
3. `applyWalEntry_data`: replaying a record inserts its writes in order.
-/

namespace Hearth.Storage

open Base Wal List

/-! ## Keys and values -/

/-- Bytes are ordered as numbers, byte strings lexicographically. -/
instance linearOrderByte : LinearOrder UInt8 where
  le_refl := UInt8.le_refl
  le_trans _ _ _ := UInt8.le_trans
  le_antisymm _ _ := UInt8.le_antisymm
  le_total := UInt8.le_total
  lt_iff_le_not_ge a b := by
    rw [UInt8.not_le]
    exact ⟨fun h => ⟨UInt8.le_of_lt h, h⟩, fun h => h.2⟩
  toDecidableLE := inferInstance
  toDecidableEq := inferInstance
  toDecidableLT := inferInstance

/-- Composite key combining realm identity with a data key. -/
structure CompositeKey where
  realmId : RealmId
  key : Bytes
  deriving Repr

/-- Realm first, then key: the order of the fields. -/
def CompositeKey.parts (k : CompositeKey) : Lex (Bytes × Bytes) := toLex (k.realmId.uuid, k.key)

theorem CompositeKey.parts_injective : Function.Injective parts := by
  rintro ⟨⟨u, hu⟩, k⟩ ⟨⟨u', hu'⟩, k'⟩ h
  cases toLex.injective h
  rfl

instance : LinearOrder CompositeKey :=
  .lift' CompositeKey.parts CompositeKey.parts_injective

instance transCmpBytes : Std.TransCmp (@compare Bytes LinearOrder.toOrd) := inferInstance

instance transCmpKey : Std.TransCmp (compare : CompositeKey → CompositeKey → Ordering) := inferInstance

theorem CompositeKey.lt_iff {a b : CompositeKey} :
    a < b ↔ a.realmId.uuid < b.realmId.uuid ∨ a.realmId = b.realmId ∧ a.key < b.key := by
  have h : a < b ↔ a.parts < b.parts := .rfl
  rw [h, parts, parts, Prod.Lex.toLex_lt_toLex]
  refine or_congr .rfl (and_congr ?_ .rfl)
  obtain ⟨⟨u, hu⟩, -⟩ := a
  obtain ⟨⟨u', hu'⟩, -⟩ := b
  exact ⟨fun h => by cases h; rfl, fun h => by cases h; rfl⟩

/-- Value stored in the memtable: data, or a deletion marker. -/
inductive MemtableValue
  | data (v : Bytes)
  | tombstone
  deriving DecidableEq, Repr

/-- What a reader sees of a stored value. -/
def MemtableValue.live : MemtableValue → Option Bytes
  | .data v => some v
  | .tombstone => none

abbrev Entry := CompositeKey × MemtableValue

abbrev MemtableMap := Std.ExtTreeMap CompositeKey MemtableValue

/-- The active map and the parked one. The sizes that ask for a flush are left out: a flush may
begin at any time. -/
structure Memtable where
  data : MemtableMap
  flushing : Option MemtableMap

/-! ## Windows -/

/-- The key lies in the realm's window `[start, stop)`. -/
def inWindow (realmId : RealmId) (start stop : Bytes) (k : CompositeKey) : Bool :=
  k.realmId = realmId && start ≤ k.key && k.key < stop

/-- The entries of the window, under their raw keys. -/
def window {V : Type} (realmId : RealmId) (start stop : Bytes) (l : List (CompositeKey × V)) :
    List (Bytes × V) :=
  (l.filter fun e => inWindow realmId start stop e.1).map fun e => (e.1.key, e.2)

section

variable {V : Type} {realmId : RealmId} {start stop : Bytes} {l : List (CompositeKey × V)}

theorem inWindow_iff {k : CompositeKey} : inWindow realmId start stop k = true ↔
    ⟨realmId, start⟩ ≤ k ∧ k < ⟨realmId, stop⟩ := by
  rw [← not_lt, CompositeKey.lt_iff, CompositeKey.lt_iff]
  simp only [inWindow, Bool.and_eq_true, decide_eq_true_eq, not_or, not_and, not_lt]
  constructor
  · rintro ⟨⟨hr, hs⟩, he⟩
    exact ⟨⟨le_of_eq (by rw [hr]), fun _ => hs⟩, .inr ⟨hr, he⟩⟩
  · rintro ⟨⟨hr, hs⟩, hlt | ⟨hr', he⟩⟩
    · exact absurd hlt (not_lt.2 hr)
    · exact ⟨⟨hr', hs hr'⟩, he⟩

theorem window_sorted (h : KeySorted l) : KeySorted (window realmId start stop l) := by
  refine pairwise_map.2 (.imp_of_mem (fun {a b} ha hb hab => ?_) (h.sublist filter_sublist))
  have hra := (mem_filter.1 ha).2
  have hrb := (mem_filter.1 hb).2
  simp only [inWindow, Bool.and_eq_true, decide_eq_true_eq] at hra hrb
  rcases CompositeKey.lt_iff.1 hab with hlt | ⟨-, hlt⟩
  · rw [hra.1.1, hrb.1.1] at hlt
    exact absurd hlt (lt_irrefl _)
  · exact hlt

theorem valueAt_window (k) : valueAt (window realmId start stop l) k =
    if start ≤ k ∧ k < stop then valueAt l ⟨realmId, k⟩ else none := by
  induction l with
  | nil => exact (ite_self _).symm
  | cons a l ih =>
    unfold window at ih ⊢
    rw [filter_cons, valueAt_cons]
    by_cases hk : (⟨realmId, k⟩ : CompositeKey) = a.1
    · rw [if_pos hk, ← hk]
      by_cases hin : start ≤ k ∧ k < stop
      · rw [if_pos hin, if_pos (by simp [inWindow, hin]), map_cons, valueAt_cons, ← hk, if_pos rfl]
      · rw [if_neg hin] at ih ⊢
        rw [if_neg (by simpa [inWindow] using hin), ih]
    · rw [if_neg hk, ← ih]
      split
      · next hin =>
        rw [map_cons, valueAt_cons, if_neg]
        intro heq
        apply hk
        simp only [inWindow, Bool.and_eq_true, decide_eq_true_eq] at hin
        rw [← hin.1.1, heq]
      · rfl

/-- A walk from the first key at or after `start`, for as long as the keys lie before the end. -/
theorem window_eq_cut (h : KeySorted l) {q : CompositeKey → Bool}
    (hq : ∀ k, ⟨realmId, start⟩ ≤ k → (q k = true ↔ k < ⟨realmId, stop⟩)) :
    (l.dropWhile fun e => e.1 < (⟨realmId, start⟩ : CompositeKey)).takeWhile (fun e => q e.1) =
    l.filter fun e => inWindow realmId start stop e.1 := by
  have hfrom : l.dropWhile (fun e => e.1 < (⟨realmId, start⟩ : CompositeKey)) =
      l.filter fun e => !decide (e.1 < (⟨realmId, start⟩ : CompositeKey)) :=
    dropWhile_eq_filter (h.cut
      fun a b hab hb => decide_eq_true (lt_trans hab (of_decide_eq_true hb)))
  have hge : ∀ e ∈ l.filter (fun e => !decide (e.1 < (⟨realmId, start⟩ : CompositeKey))),
      ⟨realmId, start⟩ ≤ e.1 := fun e he => by
    simpa using (mem_filter.1 he).2
  rw [hfrom, takeWhile_eq_filter, filter_filter]
  · refine filter_congr fun e _ => ?_
    rw [Bool.eq_iff_iff, inWindow_iff, Bool.and_eq_true, Bool.not_eq_true', decide_eq_false_iff_not,
      not_lt, and_comm]
    exact and_congr_right (hq e.1)
  · refine (h.sublist filter_sublist).imp_of_mem fun {a b} ha hb hab hqb => ?_
    exact (hq _ (hge a ha)).2 (lt_trans hab ((hq _ (hge b hb)).1 hqb))

end

namespace Memtable

/-! ## Writes -/

def new : Memtable := ⟨∅, none⟩

variable (mt : Memtable)

/-- The body `put` and `delete` share: insert one value under the write lock. -/
def insert (k : CompositeKey) (v : MemtableValue) : Memtable := { mt with data := mt.data.insert k v }

def put (realmId : RealmId) (key value : Bytes) : Memtable := mt.insert ⟨realmId, key⟩ (.data value)

def delete (realmId : RealmId) (key : Bytes) : Memtable := mt.insert ⟨realmId, key⟩ .tombstone

def puts (realmId : RealmId) (entries : List (Bytes × Bytes)) : List Entry :=
  entries.map fun e => (⟨realmId, e.1⟩, .data e.2)

def putBatch (realmId : RealmId) (entries : List (Bytes × Bytes)) : Memtable :=
  { mt with data := insertAll mt.data (puts realmId entries) }

/-! ## Point reads and the flush -/

/-- `get_entry`: the active map first, then the parked one. -/
def getEntry (realmId : RealmId) (key : Bytes) : Option MemtableValue :=
  (mt.data[(⟨realmId, key⟩ : CompositeKey)]?).or
    (mt.flushing.bind fun parked => parked[(⟨realmId, key⟩ : CompositeKey)]?)

/-- The swap of `flush_streaming`: park the full map and install an empty one. -/
def park : Memtable := ⟨∅, some mt.data⟩

/-- The end of `flush_streaming` after the file has been written and registered. -/
def dropParked : Memtable := { mt with flushing := none }

/-- The loop of `reabsorb`. -/
def reabsorbLoop : List Entry → MemtableMap → MemtableMap
  | [], active => active
  | (k, v) :: parked, active => reabsorbLoop parked (if (active[k]?).isNone then active.insert k v else active)

/-- `reabsorb` and the clearing of the parked slot, after a failed flush. -/
def reabsorb : Memtable :=
  match mt.flushing with
  | none => mt
  | some parked => ⟨reabsorbLoop parked.toList mt.data, none⟩

/-- The maps, newest first. -/
def layers : List (List Entry) :=
  mt.data.toList :: (mt.flushing.elim [] fun parked => [parked.toList])

theorem layers_sorted : ∀ l ∈ mt.layers, KeySorted l := by
  intro l hl
  rcases mem_cons.1 hl with rfl | hl
  · exact keySorted_toList _
  · cases hp : mt.flushing with
    | none =>
      rw [hp] at hl
      cases hl
    | some parked =>
      rw [hp] at hl
      rw [mem_singleton.1 hl]
      exact keySorted_toList _

theorem getEntry_eq (realmId key) : mt.getEntry realmId key = layered mt.layers ⟨realmId, key⟩ := by
  unfold getEntry layers
  rw [layered_cons, valueAt_toList]
  cases mt.flushing with
  | none => rfl
  | some parked =>
    simp [layered_cons, layered_nil, valueAt_toList]

theorem reabsorbLoop_map (parked active k) :
    (reabsorbLoop parked active)[k]? = (active[k]?).or (valueAt parked k) := by
  induction parked generalizing active with
  | nil => exact Option.or_none.symm
  | cons e parked ih =>
    rw [reabsorbLoop, valueAt_cons, ih]
    by_cases hk : k = e.1
    · split
      · next hnone =>
        rw [Base.getElem?_insert, if_pos hk, hk, Option.isNone_iff_eq_none.1 hnone]
        rfl
      · next hsome =>
        obtain ⟨v, hv⟩ := Option.ne_none_iff_exists'.1 fun h => hsome (Option.isNone_iff_eq_none.2 h)
        rw [hk, hv]
        rfl
    · split
      · rw [Base.getElem?_insert, if_neg hk]
      · rfl

/-- A failed flush loses nothing: every key is looked up as before. -/
theorem reabsorb_getEntry (realmId key) :
    mt.reabsorb.getEntry realmId key = mt.getEntry realmId key := by
  unfold reabsorb getEntry
  cases hp : mt.flushing with
  | none => rw [hp]
  | some parked =>
    simp only [Option.bind_none, Option.or_none, Option.bind_some]
    rw [reabsorbLoop_map, valueAt_toList]

theorem park_getEntry {mt : Memtable} (h : mt.flushing = none) (realmId key) :
    mt.park.getEntry realmId key = mt.getEntry realmId key := by
  unfold park getEntry
  rw [h]
  simp

/-! ## Range reads -/

/-- `entries_from`: the entries from the first key at or after `start` on. -/
def entriesFrom (map : MemtableMap) (start : CompositeKey) : List Entry :=
  map.toList.dropWhile fun e => e.1 < start

theorem entriesFrom_eq (map start) :
    entriesFrom map start = map.toList.filter fun e => !decide (e.1 < start) :=
  dropWhile_eq_filter ((keySorted_toList map).cut
    fun _ _ hab hb => decide_eq_true (lt_trans hab (of_decide_eq_true hb)))

section

variable {V : Type} (project : MemtableValue → V)

/-- The body `scan_realm_range` and `scan_realm_range_keys` share. -/
def scanRealmRangeWith (map : MemtableMap) (realmId : RealmId) (start stop : Bytes) :
    List (Bytes × V) :=
  ((entriesFrom map ⟨realmId, start⟩).takeWhile fun e =>
    e.1.realmId = realmId && e.1.key < stop).map fun e => (e.1.key, project e.2)

/-- The body `iter_realm_range` and `iter_realm_range_keys` share: with a flush in progress the
parked map is merged under the active one. -/
def iterRealmRangeWith (mt : Memtable) (realmId : RealmId) (start stop : Bytes) : List (Bytes × V) :=
  match mt.flushing with
  | none => scanRealmRangeWith project mt.data realmId start stop
  | some parked =>
    (insertAll (insertAll ∅ (scanRealmRangeWith project parked realmId start stop))
      (scanRealmRangeWith project mt.data realmId start stop)).toList

theorem scanRealmRangeWith_eq (map realmId start stop) :
    scanRealmRangeWith project map realmId start stop =
      window realmId start stop (map.toList.map fun e => (e.1, project e.2)) := by
  have hwalk : (entriesFrom map ⟨realmId, start⟩).takeWhile
      (fun e => e.1.realmId = realmId && e.1.key < stop) =
      map.toList.filter fun e => inWindow realmId start stop e.1 := by
    refine window_eq_cut (q := fun k => k.realmId = realmId && k.key < stop) (keySorted_toList map)
      fun k hk => ?_
    have hrealm : ¬k.realmId.uuid < realmId.uuid := fun hlt =>
      not_lt.2 hk (.lt_iff.2 (.inl hlt))
    rw [CompositeKey.lt_iff]
    simp [hrealm]
  rw [scanRealmRangeWith, hwalk, window, filter_map, map_map]
  rfl

theorem iterRealmRangeWith_spec (mt : Memtable) (realmId start stop) :
    KeySorted (iterRealmRangeWith project mt realmId start stop) ∧
    ∀ k, valueAt (iterRealmRangeWith project mt realmId start stop) k =
      if start ≤ k ∧ k < stop then (layered mt.layers ⟨realmId, k⟩).map project else none := by
  have hscan : ∀ map : MemtableMap, KeySorted (scanRealmRangeWith project map realmId start stop) ∧
      ∀ k, valueAt (scanRealmRangeWith project map realmId start stop) k =
        if start ≤ k ∧ k < stop then (valueAt map.toList ⟨realmId, k⟩).map project else none := by
    intro map
    rw [scanRealmRangeWith_eq]
    refine ⟨window_sorted (pairwise_map.2 (keySorted_toList map)), fun k => ?_⟩
    rw [valueAt_window, valueAt_map]
  obtain ⟨hsort, hval⟩ := hscan _
  unfold iterRealmRangeWith layers
  cases mt.flushing with
  | none =>
    refine ⟨hsort, fun k => ?_⟩
    rw [hval, Option.elim_none, layered_cons, layered_nil, Option.or_none]
  | some parked =>
    obtain ⟨hsort', hval'⟩ := hscan _
    refine ⟨keySorted_toList _, fun k => ?_⟩
    rw [valueAt_toList, getElem?_insertAll, getElem?_insertAll, hsort.valueAt_reverse,
      hsort'.valueAt_reverse, Std.ExtTreeMap.getElem?_empty, Option.or_none, hval, hval',
      Option.elim_some, layered_cons, layered_cons, layered_nil, Option.or_none]
    split
    · exact Option.map_or.symm
    · rfl

end

def iterRealmRange : RealmId → Bytes → Bytes → List (Bytes × MemtableValue) :=
  iterRealmRangeWith id mt

def iterRealmRangeKeys : RealmId → Bytes → Bytes → List (Bytes × Bool) :=
  iterRealmRangeWith (fun v => v.live.isSome) mt

/-! ## Replay -/

def applyRun (realmId : RealmId) (putRun : List (Bytes × Bytes)) : Memtable :=
  if putRun.isEmpty then mt else mt.putBatch realmId putRun

/-- The loop of `apply_wal_entry` over the entries of a batch, with the pending run of puts. -/
def applyBatchLoop (realmId : RealmId) :
    List BatchEntry → Memtable → List (Bytes × Bytes) → Except StorageError Memtable
  | [], mt, putRun => .ok (mt.applyRun realmId putRun)
  | sub :: subs, mt, putRun =>
    match sub.operation with
    | .put => applyBatchLoop realmId subs mt (putRun ++ [(sub.key, sub.value)])
    | .delete => applyBatchLoop realmId subs ((mt.applyRun realmId putRun).delete realmId sub.key) []
    | .batch => .error (.deserializationFailed "nested batch in WAL replay")

/-- `apply_wal_entry`. -/
def applyWalEntry (entry : WalEntry) : Except StorageError Memtable :=
  match entry.operation with
  | .put => .ok (mt.put entry.realmId entry.key entry.value)
  | .delete => .ok (mt.delete entry.realmId entry.key)
  | .batch =>
    match decodeBatchPayload entry.value with
    | .error e => .error e
    | .ok subEntries => applyBatchLoop entry.realmId subEntries mt []

end Memtable

def operationWrite (realmId : RealmId) (op : WalOperation) (key value : Bytes) : Entry :=
  (⟨realmId, key⟩, if op = .put then .data value else .tombstone)

def recordWrites (entry : WalEntry) : Except StorageError (List Entry) :=
  match entry.operation with
  | .put | .delete => .ok [operationWrite entry.realmId entry.operation entry.key entry.value]
  | .batch =>
    match decodeBatchPayload entry.value with
    | .error e => .error e
    | .ok subEntries =>
      .ok (subEntries.map fun sub => operationWrite entry.realmId sub.operation sub.key sub.value)

namespace Memtable

theorem applyRun_data (mt : Memtable) (realmId putRun) :
    (mt.applyRun realmId putRun).data = insertAll mt.data (puts realmId putRun) ∧
    (mt.applyRun realmId putRun).flushing = mt.flushing := by
  unfold applyRun
  split
  · next h =>
    rw [isEmpty_iff.1 h]
    exact ⟨rfl, rfl⟩
  · exact ⟨rfl, rfl⟩

/-- The loop keeps the pending puts in front of what it has yet to read. -/
theorem applyBatchLoop_data (realmId) {subs}
    (h : ∀ sub ∈ subs, sub.operation ≠ .batch) (mt : Memtable) (putRun) :
    ∃ mt', applyBatchLoop realmId subs mt putRun = .ok mt' ∧ mt'.flushing = mt.flushing ∧
      mt'.data = insertAll mt.data (puts realmId putRun ++
        subs.map fun sub => operationWrite realmId sub.operation sub.key sub.value) := by
  induction subs generalizing mt putRun with
  | nil =>
    obtain ⟨hdata, hfl⟩ := applyRun_data mt _ _
    exact ⟨_, rfl, hfl, by rw [hdata, map_nil, append_nil]⟩
  | cons sub subs ih =>
    have ih := ih fun s hs => h s (mem_cons_of_mem _ hs)
    rw [applyBatchLoop]
    cases hop : sub.operation with
    | put =>
      obtain ⟨mt', hok, hfl, hdata⟩ := ih mt _
      exact ⟨mt', hok, hfl, by
        rw [hdata]
        simp [puts, operationWrite, hop]⟩
    | delete =>
      obtain ⟨hdata, hfl⟩ := applyRun_data mt _ _
      obtain ⟨mt', hok, hfl', hdata'⟩ := ih _ []
      refine ⟨mt', hok, hfl'.trans hfl, ?_⟩
      rw [hdata', map_cons, hop, insertAll_append mt.data, ← hdata]
      rfl
    | batch => exact absurd hop (h sub mem_cons_self)

/-- Replay inserts the writes of the record in order, or fails and keeps the map. -/
theorem applyWalEntry_data (mt : Memtable) (entry : WalEntry) : match recordWrites entry with
    | .error e => mt.applyWalEntry entry = .error e
    | .ok writes => ∃ mt', mt.applyWalEntry entry = .ok mt' ∧ mt'.flushing = mt.flushing ∧
        mt'.data = insertAll mt.data writes := by
  unfold recordWrites applyWalEntry
  cases hop : entry.operation with
  | put | delete => exact ⟨_, rfl, rfl, rfl⟩
  | batch =>
    cases hd : decodeBatchPayload entry.value with
    | error e => rfl
    | ok subs => exact applyBatchLoop_data _ (fun e he => ((decodeBatchPayload_fits hd).1 e he).1) mt []

end Memtable

end Hearth.Storage
