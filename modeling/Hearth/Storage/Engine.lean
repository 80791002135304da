import Hearth.Storage.Compact
import Hearth.Storage.HotTier

/-!
# The storage engine: writes and reads

The layers of the engine from the hot tier down to the SST files, what a write
does to them, and the six read operations.

Results:
1. `Represents.get_eq`, `Represents.getUncached_eq`: in an engine that stands for
   a map, point reads return the map's value.
2. `Represents.scan_eq`, `Represents.scanKeys_eq`, `Represents.visitKeys_eq`,
   `Represents.visitEntries_eq`: the range reads return, or visit, the same list,
   the live keys of the window in order.
3. `Represents.write`: a write section changes the map as it should.
-/

namespace Hearth.Storage

open Prod (fst)

open MemtableValue (live)

open Base List LawfulKeyCursor Memtable KeyCursor

variable {crc32 : Bytes → Nat}

structure Engine (crc32 : Bytes → Nat) where
  activeMemtable : Memtable
  /-- The SST files of the data directory. -/
  dir : List (Numbered crc32)
  sstReaders : List (Numbered crc32)
  sstCounter : Nat
  hotTier : HotTier

namespace Engine

/-! ## Writes

A write is applied inside the WAL's critical section, so each of these is one step for other
writers. -/

variable (e : Engine crc32) (realmId : RealmId)

def put (key value : Bytes) : Engine crc32 :=
  { e with
    activeMemtable := e.activeMemtable.put realmId key value
    hotTier := e.hotTier.invalidate realmId key }

variable (key : Bytes)

def delete : Engine crc32 :=
  { e with
    activeMemtable := e.activeMemtable.delete realmId key
    hotTier := e.hotTier.invalidate realmId key }

/-- `put_batch`, and the apply of `enqueue_batch`. -/
def putBatch (entries : List (Bytes × Bytes)) : Engine crc32 :=
  { e with
    activeMemtable := e.activeMemtable.putBatch realmId entries
    hotTier := e.hotTier.invalidateAll realmId (entries.map fst) }

def writeBatch (puts : List (Bytes × Bytes)) (deletes : List Bytes) : Engine crc32 :=
  deletes.foldl (fun e key => e.delete realmId key) (e.putBatch realmId puts)

/-! ## Point reads -/

/-- `get`: the hot tier, the memtable, then the files, newest first; a value found below the hot
tier is offered to it. -/
def get : Option Bytes × Engine crc32 :=
  match e.hotTier.get realmId key with
  | (some value, hotTier) => (some value, { e with hotTier })
  | (none, hotTier) =>
    let fill := hotTier.beginFill realmId key
    match e.activeMemtable.getEntry realmId key with
    | some (.data data) => (some data, { e with hotTier := hotTier.promote fill realmId key data })
    | some .tombstone => (none, { e with hotTier })
    | none =>
      match sstGet e.sstReaders realmId key with
      | some data => (some data, { e with hotTier := hotTier.promote fill realmId key data })
      | none => (none, { e with hotTier })

/-- `get_uncached`: the same layers, with nothing promoted. -/
def getUncached : Option Bytes × Engine crc32 :=
  match e.hotTier.get realmId key with
  | (some value, hotTier) => (some value, { e with hotTier })
  | (none, hotTier) =>
    match e.activeMemtable.getEntry realmId key with
    | some (.data data) => (some data, { e with hotTier })
    | some .tombstone => (none, { e with hotTier })
    | none => (sstGet e.sstReaders realmId key, { e with hotTier })

/-! ## Scans -/

abbrev BTreeMap (K V : Type) [LinearOrder K] := Std.ExtTreeMap K V

/-- The loop of `scan` and `scan_keys` over the readers, oldest first: newer entries overwrite. -/
def mergeScans {V : Type} (rangeScan : SstFile → Except StorageError (List (Bytes × V))) :
    List (Numbered crc32) → BTreeMap Bytes V → Except StorageError (BTreeMap Bytes V)
  | [], merged => .ok merged
  | reader :: readers, merged =>
    match rangeScan reader.2.toSstFile with
    | .error err => .error err
    | .ok entries => mergeScans rangeScan readers (insertAll merged entries)

variable (start stop : Bytes)

def scan : Except StorageError (List (Bytes × Bytes)) :=
  if stop < start then .error .invalidRange
  else
    let memtableEntries := e.activeMemtable.iterRealmRange realmId start stop
    match mergeScans (·.rangeScan realmId start stop) e.sstReaders.reverse ∅ with
    | .error err => .error err
    | .ok merged => .ok (liveEntries (insertAll merged memtableEntries).toList)

def scanKeys : Except StorageError (List Bytes) :=
  if stop < start then .error .invalidRange
  else
    let memtableKeys := e.activeMemtable.iterRealmRangeKeys realmId start stop
    match mergeScans (·.rangeScanKeys realmId start stop) e.sstReaders.reverse ∅ with
    | .error err => .error err
    | .ok merged =>
      .ok (((insertAll merged memtableKeys).toList.filter fun e => e.2).map fst)

/-! ## Walks -/

/-- A cursor of either kind: the source boxes them. -/
abbrev Cursor := MemtableKeyCursor ⊕ SstCursor

instance : KeyCursor Cursor where
  current c := c.elim current current
  value c := c.elim value value
  advance c := c.map advance advance

/-- The loop that opens a cursor on each reader. -/
def sstCursors (realmId : RealmId) (start stop : Bytes) : List (Numbered crc32) → Except StorageError (List Cursor)
  | [] => .ok []
  | reader :: readers =>
    match reader.2.cursor realmId start stop with
    | .error err => .error err
    | .ok c =>
      match sstCursors realmId start stop readers with
      | .error err => .error err
      | .ok cs => .ok (.inr c :: cs)

/-- The cursors of a walk, newest source first. -/
def cursors : Except StorageError (List Cursor) :=
  match sstCursors realmId start stop e.sstReaders with
  | .error err => .error err
  | .ok cs =>
    .ok (.inl (.new e.activeMemtable.data realmId start stop) ::
      (e.activeMemtable.flushing.elim [] (fun parked => [.inl (.new parked realmId start stop)]) ++ cs))

/-- All entries, newest layer first. -/
def layers : List (List Entry) := e.activeMemtable.layers ++ layersOf e.sstReaders

/-- `visit_entries`, with the visitor's state. Each turn of the merge uses up an entry, so it ends
within as many turns as there are entries. -/
def visitEntries {S : Type} (e : Engine crc32) (realmId : RealmId) (start stop : Bytes)
    (visit : S → Bytes → Bytes → ForInStep S) (s : S) : Except StorageError (Option S) :=
  if stop < start then .error .invalidRange
  else
    match e.cursors realmId start stop with
    | .error err => .error err
    | .ok cs => .ok (visitMergedEntries visit (totalLength e.layers + 1) cs s)

def visitKeys {S : Type} (e : Engine crc32) (realmId : RealmId) (start stop : Bytes)
    (visit : S → Bytes → ForInStep S) (s : S) : Except StorageError (Option S) :=
  if stop < start then .error .invalidRange
  else
    match e.cursors realmId start stop with
    | .error err => .error err
    | .ok cs => .ok (visitMerged visit (totalLength e.layers + 1) cs s)

/-! ## The map an engine stands for -/

/-- What a reader finds below the hot tier. -/
def value (k : CompositeKey) : Option Bytes := visible live e.layers k

/-- The engine stands for the map: the layers hold it and the cache agrees with it. -/
structure Represents (e : Engine crc32) (m : CompositeKey → Option Bytes) : Prop where
  value : ∀ k, e.value k = m k
  hot : e.hotTier.Coherent m

/-- A map after some writes. -/
def overwrite (m : CompositeKey → Option Bytes) (writes : List Entry) (k : CompositeKey) : Option Bytes :=
  (valueAt writes.reverse k).elim (m k) live

section

variable {e : Engine crc32} {m : CompositeKey → Option Bytes} {realmId : RealmId} {key : Bytes}

theorem value_eq (e : Engine crc32) (k) : e.value k =
    (layered e.activeMemtable.layers k).elim (lookup e.sstReaders k) live := by
  rw [value, layers, visible, layered_append]
  cases layered e.activeMemtable.layers k <;> rfl

theorem Represents.cached (h : e.Represents m) {v}
    (hv : (e.hotTier.get realmId key).1 = some v) : m ⟨realmId, key⟩ = some v :=
  h.hot _ v ((HotTier.get_eq _ _ _).symm.trans hv)

/-- The memtable decides, or else the files. -/
theorem Represents.getEntry (h : e.Represents m) (realmId key) : m ⟨realmId, key⟩ =
    match e.activeMemtable.getEntry realmId key with
    | some (.data data) => some data
    | some .tombstone => none
    | none => sstGet e.sstReaders realmId key := by
  rw [← h.value, value_eq, getEntry_eq, sstGet_eq]
  cases layered e.activeMemtable.layers ⟨realmId, key⟩ with
  | none => rfl
  | some v => cases v <;> rfl

theorem Represents.get_eq (h : e.Represents m) : (e.get realmId key).1 = m ⟨realmId, key⟩ := by
  unfold get
  split
  · next hhot =>
    exact (h.cached (congrArg fst hhot)).symm
  · rw [h.getEntry]
    cases e.activeMemtable.getEntry realmId key with
    | none => cases sstGet e.sstReaders realmId key <;> rfl
    | some v => cases v <;> rfl

/-- A key that only the files can have. -/
theorem get_of_absent (hhot : (e.hotTier.get realmId key).1 = none)
    (hmem : e.activeMemtable.getEntry realmId key = none) :
    (e.get realmId key).1 = sstGet e.sstReaders realmId key := by
  unfold get
  split
  · next h =>
    rw [h] at hhot
    cases hhot
  · rw [hmem]
    cases sstGet e.sstReaders realmId key <;> rfl

theorem Represents.getUncached_eq (h : e.Represents m) :
    (e.getUncached realmId key).1 = m ⟨realmId, key⟩ := by
  unfold getUncached
  split
  · next hhot =>
    exact (h.cached (congrArg fst hhot)).symm
  · rw [h.getEntry]
    cases e.activeMemtable.getEntry realmId key with
    | none => rfl
    | some v => cases v <;> rfl

end

/-! ## Range reads -/

/-- The window of a map as a list: its live keys in ascending order, with their values. -/
structure IsWindow (m : CompositeKey → Option Bytes) (realmId : RealmId) (start stop : Bytes)
    (l : List (Bytes × Bytes)) : Prop where
  sorted : KeySorted l
  mem : ∀ k v, (k, v) ∈ l ↔ start ≤ k ∧ k < stop ∧ m ⟨realmId, k⟩ = some v

theorem IsWindow.unique {m realmId start stop l l'} (h : IsWindow m realmId start stop l)
    (h' : IsWindow m realmId start stop l') : l = l' := by
  refine h.sorted.ext_valueAt h'.sorted fun k => Option.ext fun v => ?_
  rw [h.sorted.valueAt_eq_some, h'.sorted.valueAt_eq_some, h.mem, h'.mem]

section

variable {e : Engine crc32} {m : CompositeKey → Option Bytes} {realmId : RealmId} {start stop : Bytes}

/-- The entries of the window, deletions included, each from the newest layer that has it. -/
structure Newest (e : Engine crc32) (realmId : RealmId) (start stop : Bytes)
    (l : List (Bytes × MemtableValue)) : Prop where
  sorted : KeySorted l
  value : ∀ k, valueAt l k = if start ≤ k ∧ k < stop then layered e.layers ⟨realmId, k⟩ else none

theorem Newest.isWindow (h : e.Represents m) {l}
    (hl : Newest e realmId start stop l) : IsWindow m realmId start stop (liveEntries l) := by
  refine ⟨?_, fun k v => ?_⟩
  · refine pairwise_filterMap.2 (hl.sorted.imp fun {a b} hab x hx y hy => ?_)
    obtain ⟨v, -, rfl⟩ := Option.map_eq_some_iff.1 hx
    obtain ⟨w, -, rfl⟩ := Option.map_eq_some_iff.1 hy
    exact hab
  · have hvalue := hl.value k
    have hm : m ⟨realmId, k⟩ = (layered e.layers ⟨realmId, k⟩).bind live :=
      (h.value _).symm
    constructor
    · intro hin
      obtain ⟨⟨k', w⟩, hmem, hlive⟩ := mem_filterMap.1 hin
      obtain ⟨v', hw, heq⟩ := Option.map_eq_some_iff.1 hlive
      cases heq
      rw [hl.sorted.valueAt_eq_some.2 hmem] at hvalue
      split at hvalue
      · next hb =>
        refine ⟨hb.1, hb.2, ?_⟩
        rw [hm, ← hvalue]
        exact hw
      · cases hvalue
    · rintro ⟨hs, he, hv⟩
      rw [hm] at hv
      obtain ⟨w, hw, hlive⟩ := Option.bind_eq_some_iff.1 hv
      rw [if_pos ⟨hs, he⟩, hw] at hvalue
      refine mem_filterMap.2 ⟨(k, w), mem_of_valueAt hvalue, ?_⟩
      rw [hlive]
      rfl

variable {V : Type}

theorem mergeScans_eq {rangeScan w} (h : ∀ r, rangeScan r.2.toSstFile = .ok (w r))
    (readers : List (Numbered crc32)) (merged : BTreeMap Bytes V) :
    mergeScans rangeScan readers merged = .ok ((readers.map w).foldl insertAll merged) := by
  induction readers generalizing merged with
  | nil => rfl
  | cons r readers ih =>
    rw [mergeScans, h r]
    exact ih _

theorem layered_window (ls : List (List Entry)) (k : Bytes) :
    layered (ls.map (window realmId start stop)) k =
      if start ≤ k ∧ k < stop then layered ls ⟨realmId, k⟩ else none := by
  induction ls with
  | nil => exact (ite_self _).symm
  | cons l ls ih =>
    rw [map_cons, layered_cons, layered_cons, ih, valueAt_window]
    split <;> rfl

theorem layered_project (project : MemtableValue → V)
    (ls : List (List (Bytes × MemtableValue))) (k) :
    layered (ls.map fun l => l.map fun e => (e.1, project e.2)) k = (layered ls k).map project := by
  induction ls with
  | nil => rfl
  | cons l ls ih => rw [map_cons, layered_cons, layered_cons, ih, valueAt_map, Option.map_or]

theorem mergeScans_spec (inner : Option Bytes → V) (project : MemtableValue → V)
    (hp : ∀ v : MemtableValue, inner v.live = project v) (e : Engine crc32) (realmId)
    (h : start ≤ stop) :
    ∃ merged, mergeScans (·.rangeScanInner inner realmId start stop) e.sstReaders.reverse ∅ = .ok merged ∧
      ∀ k, valueAt (insertAll merged
          (e.activeMemtable.iterRealmRangeWith project realmId start stop)).toList k =
        if start ≤ k ∧ k < stop then (layered e.layers ⟨realmId, k⟩).map project else none := by
  obtain ⟨hmsort, hmval⟩ := iterRealmRangeWith_spec _ _ _ _ stop
  have hscan : ∀ r : Numbered crc32, r.2.toSstFile.rangeScanInner inner realmId start stop =
      .ok ((window realmId start stop r.2.entries).map fun a => (a.1, project a.2)) := by
    intro r
    rw [r.2.rangeScanInner_eq _ _ h]
    simp [hp]
  refine ⟨_, mergeScans_eq hscan _ _, fun k => ?_⟩
  have hfold : insertAll ((e.sstReaders.reverse.map fun r =>
        (window realmId start stop r.2.entries).map fun a => (a.1, project a.2)).foldl insertAll ∅)
        (e.activeMemtable.iterRealmRangeWith project realmId start stop) =
      ((e.activeMemtable.iterRealmRangeWith project realmId start stop ::
        ((layersOf e.sstReaders).map (window realmId start stop)).map fun l =>
          l.map fun a => (a.1, project a.2)).reverse.foldl insertAll ∅) := by
    rw [reverse_cons, foldl_append, layersOf, map_map, map_map, map_reverse]
    rfl
  rw [hfold, valueAt_toList, getElem?_insertAll_layers, layered_cons, hmval, layered_project,
    layered_window, layers, layered_append]
  · split
    · exact Option.map_or.symm
    · rfl
  · intro l hl
    rcases mem_cons.1 hl with rfl | hl
    · exact hmsort
    · simp only [layersOf, map_map, mem_map] at hl
      obtain ⟨r, -, rfl⟩ := hl
      exact pairwise_map.2 (window_sorted r.2.sorted)

theorem mergeScans_newest (e : Engine crc32) (realmId) (hle : start ≤ stop) :
    ∃ merged, mergeScans (·.rangeScan realmId start stop) e.sstReaders.reverse ∅ = .ok merged ∧
      Newest e realmId start stop
        (insertAll merged (e.activeMemtable.iterRealmRange realmId start stop)).toList := by
  obtain ⟨merged, hok, hval⟩ := mergeScans_spec (fun v => v.elim .tombstone .data) id
    (fun v => by cases v <;> rfl) e _ hle
  refine ⟨merged, hok, keySorted_toList _, fun k => (hval k).trans ?_⟩
  rw [Option.map_id]
  rfl

theorem Represents.scan_eq (h : e.Represents m) (realmId) (hle : start ≤ stop) :
    ∃ l, e.scan realmId start stop = .ok l ∧ IsWindow m realmId start stop l := by
  obtain ⟨merged, hok, hnew⟩ := mergeScans_newest e _ hle
  refine ⟨_, ?_, hnew.isWindow h⟩
  rw [scan, if_neg (not_lt.2 hle)]
  rw [hok]

theorem keys_liveEntries (l : List (Bytes × MemtableValue)) :
    ((l.map fun a => (a.1, a.2.live.isSome)).filter fun a => a.2).map fst =
      (liveEntries l).map fst := by
  induction l with
  | nil => rfl
  | cons a l ih =>
    obtain ⟨k, v⟩ := a
    cases v with
    | data d => exact congrArg (k :: ·) ih
    | tombstone => exact ih

theorem Represents.scanKeys_eq (h : e.Represents m) (realmId) (hle : start ≤ stop) :
    ∃ l, e.scanKeys realmId start stop = .ok (l.map fst) ∧ IsWindow m realmId start stop l := by
  obtain ⟨merged, -, hnew⟩ := mergeScans_newest e _ hle
  obtain ⟨keys, hok, hkeys⟩ := mergeScans_spec _ _ (fun _ => rfl) e _ hle
  refine ⟨_, ?_, hnew.isWindow h⟩
  have hflags : (insertAll keys (e.activeMemtable.iterRealmRangeKeys realmId start stop)).toList =
      (insertAll merged (e.activeMemtable.iterRealmRange realmId start stop)).toList.map
        fun a => (a.1, a.2.live.isSome) := by
    refine (keySorted_toList _).ext_valueAt (pairwise_map.2 hnew.sorted) fun k => ?_
    rw [valueAt_map fun v : MemtableValue => v.live.isSome, hnew.value, iterRealmRangeKeys, hkeys]
    split <;> rfl
  rw [scanKeys, if_neg (not_lt.2 hle)]
  rw [SstFile.rangeScanKeys, hok]
  dsimp only
  rw [hflags, keys_liveEntries]

instance : LawfulKeyCursor Cursor where
  remaining c := c.elim remaining remaining
  sorted c := by
    cases c with
    | inl c | inr c => exact sorted c
  current_eq c := by
    cases c with
    | inl c | inr c => exact current_eq c
  value_eq c := by
    cases c with
    | inl c | inr c => exact LawfulKeyCursor.value_eq c
  remaining_advance c := by
    cases c with
    | inl c | inr c => exact remaining_advance c

theorem sstCursors_eq (realmId) (hle : start ≤ stop) (readers : List (Numbered crc32)) :
    ∃ cs, sstCursors realmId start stop readers = .ok cs ∧
      cs.map remaining = (layersOf readers).map (window realmId start stop) := by
  induction readers with
  | nil => exact ⟨[], rfl, rfl⟩
  | cons r readers ih =>
    obtain ⟨c, hc, hrem⟩ := r.2.remaining_cursor _ hle
    obtain ⟨cs, hcs, hmap⟩ := ih
    refine ⟨.inr c :: cs, ?_, ?_⟩
    · rw [sstCursors, hc, hcs]
    · rw [map_cons, layersOf_cons, map_cons, hmap, ← hrem]
      rfl

theorem cursors_eq (e : Engine crc32) (realmId) (hle : start ≤ stop) :
    ∃ cs, e.cursors realmId start stop = .ok cs ∧
      cs.map remaining = e.layers.map (window realmId start stop) := by
  obtain ⟨cs, hcs, hmap⟩ := sstCursors_eq _ hle _
  have hnew : ∀ map : MemtableMap, remaining (.inl (.new map realmId start stop) : Cursor) =
        window realmId start stop map.toList := fun map =>
    MemtableKeyCursor.remaining_new map _ _ stop
  refine ⟨_, by rw [cursors, hcs], ?_⟩
  rw [map_cons, map_append, hnew, layers, Memtable.layers, cons_append, map_cons, map_append]
  congr 2
  cases e.activeMemtable.flushing with
  | none => rfl
  | some parked => exact congrArg (· :: []) (hnew _)

theorem totalLength_window (realmId : RealmId) (start stop : Bytes) (ls : List (List Entry)) :
    totalLength (ls.map (window realmId start stop)) ≤ totalLength ls := by
  induction ls with
  | nil => exact le_rfl
  | cons l ls ih =>
    have hl : (window realmId start stop l).length ≤ l.length := by
      rw [window, length_map]
      exact length_filter_le _ _
    exact add_le_add hl ih

theorem layers_sorted (e : Engine crc32) : ∀ l ∈ e.layers, KeySorted l := by
  refine forall_mem_append.2 ⟨e.activeMemtable.layers_sorted, fun l hl => ?_⟩
  obtain ⟨r, -, rfl⟩ := mem_map.1 hl
  exact r.2.sorted

/-- A walk visits the live entries of the window in order, until the visitor breaks. -/
theorem Represents.visitEntries_eq (h : e.Represents m) (realmId) (hle : start ≤ stop) :
    ∃ l, IsWindow m realmId start stop l ∧
      ∀ {S : Type} (visit : S → Bytes → Bytes → ForInStep S) (s : S),
        e.visitEntries realmId start stop visit s = .ok (some (visitList visit l s)) := by
  obtain ⟨cs, hcs, hrem⟩ := e.cursors_eq _ hle
  have hlen := totalLength_window realmId start stop e.layers
  have hsorted : ∀ l ∈ e.layers.map (window realmId start stop), KeySorted l := by
    intro l hl
    obtain ⟨l', hl', rfl⟩ := mem_map.1 hl
    exact window_sorted (e.layers_sorted l' hl')
  obtain ⟨hsort, hval⟩ := merge_spec hsorted (Nat.le_succ_of_le hlen)
  refine ⟨_, Newest.isWindow h ⟨hsort, fun k => (hval k).trans (layered_window _ k)⟩, fun visit s => ?_⟩
  rw [visitEntries, if_neg (not_lt.2 hle), hcs]
  dsimp only
  rw [visitMergedEntries_eq _ (by rw [hrem]; exact Nat.lt_succ_of_le hlen), hrem]

theorem Represents.visitKeys_eq (h : e.Represents m) (realmId) (hle : start ≤ stop) :
    ∃ l, IsWindow m realmId start stop l ∧ ∀ {S : Type} (visit : S → Bytes → ForInStep S) (s : S),
        e.visitKeys realmId start stop visit s =
          .ok (some (visitList (fun s key _ => visit s key) l s)) := by
  obtain ⟨l, hl, hvisit⟩ := h.visitEntries_eq _ hle
  exact ⟨l, hl, fun visit => hvisit _⟩

end

/-! ## Writes as map updates -/

section

variable {e : Engine crc32} {m : CompositeKey → Option Bytes}

theorem overwrite_append (m : CompositeKey → Option Bytes) (ws ws') :
    overwrite m (ws ++ ws') = overwrite (overwrite m ws) ws' := by
  funext k
  rw [overwrite, overwrite, reverse_append, valueAt_append]
  cases valueAt ws'.reverse k <;> rfl

/-- A write section: entries of one realm go into the active map and their keys are invalidated. -/
structure Wrote (e e' : Engine crc32) (realmId : RealmId) (keys : List Bytes) (writes : List Entry) :
    Prop where
  invalidated : ∀ w ∈ writes, w.1.realmId = realmId ∧ w.1.key ∈ keys
  data : e'.activeMemtable.data = insertAll e.activeMemtable.data writes
  flushing : e'.activeMemtable.flushing = e.activeMemtable.flushing
  hotTier : e'.hotTier = e.hotTier.invalidateAll realmId keys
  dir : e'.dir = e.dir
  sstReaders : e'.sstReaders = e.sstReaders
  sstCounter : e'.sstCounter = e.sstCounter

variable {e' : Engine crc32} {realmId : RealmId} {keys : List Bytes} {writes : List Entry}

section

variable (e : Engine crc32)

theorem put_wrote (realmId key value) :
    Wrote e (e.put realmId key value) realmId [key] [(⟨realmId, key⟩, .data value)] :=
  ⟨fun _ hw => mem_singleton.1 hw ▸ ⟨rfl, mem_singleton.2 rfl⟩, rfl, rfl, rfl, rfl, rfl, rfl⟩

theorem delete_wrote (realmId key) :
    Wrote e (e.delete realmId key) realmId [key] [(⟨realmId, key⟩, .tombstone)] :=
  ⟨fun _ hw => mem_singleton.1 hw ▸ ⟨rfl, mem_singleton.2 rfl⟩, rfl, rfl, rfl, rfl, rfl, rfl⟩

theorem putBatch_wrote (realmId entries) :
    Wrote e (e.putBatch realmId entries) realmId (entries.map fst) (puts realmId entries) := by
  refine ⟨fun w hw => ?_, rfl, rfl, rfl, rfl, rfl, rfl⟩
  obtain ⟨a, ha, rfl⟩ := mem_map.1 hw
  exact ⟨rfl, mem_map_of_mem ha⟩

end

theorem Wrote.layered (h : Wrote e e' realmId keys writes) (k) :
    layered e'.activeMemtable.layers k =
      (valueAt writes.reverse k).or (layered e.activeMemtable.layers k) := by
  rw [Memtable.layers, Memtable.layers, layered_cons, layered_cons, valueAt_toList, valueAt_toList,
    h.data, h.flushing, getElem?_insertAll, Option.or_assoc]

theorem Wrote.valueAt_none (h : Wrote e e' realmId keys writes) {k}
    (hk : ∀ key ∈ keys, k ≠ ⟨realmId, key⟩) : valueAt writes.reverse k = none := by
  refine valueAt_eq_none.2 fun w hw heq => ?_
  obtain ⟨hr, hin⟩ := h.invalidated w (mem_reverse.1 hw)
  refine hk _ hin ?_
  rw [heq, ← hr]

theorem Represents.write (h : e.Represents m) (hw : Wrote e e' realmId keys writes) :
    e'.Represents (overwrite m writes) := by
  refine ⟨fun k => ?_, ?_⟩
  · rw [value_eq, overwrite, ← h.value, value_eq, hw.layered, hw.sstReaders]
    cases valueAt writes.reverse k <;> rfl
  · rw [hw.hotTier]
    refine h.hot.write fun k hk => ?_
    rw [overwrite, hw.valueAt_none hk]
    rfl

end

end Engine

end Hearth.Storage
