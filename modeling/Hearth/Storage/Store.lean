import Hearth.Storage.Engine
import Hearth.Wal.Survive

/-!
# The store: WAL, memtable and files in one run

Writers, group-commit leaders, flushes and rotations on one engine, and the
crash. A write call applies its sections to the memtable inside the critical
section of `enqueue_slot`; each section takes the memtable's write lock on its
own, and a flush may swap the map between any two of them. A rotation flushes
the memtable before it truncates the segment.

Results:
1. `recordWrites_record`: replaying a call's record writes what the call wrote.
2. `openStore_spec`: what `open_with_fs` finds in the log and in the files.
3. `Newer.cut`: whichever files survive, they hold the calls up to some number.
-/

namespace Hearth.Storage

open Base Wal List Memtable BatchEntry

/-! ## Write calls -/

/-- What one hold of the memtable's write lock does. -/
inductive LockSection
  | put (realmId : RealmId) (key value : Bytes)
  | delete (realmId : RealmId) (key : Bytes)
  | putBatch (realmId : RealmId) (entries : List (Bytes × Bytes))

def LockSection.apply (mt : Memtable) : LockSection → Memtable
  | .put realmId key value => mt.put realmId key value
  | .delete realmId key => mt.delete realmId key
  | .putBatch realmId entries => mt.putBatch realmId entries

def LockSection.writes : LockSection → List Entry
  | .put realmId key value => [(⟨realmId, key⟩, .data value)]
  | .delete realmId key => [(⟨realmId, key⟩, .tombstone)]
  | .putBatch realmId entries => puts realmId entries

theorem LockSection.apply_data (mt : Memtable) (sec : LockSection) :
    (sec.apply mt).data = insertAll mt.data sec.writes ∧ (sec.apply mt).flushing = mt.flushing := by
  cases sec with
  | put | delete => exact ⟨rfl, rfl⟩
  | putBatch realmId entries =>
    exact ⟨rfl, rfl⟩

/-- A write call of the engine. `enqueue_batch` with `await_batch_durable` is `put_batch` cut in two. -/
inductive WriteCall
  | put (realmId : RealmId) (key value : Bytes)
  | delete (realmId : RealmId) (key : Bytes)
  | putBatch (realmId : RealmId) (entries : List (Bytes × Bytes))
  | writeBatch (realmId : RealmId) (puts : List (Bytes × Bytes)) (deletes : List Bytes)

namespace WriteCall

/-- The `apply` closure of the call. -/
def sections : WriteCall → List LockSection
  | .put realmId key value => [.put realmId key value]
  | .delete realmId key => [.delete realmId key]
  | .putBatch realmId entries => [.putBatch realmId entries]
  | .writeBatch realmId puts deletes => .putBatch realmId puts :: deletes.map (.delete realmId)

def writes (call : WriteCall) : List Entry := call.sections.flatMap LockSection.writes

def isWriteBatch : WriteCall → Bool
  | .writeBatch .. => true
  | _ => false

def putEntries (puts : List (Bytes × Bytes)) : List BatchEntry := puts.map fun e => ⟨.put, e.1, e.2⟩

/-- The batch record of `put_batch`, `enqueue_batch` and `write_batch`. -/
def batchEntry (timestamp : BitVec 64) (realmId : RealmId) (subEntries : List BatchEntry) :
    Except StorageError WalEntry := do
  let payload ← encodeBatchPayload subEntries
  return ⟨timestamp, realmId, .batch, [], payload⟩

def walEntry (timestamp : BitVec 64) : WriteCall → Except StorageError WalEntry
  | .put realmId key value => .ok ⟨timestamp, realmId, .put, key, value⟩
  | .delete realmId key => .ok ⟨timestamp, realmId, .delete, key, []⟩
  | .putBatch realmId entries => batchEntry timestamp realmId (putEntries entries)
  | .writeBatch realmId puts deletes =>
    batchEntry timestamp realmId (putEntries puts ++ deletes.map fun k => ⟨.delete, k, []⟩)

theorem writes_writeBatch (realmId puts deletes) : (writeBatch realmId puts deletes).writes =
      Memtable.puts realmId puts ++ deletes.map fun k => (⟨realmId, k⟩, .tombstone) := by
  refine congrArg (Memtable.puts _ puts ++ ·) ?_
  induction deletes with
  | nil => rfl
  | cons k deletes ih => exact congrArg ((⟨realmId, k⟩, .tombstone) :: ·) ih

theorem mem_encode_length {es : List BatchEntry} {e : BatchEntry} (h : e ∈ es) :
    e.key.length + e.value.length + 9 ≤ (es.flatMap encode).length := by
  have hsub : (e.encode).length ≤ (es.flatMap encode).length := by
    obtain ⟨pre, post, rfl⟩ := append_of_mem h
    rw [flatMap_append, flatMap_cons, length_append, length_append]
    omega
  refine le_trans ?_ hsub
  rw [encode, length_cons, length_append, length_lengthPrefixed, length_lengthPrefixed]
  omega

variable {timestamp : BitVec 64}

/-- A batch record that fits its frame is read back. -/
theorem decode_batchEntry {realmId : RealmId} {subs : List BatchEntry}
    {e : WalEntry} (h : batchEntry timestamp realmId subs = .ok e)
    (hops : ∀ sub ∈ subs, sub.operation ≠ .batch) (hfits : e.serialize.length + 16 < 2 ^ 32) :
    e.realmId = realmId ∧ e.operation = .batch ∧ decodeBatchPayload e.value = .ok subs := by
  unfold batchEntry at h
  cases hp : encodeBatchPayload subs with
  | error err =>
    rw [hp] at h
    cases h
  | ok payload =>
    rw [hp] at h
    cases h
    have hlen : payload.length < 2 ^ 32 := by
      rw [WalEntry.length_serialize] at hfits
      dsimp only at hfits
      omega
    have hpay : payload = leBytes 4 (subs.length % 2 ^ 32) ++ subs.flatMap encode := by
      unfold encodeBatchPayload at hp
      split at hp
      · cases hp
      · exact (Except.ok.inj hp).symm
    have htot : (subs.flatMap encode).length < 2 ^ 32 := by
      rw [hpay, length_append] at hlen
      omega
    have hcount := length_flatMap_encode subs
    obtain ⟨payload', hp', hd⟩ := decode_encode_batch
      (fun sub (hs : sub ∈ subs) => ⟨hops sub hs, by have := mem_encode_length hs; omega,
        by have := mem_encode_length hs; omega⟩) (by omega)
    rw [hp] at hp'
    cases hp'
    exact ⟨rfl, rfl, hd⟩

theorem recordWrites_record {call : WriteCall} {e : WalEntry}
    (h : call.walEntry timestamp = .ok e) (hfits : e.serialize.length + 16 < 2 ^ 32) :
    recordWrites e = .ok call.writes := by
  have hbatch : ∀ {realmId : RealmId} {subs : List BatchEntry},
      batchEntry timestamp realmId subs = .ok e → (∀ sub ∈ subs, sub.operation ≠ .batch) →
      recordWrites e = .ok (subs.map fun sub => operationWrite realmId sub.operation sub.key sub.value) := by
    intro realmId subs hb hops
    obtain ⟨hr, hop, hd⟩ := decode_batchEntry hb hops hfits
    simp [recordWrites, hop, hd, hr]
  have hput : ∀ (realmId : RealmId) (puts : List (Bytes × Bytes)),
      (putEntries puts).map (fun sub => operationWrite realmId sub.operation sub.key sub.value) =
        Memtable.puts realmId puts := by
    intro realmId puts
    rw [putEntries, map_map]
    rfl
  have hputs : ∀ (puts : List (Bytes × Bytes)), ∀ sub ∈ putEntries puts, sub.operation ≠ .batch := by
    intro puts sub hs
    obtain ⟨a, -, rfl⟩ := mem_map.1 hs
    exact nofun
  cases call with
  | put | delete =>
    cases h
    rfl
  | putBatch realmId entries =>
    rw [hbatch h (hputs _), hput]
    exact congrArg Except.ok (append_nil _).symm
  | writeBatch realmId puts deletes =>
    rw [hbatch h fun sub hs => ?_, map_append, hput, map_map]
    · exact congrArg Except.ok (writes_writeBatch _ puts _).symm
    · rcases mem_append.1 hs with hs | hs
      · exact hputs puts sub hs
      · obtain ⟨k, -, rfl⟩ := mem_map.1 hs
        exact nofun

end WriteCall

/-! ## Opening -/

/-- The replay loop of `open_with_fs`. -/
def replay (entries : List WalEntry) (mt : Memtable) : Except StorageError Memtable :=
  match entries with
  | [] => .ok mt
  | entry :: entries =>
    match mt.applyWalEntry entry with
    | .error e => .error e
    | .ok mt => replay entries mt

/-- What `open_with_fs` is given besides the files. -/
structure StorageConfig where
  tiered : TieredConfig
  hashBuilder : HashBuilder

/-- `open_with_fs` on the bytes of the log and the SST files of the directory, newest first. Keys
are numbered from `i` on. -/
def openStore (C : Cipher) {crc32 : Bytes → Nat} (config : StorageConfig) (i : Nat) (log : Bytes)
    (dir : List (Numbered crc32)) : Except StorageError (Segment C × Engine crc32) :=
  match openWithFs C i log with
  | .error e => .error e
  | .ok wal =>
    match wal.readAll with
    | .error e => .error e
    | .ok entries =>
      match replay entries (.new) with
      | .error e => .error e
      | .ok memtable =>
        .ok (wal, {
          activeMemtable := memtable, dir := dir, sstReaders := dir, sstCounter := nextNumber dir
          hotTier := .new config.tiered config.hashBuilder })

theorem replay_data {entries mt mt'} (h : replay entries mt = .ok mt') :
    ∃ ws : List (List Entry), entries.map recordWrites = ws.map .ok ∧ mt'.flushing = mt.flushing ∧
      mt'.data = insertAll mt.data ws.flatten := by
  induction entries generalizing mt with
  | nil =>
    cases h
    exact ⟨[], rfl, rfl, rfl⟩
  | cons entry entries ih =>
    have hone := mt.applyWalEntry_data entry
    rw [replay] at h
    cases hw : recordWrites entry with
    | error e =>
      simp only [hw] at hone
      rw [hone] at h
      cases h
    | ok writes =>
      simp only [hw] at hone
      obtain ⟨mt1, hok, hfl, hdata⟩ := hone
      rw [hok] at h
      obtain ⟨ws, hws, hfl', hdata'⟩ := ih h
      refine ⟨writes :: ws, by rw [map_cons, map_cons, hw, hws], hfl'.trans hfl, ?_⟩
      rw [hdata', hdata, flatten_cons, insertAll_append]

section

variable {C : Cipher} {crc32 : Bytes → Nat} {config : StorageConfig} {i : Nat} {log : Bytes}
  {dir : List (Numbered crc32)} {wal : Segment C} {e : Engine crc32}

/-- The engine that comes up: the files, overwritten by the records of the log. -/
theorem openStore_spec (h : openStore C config i log dir = .ok (wal, e)) :
    openWithFs C i log = .ok wal ∧ e.dir = dir ∧ e.sstReaders = dir ∧ e.sstCounter = nextNumber dir ∧
      e.activeMemtable.flushing = none ∧ ∃ entries, ∃ ws : List (List Entry), wal.readAll = .ok entries ∧
        entries.map recordWrites = ws.map .ok ∧
        (∀ k, e.activeMemtable.data[k]? = valueAt ws.flatten.reverse k) ∧
        e.Represents (Engine.overwrite (lookup dir) ws.flatten) := by
  unfold openStore at h
  cases hw : openWithFs C i log with
  | error err =>
    rw [hw] at h
    cases h
  | ok wal' =>
    simp only [hw] at h
    cases hr : wal'.readAll with
    | error err =>
      rw [hr] at h
      cases h
    | ok entries =>
      simp only [hr] at h
      cases hm : replay entries (.new) with
      | error err =>
        rw [hm] at h
        cases h
      | ok memtable =>
        rw [hm] at h
        cases h
        obtain ⟨ws, hws, hfl, hdata⟩ := replay_data hm
        have hlook : ∀ k, memtable.data[k]? = valueAt ws.flatten.reverse k := by
          intro k
          rw [hdata, getElem?_insertAll]
          exact Option.or_none
        refine ⟨rfl, rfl, rfl, rfl, hfl, entries, ws, hr, hws, hlook, fun k => ?_,
          HotTier.coherent_new _ _ _⟩
        rw [Engine.value_eq, layers, layered_cons, valueAt_toList, hlook, hfl]
        show ((valueAt ws.flatten.reverse _).or (layered [] _)).elim _ _ = _
        rw [layered_nil, Option.or_none]
        rfl

end

/-! ## Steps -/

/-- How far a flush has come; the flush lock is held until it ends. `published` has renamed its
file, `synced` has also synced the directory. -/
inductive FlushStage
  | idle
  | parked
  | published
  | synced
  deriving DecidableEq

/-- How far the flush of a rotation has come. -/
inductive Rotation
  | none
  | parked
  | flushed
  deriving DecidableEq

/-- The rotation after its flush has ended well, or not. -/
def Rotation.ended (ok : Bool) : Rotation → Rotation
  | .parked => if ok then .flushed else .none
  | r => r

/-- A call inside its `apply`: the group mutex is held, and `todo` has not run. -/
structure Applying (T : Type) where
  thread : T
  call : WriteCall
  record : Record
  todo : List LockSection

/-- A running store. `unsynced` are the files renamed since the last sync of the directory,
`durableDir` those before. The last two fields are history: the calls in WAL order, the one inside
its `apply` included, and what a reader saw when the store was opened. -/
structure StoreSys (T : Type) (C : Cipher) (crc32 : Bytes → Nat) where
  wal : WalSys T C
  memtable : Memtable
  unsynced : List (Numbered crc32)
  durableDir : List (Numbered crc32)
  sstCounter : Nat
  flush : FlushStage
  rotation : Rotation
  applying : Option (Applying T)
  calls : List WriteCall
  opened : CompositeKey → Option Bytes

namespace StoreSys

variable {T : Type} [DecidableEq T] {C : Cipher} {crc32 : Bytes → Nat}

/-- The process right after `open_with_fs` has returned. -/
def ofOpen (i : Nat) (wal : Segment C) (rs : List Record) (e : Engine crc32) : StoreSys T C crc32 where
  wal := .ofSegment i wal rs
  memtable := e.activeMemtable
  unsynced := []
  durableDir := e.dir
  sstCounter := e.sstCounter
  flush := .idle
  rotation := .none
  applying := none
  calls := []
  opened := e.value

def Opened (s : StoreSys T C crc32) : Prop :=
  ∃ config i log dir wal rs e, openStore C config i log dir = .ok (wal, e) ∧
    Wal.Holds C wal.content wal.dek rs ∧ wal.recordCounter = rs.length ∧ s = ofOpen i wal rs e

/-- The leader is about to rotate the segment. -/
def Rotating (maxSize : Nat) (s : StoreSys T C crc32) : Prop :=
  s.rotation = .none ∧ s.wal.io = .idle ∧ ∃ t x c b, s.wal.proto.pc t = .committing x c b ∧
    s.wal.needsRotation maxSize b = true

inductive Step (maxSize : Nat) : StoreSys T C crc32 → StoreSys T C crc32 → Prop
  /-- A step of the WAL other than an enqueue. It takes the group mutex only if no call holds it,
  and starts no rotation. -/
  | wal {s w} : WalSys.Step maxSize s.wal w →
      w.proto.group.nextTicket = s.wal.proto.group.nextTicket →
      (∀ a, s.applying = some a → w.proto.group = s.wal.proto.group ∧
        w.proto.pc a.thread = s.wal.proto.pc a.thread) →
      (s.wal.io = .idle → w.io ≠ .idle → s.rotation = .none ∧ ∀ k, w.io ≠ .flushed k) →
      Step maxSize s { s with wal := w }
  /-- The rotation goes on once its flush has returned. -/
  | rotate {s w k} : WalSys.Step maxSize s.wal w →
      s.wal.io = .idle → w.io = .flushed k → s.rotation = .flushed →
      Step maxSize s { s with wal := w, rotation := .none }
  /-- A call past the fence check takes the group mutex. -/
  | begin {s t call timestamp e} (hfits : e.serialize.length + 16 < 2 ^ 32) : s.applying = none →
      s.wal.proto.pc t = .unfenced → call.writes ≠ [] → call.walEntry timestamp = .ok e →
      Step maxSize s { s with
        applying := some ⟨t, call, .ofEntry e hfits, call.sections⟩, calls := s.calls ++ [call] }
  | lockSection {s a sec rest} : s.applying = some a → a.todo = sec :: rest →
      Step maxSize s { s with
        memtable := sec.apply s.memtable, applying := some { a with todo := rest } }
  /-- The slot is pushed and the mutex released. -/
  | push {s a} : s.applying = some a → a.todo = [] → s.wal.proto.pc a.thread = .unfenced →
      Step maxSize s { s with
        wal := { s.wal with proto := s.wal.proto.enqueue a.thread a.record }, applying := none }
  | park {s} : s.flush = .idle → s.memtable.data.isEmpty = false →
      Step maxSize s { s with memtable := s.memtable.park, flush := .parked }
  | rotationPark {s} : s.Rotating maxSize → s.flush = .idle → s.memtable.data.isEmpty = false →
      Step maxSize s { s with memtable := s.memtable.park, flush := .parked, rotation := .parked }
  /-- There is nothing to flush. -/
  | rotationEmpty {s} : s.Rotating maxSize → s.flush = .idle →
      s.memtable.data.isEmpty = true → Step maxSize s { s with rotation := .flushed }
  /-- The file takes its name. The counter is above every number in the directory. -/
  | publish {s} {parked : MemtableMap} {file} : s.flush = .parked →
      s.memtable.flushing = some parked →
      Sst.write crc32 parked.toList (keySorted_toList parked) = .ok file →
      Step maxSize s { s with
        unsynced := (s.sstCounter, file) :: s.unsynced, sstCounter := s.sstCounter + 1
        flush := .published }
  | syncDir {s} : s.flush = .published → Step maxSize s { s with
        unsynced := [], durableDir := s.unsynced ++ s.durableDir, flush := .synced }
  | dropParked {s} : s.flush = .synced → Step maxSize s { s with
        memtable := s.memtable.dropParked, flush := .idle, rotation := s.rotation.ended true }
  /-- The flush fails, before or after its file has its name; the parked map is folded back. -/
  | flushFail {s} : s.flush ≠ .idle → Step maxSize s { s with
        memtable := s.memtable.reabsorb
        sstCounter := if s.flush = .parked then s.sstCounter + 1 else s.sstCounter
        flush := .idle, rotation := s.rotation.ended false }

/-- What a crash can leave: an image of the log, every file whose name was synced, and some of the
others. -/
structure Crash (s : StoreSys T C crc32) (log : Bytes) (dir : List (Numbered crc32)) : Prop where
  log : s.wal.file.Survives log
  dir : ∃ kept, kept.Sublist s.unsynced ∧ dir = kept ++ s.durableDir

/-- No flush swaps the memtable while a call is applied in part. -/
def ParksWhole (s t : StoreSys T C crc32) : Prop :=
  s.flush = .idle → t.flush = .parked →
    ∀ a, s.applying = some a → a.todo = [] ∨ a.todo = a.call.sections

end StoreSys

/-! ## Files and maps as cuts of the sequence of calls -/

section

open Engine

variable {bs cs : List (List Entry)} {m g : CompositeKey → Option Bytes}
  {f : CompositeKey → Option MemtableValue} {a b n top : Nat} {crc32 : Bytes → Nat}

/-- The writes of the first `n` blocks. -/
def upTo (bs : List (List Entry)) (n : Nat) : List Entry := (bs.take n).flatten

theorem upTo_append (h : n ≤ bs.length) : upTo (bs ++ cs) n = upTo bs n := by
  rw [upTo, take_append_of_le_length h, upTo]

theorem upTo_split (bs) (h : b ≤ a) : ∃ rest, upTo bs a = upTo bs b ++ rest := by
  obtain ⟨d, rfl⟩ := Nat.exists_eq_add_of_le h
  exact ⟨((bs.drop b).take d).flatten, by rw [upTo, take_add, flatten_append, upTo]⟩

theorem upTo_succ (h : n < bs.length) : upTo bs (n + 1) = upTo bs n ++ bs[n] := by
  rw [upTo, ← take_append_getElem h, flatten_append, flatten_singleton, upTo]

/-- A map of lookups that stands for some writes. -/
def StandsFor (l : List Entry) (f : CompositeKey → Option MemtableValue) : Prop :=
  ∀ k, f k = valueAt l.reverse k

/-- The lookups stand for the blocks from `b` on, up to `a`. -/
def Spans (bs : List (List Entry)) (b a : Nat) (f : CompositeKey → Option MemtableValue) : Prop :=
  ∃ rest, upTo bs a = upTo bs b ++ rest ∧ StandsFor rest f

/-- The map is `m` overwritten by the first `n` blocks. -/
def CutAt (m : CompositeKey → Option Bytes) (bs : List (List Entry)) (n : Nat)
    (g : CompositeKey → Option Bytes) : Prop :=
  ∀ k, g k = overwrite m (upTo bs n) k

theorem Spans.append (h : Spans bs b a f) (ha : a ≤ bs.length) (hb : b ≤ bs.length) :
    Spans (bs ++ cs) b a f := by
  obtain ⟨rest, hrest, hf⟩ := h
  exact ⟨rest, by rw [upTo_append ha, upTo_append hb, hrest], hf⟩

theorem CutAt.append (h : CutAt m bs n g) (hn : n ≤ bs.length) : CutAt m (bs ++ cs) n g := by
  intro k
  rw [upTo_append hn]
  exact h k

/-- A newer layer that starts at or below the cut moves the cut to its end. -/
theorem CutAt.add (hc : CutAt m bs n g) (hs : Spans bs b a f) (hb : b ≤ n) (ha : n ≤ a) :
    CutAt m bs a fun k => (f k).elim (g k) MemtableValue.live := by
  intro k
  obtain ⟨rest, hrest, hf⟩ := hs
  obtain ⟨mid, hmid⟩ := upTo_split bs hb
  obtain ⟨end_, hend⟩ := upTo_split bs ha
  have hsplit : rest = mid ++ end_ := by
    rw [hmid, append_assoc] at hend
    exact append_cancel_left (hrest.symm.trans hend)
  dsimp only
  rw [hrest, overwrite_append, overwrite, ← hf]
  cases hk : f k with
  | some v => rfl
  | none =>
    -- the layer does not have the key, so none of the blocks behind `b` has it
    have hnone : valueAt mid.reverse k = none := by
      have := (hf k).symm.trans hk
      rw [hsplit, reverse_append, valueAt_append, Option.or_eq_none_iff] at this
      exact this.2
    rw [hc k, hmid, overwrite_append, overwrite, hnone]
    rfl

/-- Files above a cut at `n`, newest first: each starts at or below the cut, and none ends above
those before it, or above `top`. -/
def Newer (bs : List (List Entry)) (n : Nat) : Nat → List (Numbered crc32) → Prop
  | _, [] => True
  | top, r :: rs => ∃ b a, b ≤ n ∧ n ≤ a ∧ a ≤ top ∧ Spans bs b a (valueAt r.2.entries) ∧ Newer bs n a rs

variable {rs : List (Numbered crc32)}

theorem Newer.mono {top'} (h : Newer bs n top rs) (hle : top ≤ top') : Newer bs n top' rs := by
  cases rs with
  | nil => trivial
  | cons r rs =>
    obtain ⟨b, a, hb, ha, htop, hs, hrs⟩ := h
    exact ⟨b, a, hb, ha, le_trans htop hle, hs, hrs⟩

theorem Newer.append (h : Newer bs n top rs) (htop : top ≤ bs.length) : Newer (bs ++ cs) n top rs := by
  induction rs generalizing top with
  | nil => trivial
  | cons r rs ih =>
    obtain ⟨b, a, hb, ha, hle, hs, hrs⟩ := h
    have hal : a ≤ bs.length := le_trans hle htop
    exact ⟨b, a, hb, ha, hle, hs.append hal (le_trans hb (le_trans ha hal)), ih hrs hal⟩

/-- Whichever of the files survive, they cut the calls at some number. -/
theorem Newer.cut {kept durable} (h : Newer bs n top rs) (hn : n ≤ top)
    (hkept : kept.Sublist rs) (hc : CutAt m bs n (lookup durable)) :
    ∃ a, n ≤ a ∧ a ≤ top ∧ CutAt m bs a (lookup (kept ++ durable)) := by
  induction hkept generalizing top with
  | slnil => exact ⟨n, le_rfl, hn, hc⟩
  | cons r _ ih =>
    obtain ⟨b, a, -, ha, hle, -, hrs⟩ := h
    obtain ⟨a', hna, haa, hcut⟩ := ih hrs ha
    exact ⟨a', hna, le_trans haa hle, hcut⟩
  | cons_cons r _ ih =>
    obtain ⟨b, a, hb, ha, hle, hs, hrs⟩ := h
    obtain ⟨a', hna, haa, hcut⟩ := ih hrs ha
    refine ⟨a, ha, hle, fun k => ?_⟩
    rw [cons_append, lookup_cons]
    exact hcut.add hs (le_trans hb hna) haa k

end

end Hearth.Storage
