import Hearth.Storage.Engine
import Hearth.Storage.Reload

/-!
# Runs of the engine

Writers, readers, flushes and compactions on one engine, with faults of the file
system at every point of a flush and of a commit. A flush takes the flush lock for
three steps; a compaction takes its snapshot and merges in one step and commits in
another, with writes, reads and flushes in between; a `get` that misses the hot
tier fills it in four steps.

`engine_refines_map`: without faults the six read operations agree with one map.
`failed_compaction_invisible`: with faults too, unless a partial commit fails halfway
or a compaction starts from a reader list that a failure has left behind the
directory; then a deleted key may come back (`partial_commit_stale_reader`).
-/

namespace Hearth.Storage

open Base Engine Function Memtable HotTier List

variable {crc32 : Bytes → Nat}

/-! ## Steps -/

/-- How far a flush has come. The flush lock is held until it ends. -/
inductive FlushPhase
  | idle
  | parked
  | registered

/-- How far a `get` that missed the hot tier has come: it holds a guard, it has found the memtable
without the key, or it has a value to promote. -/
inductive ReadPhase
  | idle
  | filling (fill : FillGuard) (realmId : RealmId) (key : Bytes)
  | missed (fill : FillGuard) (realmId : RealmId) (key : Bytes)
  | found (fill : FillGuard) (realmId : RealmId) (key data : Bytes)

/-- An engine with what its threads are doing, and the map of the writes so far. -/
structure EngineSys (crc32 : Bytes → Nat) where
  engine : Engine crc32
  flush : FlushPhase
  merging : Option (Merging crc32)
  reads : Nat → ReadPhase
  ref : CompositeKey → Option Bytes

/-- What a step is, as far as faults and rewritten keys go. `done` counts the directory operations
of a commit that succeeded. -/
inductive Event
  | write (writes : List Entry)
  | read
  | flush
  | flushFail (published : Bool)
  | beginFull
  | beginPartial
  | mergeFail
  | commit
  | commitFail (isPartial : Bool) (done : Nat)

inductive EngineStep : Event → EngineSys crc32 → EngineSys crc32 → Prop
  | put {s} (realmId : RealmId) (key value : Bytes) :
      EngineStep (.write [(⟨realmId, key⟩, .data value)]) s { s with
        engine := s.engine.put realmId key value
        ref := overwrite s.ref [(⟨realmId, key⟩, .data value)] }
  | delete {s} (realmId : RealmId) (key : Bytes) :
      EngineStep (.write [(⟨realmId, key⟩, .tombstone)]) s { s with
        engine := s.engine.delete realmId key
        ref := overwrite s.ref [(⟨realmId, key⟩, .tombstone)] }
  | putBatch {s} (realmId : RealmId) (entries : List (Bytes × Bytes)) :
      EngineStep (.write (puts realmId entries)) s { s with
        engine := s.engine.putBatch realmId entries
        ref := overwrite s.ref (puts realmId entries) }
  /-- A `get` or `get_uncached` at the hot tier. -/
  | readHot {s} (realmId : RealmId) (key : Bytes) : EngineStep .read s { s with
        engine := { s.engine with hotTier := (s.engine.hotTier.get realmId key).2 } }
  | beginFill {s} (i : Nat) (realmId : RealmId) (key : Bytes) :
      s.reads i = .idle → (s.engine.hotTier.get realmId key).1 = none →
      EngineStep .read s { s with
        reads := update s.reads i (.filling (s.engine.hotTier.beginFill realmId key) realmId key) }
  | readMemtable {s i fill realmId key} : s.reads i = .filling fill realmId key →
      EngineStep .read s { s with
        reads := update s.reads i (match s.engine.activeMemtable.getEntry realmId key with
          | some (.data data) => .found fill realmId key data
          | some .tombstone => .idle
          | none => .missed fill realmId key) }
  | readSst {s i fill realmId key} : s.reads i = .missed fill realmId key →
      EngineStep .read s { s with
        reads := update s.reads i (match sstGet s.engine.sstReaders realmId key with
          | some data => .found fill realmId key data
          | none => .idle) }
  | promote {s i fill realmId key data} : s.reads i = .found fill realmId key data →
      EngineStep .read s { s with
        engine := { s.engine with hotTier := s.engine.hotTier.promote fill realmId key data }
        reads := update s.reads i .idle }
  | park {s} : s.flush = .idle → s.engine.activeMemtable.data.isEmpty = false →
      EngineStep .flush s { s with
        engine := { s.engine with activeMemtable := s.engine.activeMemtable.park }
        flush := .parked }
  /-- The file of the parked map is published and the reader list reloaded. -/
  | register {s} {parked : MemtableMap} {file} :
      s.flush = .parked → s.engine.activeMemtable.flushing = some parked →
      Sst.write crc32 parked.toList (keySorted_toList parked) = .ok file →
      EngineStep .flush s { s with
        engine := { s.engine with
          dir := DirOp.apply s.engine.dir (.rename s.engine.sstCounter file)
          sstReaders := loadSstReaders (DirOp.apply s.engine.dir (.rename s.engine.sstCounter file))
            s.engine.sstReaders
          sstCounter := s.engine.sstCounter + 1 }
        flush := .registered }
  | dropParked {s} : s.flush = .registered → EngineStep .flush s { s with
        engine := { s.engine with activeMemtable := s.engine.activeMemtable.dropParked }
        flush := .idle }
  /-- A flush that fails before its file has its name. -/
  | flushFail {s} : s.flush = .parked → EngineStep (.flushFail false) s { s with
        engine := { s.engine with
          activeMemtable := s.engine.activeMemtable.reabsorb
          sstCounter := s.engine.sstCounter + 1 }
        flush := .idle }
  /-- A flush that fails to sync the directory or to reload the readers. -/
  | flushFailPublished {s} {parked : MemtableMap} {file} :
      s.flush = .parked → s.engine.activeMemtable.flushing = some parked →
      Sst.write crc32 parked.toList (keySorted_toList parked) = .ok file →
      EngineStep (.flushFail true) s { s with
        engine := { s.engine with
          activeMemtable := s.engine.activeMemtable.reabsorb
          dir := DirOp.apply s.engine.dir (.rename s.engine.sstCounter file)
          sstCounter := s.engine.sstCounter + 1 }
        flush := .idle }
  | beginFull {s minSstCount output} :
      s.merging = none → s.flush = .idle → minSstCount ≤ s.engine.sstReaders.length →
      (fullPlan s.engine.sstReaders s.engine.sstCounter).merge = .ok output →
      EngineStep .beginFull s { s with
        engine := { s.engine with sstCounter := s.engine.sstCounter + 1 }
        merging := some ⟨false, fullPlan s.engine.sstReaders s.engine.sstCounter, output⟩ }
  /-- A full compaction that fails in its merge has used up its number. -/
  | mergeFail {s} : s.merging = none → s.flush = .idle → EngineStep .mergeFail s { s with
        engine := { s.engine with sstCounter := s.engine.sstCounter + 1 } }
  | beginPartial {s mergeMin plan output} : s.merging = none →
      partialPlan s.engine.sstReaders mergeMin = some plan → plan.merge = .ok output →
      EngineStep .beginPartial s { s with merging := some ⟨true, plan, output⟩ }
  | commit {s m} : s.merging = some m → s.flush = .idle → EngineStep .commit s { s with
        engine := { s.engine with
          dir := applyOps s.engine.dir (m.plan.ops m.output)
          sstReaders := loadSstReaders (applyOps s.engine.dir (m.plan.ops m.output))
            (s.engine.sstReaders.filter fun r => r.1 ∉ m.plan.reopened) }
        merging := none }
  /-- A commit that fails after some of its operations leaves the reader list as it is. -/
  | commitFail {s m} (done : Nat) : s.merging = some m → s.flush = .idle →
      EngineStep (.commitFail m.isPartial done) s { s with
        engine := { s.engine with
          dir := applyOps s.engine.dir ((m.plan.ops m.output).take done) }
        merging := none }

/-- An engine that has just opened its directory and replayed its log. -/
structure EngineSys.Opened (s : EngineSys crc32) : Prop where
  descending : Descending s.engine.dir
  readers : s.engine.sstReaders = s.engine.dir
  counter : s.engine.sstCounter = nextNumber s.engine.dir
  unparked : s.engine.activeMemtable.flushing = none
  hotTier : ∃ config hashBuilder, s.engine.hotTier = .new config hashBuilder
  flush : s.flush = .idle
  merging : s.merging = none
  reads : ∀ i, s.reads i = .idle
  ref : s.ref = s.engine.value

def StepWith (allowed : Event → EngineSys crc32 → Prop) (s t : EngineSys crc32) : Prop :=
  ∃ ev, allowed ev s ∧ EngineStep ev s t

/-- No operation on the file system fails. -/
def Event.faultFree : Event → Bool
  | .flushFail published => !published
  | .commitFail _ done => done = 0
  | _ => true

/-- A compaction takes its snapshot only while every file missing from the reader list is newer than
the listed ones, a partial one only while no listed file is missing, and a partial commit that fails
has unlinked nothing. -/
def Careful (ev : Event) (s : EngineSys crc32) : Prop :=
  match ev with
  | .beginFull => ListedNewest s.engine.dir s.engine.sstReaders
  | .beginPartial => ListedNewest s.engine.dir s.engine.sstReaders ∧
      Complete s.engine.dir s.engine.sstReaders
  | .commitFail true done => done ≤ 1
  | _ => True

def Event.rewrites (ev : Event) (k : CompositeKey) : Prop :=
  match ev with
  | .write writes => k ∈ writes.map Prod.fst
  | _ => False

/-! ## The invariant -/

/-- The memtable has no entry for the key. -/
def Engine.absent (e : Engine crc32) (k : CompositeKey) : Prop :=
  layered e.activeMemtable.layers k = none

namespace EngineSys

/-- The directory and the readers answer for the keys that the memtable does not hold. -/
def StackOk (s : EngineSys crc32) : Prop :=
  Stack (Answers s.engine.absent s.ref) s.engine.dir s.engine.sstReaders s.engine.sstCounter
    s.merging

/-- Once a flush has registered its file, the file is the newest reader and stands for the parked
map. A full compaction under way took its number before. -/
structure Registered (s : EngineSys crc32) (parked : MemtableMap) (r : Numbered crc32)
    (older : List (Numbered crc32)) : Prop where
  flushing : s.engine.activeMemtable.flushing = some parked
  readers : s.engine.sstReaders = r :: older
  inStep : loadSstReaders s.engine.dir s.engine.sstReaders = s.engine.sstReaders
  entries : ∀ k, valueAt r.2.entries k = parked[k]?
  newest : ∀ m, s.merging = some m → m.isPartial = false → m.plan.number < r.1

def FlushOk (s : EngineSys crc32) : Prop :=
  match s.flush with
  | .idle => s.engine.activeMemtable.flushing = none
  | .parked => True
  | .registered => ∃ parked r older, s.Registered parked r older

/-- A read under way: unless its shard has been invalidated since, what it has found still holds. -/
def ReadOk (s : EngineSys crc32) : ReadPhase → Prop
  | .idle => True
  | .filling fill realmId key => fill.epoch ≤ s.engine.hotTier.epoch ⟨realmId, key⟩
  | .missed fill realmId key => fill.epoch ≤ s.engine.hotTier.epoch ⟨realmId, key⟩ ∧
      (s.engine.hotTier.epoch ⟨realmId, key⟩ = fill.epoch → s.engine.absent ⟨realmId, key⟩)
  | .found fill realmId key data => fill.epoch ≤ s.engine.hotTier.epoch ⟨realmId, key⟩ ∧
      (s.engine.hotTier.epoch ⟨realmId, key⟩ = fill.epoch → s.ref ⟨realmId, key⟩ = some data)

structure Inv (s : EngineSys crc32) : Prop where
  represents : s.engine.Represents s.ref
  stack : s.StackOk
  flush : s.FlushOk
  reads : ∀ i, s.ReadOk (s.reads i)

end EngineSys

section

variable {e e' : Engine crc32} {m : CompositeKey → Option Bytes} {s t : EngineSys crc32}

/-- The memtable decides about the keys it holds, the readers about the others. -/
theorem represents_of_serves (h : e.Represents m)
    (hmem : ∀ k, layered e'.activeMemtable.layers k = none ∨
      layered e'.activeMemtable.layers k = layered e.activeMemtable.layers k)
    (hhot : e'.hotTier = e.hotTier) (hs : Serves (Answers e'.absent m) e'.sstReaders) :
    e'.Represents m := by
  refine ⟨fun k => ?_, hhot ▸ h.hot⟩
  rw [value_eq]
  cases hk : layered e'.activeMemtable.layers k with
  | none => exact hs k hk
  | some v =>
    rw [← h.value, value_eq]
    rcases hmem k with hnone | heq
    · rw [hnone] at hk
      cases hk
    · rw [← heq, hk]
      rfl

theorem represents_serves (h : e.Represents m) : Serves (Answers e.absent m) e.sstReaders := by
  intro k hk
  have hv := h.value k
  rw [value_eq, hk] at hv
  exact hv

/-- Reads under way survive a step that moves the epoch of every key it changes. -/
theorem readOk_frame (hepoch : ∀ k, s.engine.hotTier.epoch k ≤ t.engine.hotTier.epoch k)
    (hframe : ∀ k, t.engine.hotTier.epoch k = s.engine.hotTier.epoch k →
      (s.engine.absent k → t.engine.absent k) ∧ t.ref k = s.ref k) {p}
    (h : s.ReadOk p) : t.ReadOk p := by
  have hsame : ∀ {k : CompositeKey} {n : Nat}, n ≤ s.engine.hotTier.epoch k →
      t.engine.hotTier.epoch k = n →
      s.engine.hotTier.epoch k = n ∧ t.engine.hotTier.epoch k = s.engine.hotTier.epoch k := by
    intro k n hle heq
    have hle' := hepoch k
    rw [heq] at hle' ⊢
    exact ⟨le_antisymm hle' hle, le_antisymm hle hle'⟩
  cases p with
  | idle => trivial
  | filling fill realmId key => exact le_trans h (hepoch _)
  | missed fill realmId key =>
    refine ⟨le_trans h.1 (hepoch _), fun heq => ?_⟩
    obtain ⟨hs, ht⟩ := hsame h.1 heq
    exact (hframe _ ht).1 (h.2 hs)
  | found fill realmId key data =>
    refine ⟨le_trans h.1 (hepoch _), fun heq => ?_⟩
    obtain ⟨hs, ht⟩ := hsame h.1 heq
    rw [(hframe _ ht).2]
    exact h.2 hs

/-- The flush under way stands as before, and no full compaction has begun. -/
theorem flushOk_same (h : s.FlushOk) (hflush : t.flush = s.flush)
    (hmem : t.engine.activeMemtable.flushing = s.engine.activeMemtable.flushing)
    (hdir : t.engine.dir = s.engine.dir) (hreads : t.engine.sstReaders = s.engine.sstReaders)
    (hmerging : ∀ m, t.merging = some m → m.isPartial = false → s.merging = some m) : t.FlushOk := by
  unfold EngineSys.FlushOk at h ⊢
  rw [hflush]
  cases hp : s.flush with
  | idle =>
    rw [hp] at h
    exact hmem.trans h
  | parked => trivial
  | registered =>
    rw [hp] at h
    obtain ⟨parked, r, older, hr⟩ := h
    refine ⟨parked, r, older, hmem.trans hr.flushing, hreads.trans hr.readers, ?_, hr.entries,
      fun m hm hfull => hr.newest m (hmerging m hm hfull) hfull⟩
    rw [hdir, hreads]
    exact hr.inStep

end

/-! ## Steps keep it -/

section

variable {s t : EngineSys crc32} {realmId : RealmId} {i : Nat} {mt : Memtable} {parked : MemtableMap} {file : Sst crc32}

theorem write_inv (h : s.Inv) {e' keys writes} (hw : Wrote s.engine e' realmId keys writes) :
    EngineSys.Inv { s with engine := e', ref := overwrite s.ref writes } := by
  have hkeep : ∀ k, e'.absent k → s.engine.absent k ∧ overwrite s.ref writes k = s.ref k := by
    intro k hk
    have hnone : (valueAt writes.reverse k).or (layered s.engine.activeMemtable.layers k) = none :=
      (hw.layered k).symm.trans hk
    rw [Option.or_eq_none_iff] at hnone
    refine ⟨hnone.2, ?_⟩
    rw [overwrite, hnone.1]
    rfl
  refine ⟨h.represents.write hw, ?_, ?_, fun i => readOk_frame (fun k => ?_) (fun k hk => ?_) (h.reads i)⟩
  · have hstack := h.stack.shrink hkeep
    show Stack (Answers e'.absent (overwrite s.ref writes)) e'.dir e'.sstReaders e'.sstCounter
      s.merging
    rw [hw.dir, hw.sstReaders, hw.sstCounter]
    exact hstack
  · exact flushOk_same h.flush rfl hw.flushing hw.dir hw.sstReaders fun _ hm _ => hm
  · show _ ≤ e'.hotTier.epoch k
    rw [hw.hotTier]
    exact (epoch_invalidateAll _ _ _ keys).1
  · -- an unchanged epoch means that the key was not written
    have hnone : valueAt writes.reverse k = none := by
      refine hw.valueAt_none fun key hkey heq => ?_
      have hlt := (epoch_invalidateAll s.engine.hotTier _ k keys).2 key hkey heq
      rw [← hw.hotTier] at hlt
      exact absurd hk (ne_of_gt hlt)
    refine ⟨fun habs => ?_, ?_⟩
    · show layered e'.activeMemtable.layers k = none
      rw [hw.layered, hnone]
      exact habs
    · show overwrite s.ref writes k = s.ref k
      rw [overwrite, hnone]
      rfl

/-- A change of the cache that keeps it coherent and moves no epoch. -/
theorem hot_inv (h : s.Inv) {hot} (hcoh : hot.Coherent s.ref)
    (hepoch : ∀ k, hot.epoch k = s.engine.hotTier.epoch k) {reads}
    (hreads : ∀ i, s.ReadOk (reads i)) :
    EngineSys.Inv { s with engine := { s.engine with hotTier := hot }, reads := reads } := by
  refine ⟨⟨h.represents.value, hcoh⟩, h.stack, flushOk_same h.flush rfl rfl rfl rfl fun _ hm _ => hm,
    fun i => readOk_frame (fun k => ?_) (fun k _ => ?_) (hreads i)⟩
  · exact le_of_eq (hepoch k).symm
  · exact ⟨id, rfl⟩

/-- One reader moves on. -/
theorem readOk_update {reads} (h : ∀ i, s.ReadOk (reads i))
    {p} (hp : s.ReadOk p) : ∀ j, s.ReadOk (update reads i p j) :=
  forall_update hp fun j _ => h j

theorem reads_inv (h : s.Inv) {p} (hp : s.ReadOk p) :
    EngineSys.Inv { s with reads := update s.reads i p } :=
  hot_inv h h.represents.hot (fun _ => rfl) (readOk_update h.reads hp)

theorem readStep_inv (h : s.Inv) (hst : EngineStep .read s t) : t.Inv := by
  cases hst with
  | readHot realmId key =>
    exact hot_inv h h.represents.hot.get (fun k => (get_frame _ _ _ k).2) h.reads
  | beginFill i realmId key _ _ => exact reads_inv h le_rfl
  | @readMemtable _ i fill realmId key hr =>
    have hread := h.reads i
    rw [hr] at hread
    have hstore := h.represents.getEntry realmId key
    refine reads_inv h ?_
    cases hg : s.engine.activeMemtable.getEntry realmId key with
    | none =>
      rw [getEntry_eq] at hg
      exact ⟨hread, fun _ => hg⟩
    | some v =>
      rw [hg] at hstore
      cases v with
      | data d => exact ⟨hread, fun _ => hstore⟩
      | tombstone => trivial
  | @readSst _ i fill realmId key hr =>
    have hread := h.reads i
    rw [hr] at hread
    refine reads_inv h ?_
    cases hg : sstGet s.engine.sstReaders realmId key with
    | none => trivial
    | some d =>
      refine ⟨hread.1, fun heq => ?_⟩
      rw [← represents_serves h.represents _ (hread.2 heq), ← sstGet_eq]
      exact hg
  | @promote _ i _ _ _ _ hr =>
    have hread := h.reads i
    rw [hr] at hread
    exact hot_inv h (h.represents.hot.promote hread.2) (fun k => promote_epoch _ _ _ k _ _)
      (readOk_update h.reads trivial)

/-! ### Flushes and compactions -/

/-- A step on the memtable, the directory and the reader list that leaves the cache and the map. -/
theorem stack_inv (h : s.Inv) {dir readers : List (Numbered crc32)} {counter : Nat}
    {flush : FlushPhase} {merging : Option (Merging crc32)}
    (hmem : ∀ k, layered mt.layers k = none ∨
      layered mt.layers k = layered s.engine.activeMemtable.layers k)
    (hstack : Stack (Answers (fun k => layered mt.layers k = none) s.ref) dir readers counter
      merging)
    (hflush : EngineSys.FlushOk { s with
      engine := { s.engine with
        activeMemtable := mt, dir := dir, sstReaders := readers, sstCounter := counter }
      flush := flush, merging := merging }) :
    EngineSys.Inv { s with
      engine := { s.engine with
        activeMemtable := mt, dir := dir, sstReaders := readers, sstCounter := counter }
      flush := flush, merging := merging } := by
  refine ⟨represents_of_serves h.represents hmem rfl hstack.serves, hstack, hflush, fun i => ?_⟩
  refine readOk_frame ?_ (fun k _ => ?_) (h.reads i)
  · exact fun _ => le_rfl
  · refine ⟨fun hk => ?_, rfl⟩
    rcases hmem k with hnone | heq
    · exact hnone
    · exact heq.trans hk

theorem layered_park (h : mt.flushing = none) (k) : layered mt.park.layers k = layered mt.layers k := by
  rw [← getEntry_eq, ← getEntry_eq, park_getEntry h]

theorem layered_reabsorb (mt : Memtable) (k) : layered mt.reabsorb.layers k = layered mt.layers k := by
  rw [← getEntry_eq, ← getEntry_eq, reabsorb_getEntry]

theorem flushing_reabsorb (mt : Memtable) : mt.reabsorb.flushing = none := by
  unfold reabsorb
  split
  · next hf => exact hf
  · rfl

theorem layered_dropParked (h : mt.flushing = some parked)
    (k) : layered mt.dropParked.layers k = mt.data[k]? ∧
      layered mt.layers k = (mt.data[k]?).or parked[k]? := by
  unfold dropParked Memtable.layers
  rw [h]
  simp [layered_cons, layered_nil, valueAt_toList]

theorem parked_file (h : mt.flushing = some parked)
    (hw : Sst.write crc32 parked.toList (keySorted_toList parked) = .ok file) :
    (∀ k, valueAt file.entries k = parked[k]?) ∧
    ∀ {ref} k v, valueAt file.entries k = some v →
      Answers (fun k => layered mt.layers k = none) ref k v.live := by
  have hval : ∀ k, valueAt file.entries k = parked[k]? := fun k => by
    rw [Sst.entries_write hw, valueAt_toList]
  refine ⟨hval, fun k v hv hk => ?_⟩
  replace hk := (layered_dropParked h k).2.symm.trans hk
  rw [Option.or_eq_none_iff, ← hval, hv] at hk
  cases hk.2

section

variable (h : s.Inv)

include h

theorem dropParked_inv (hp : s.flush = .registered) : EngineSys.Inv { s with
      engine := { s.engine with activeMemtable := s.engine.activeMemtable.dropParked }
      flush := .idle } := by
  have hflush := h.flush
  rw [EngineSys.FlushOk, hp] at hflush
  obtain ⟨parked, r, older, hr⟩ := hflush
  have hmem := layered_dropParked hr.flushing
  have hread : r ∈ s.engine.sstReaders := hr.readers ▸ mem_cons_self
  refine stack_inv h (fun k => ?_) (h.stack.drop hr.inStep hread (fun k hnone _ hx hk => hx ?_) hr.newest
    fun k hk => ?_) rfl
  · rw [(hmem k).1, (hmem k).2]
    cases s.engine.activeMemtable.data[k]? with
    | none => exact .inl rfl
    | some v => exact .inr rfl
  · show layered _ k = none
    replace hk := (hmem k).1.symm.trans hk
    rw [hr.entries] at hnone
    rw [(hmem k).2, hk, hnone]
    rfl
  · -- the registered file answers for the parked keys
    replace hk := (hmem k).1.symm.trans hk
    have hv := h.represents.value k
    rw [value_eq, (hmem k).2, hk] at hv
    rw [← hv, hr.readers, lookup_cons, hr.entries]
    cases parked[k]? <;> rfl

theorem flushStep_inv (hst : EngineStep .flush s t) : t.Inv := by
  have hflush := h.flush
  cases hst with
  | park hp _ =>
    rw [EngineSys.FlushOk, hp] at hflush
    refine stack_inv h (fun k => .inr (layered_park hflush k)) (h.stack.shrink fun k hk => ⟨?_, rfl⟩)
      trivial
    exact (layered_park hflush k).symm.trans hk
  | @register _ parked file _ hf hw =>
    obtain ⟨hval, hfile⟩ := parked_file hf hw
    have hstack := h.stack.register hfile
    refine stack_inv h (fun k => .inr rfl) hstack
      ⟨parked, (s.engine.sstCounter, file), loadSstReaders _ _, hf,
        h.stack.reload_publish file, loadSstReaders_idem hstack.dirDescending _, hval, fun m hm hfull => ?_⟩
    cases h.stack.mergeOk m hm with
    | part => cases hfull
    | full _ hok => exact hok.bound
  | dropParked hp => exact dropParked_inv h hp

/-- A failed flush gives the parked map back. -/
theorem reabsorb_inv {dir counter}
    (hstack : Stack (Answers s.engine.absent s.ref) dir s.engine.sstReaders counter s.merging) :
    EngineSys.Inv { s with
      engine := { s.engine with
        activeMemtable := s.engine.activeMemtable.reabsorb, dir := dir, sstCounter := counter }
      flush := .idle } := by
  refine stack_inv h (fun k => .inr (layered_reabsorb _ k)) (hstack.shrink fun k hk => ⟨?_, rfl⟩)
    (flushing_reabsorb _)
  exact (layered_reabsorb _ k).symm.trans hk

/-- A compaction starts, commits or fails with the flush lock free. -/
theorem idle_inv (hp : s.flush = .idle) {dir readers : List (Numbered crc32)} {counter : Nat}
    {merging : Option (Merging crc32)}
    (hstack : Stack (Answers s.engine.absent s.ref) dir readers counter merging) :
    EngineSys.Inv { s with
      engine := { s.engine with dir := dir, sstReaders := readers, sstCounter := counter }
      merging := merging } := by
  refine stack_inv h (fun k => .inr rfl) hstack ?_
  have hflush := h.flush
  rw [EngineSys.FlushOk, hp] at hflush
  rw [hp]
  exact hflush

end

end

theorem engine_step_inv {ev : Event} {s t : EngineSys crc32} (h : s.Inv) (hc : Careful ev s)
    (hst : EngineStep ev s t) : t.Inv := by
  have hstack := h.stack
  cases hev : hst with
  | put realmId key value => exact write_inv h (put_wrote _ _ key _)
  | delete realmId key => exact write_inv h (delete_wrote _ _ key)
  | putBatch realmId entries => exact write_inv h (putBatch_wrote _ _ _)
  | readHot | beginFill | readMemtable | readSst | promote => exact readStep_inv h hst
  | park | register | dropParked => exact flushStep_inv h hst
  | flushFail _ => exact reabsorb_inv h hstack.burn
  | flushFailPublished _ hf hw => exact reabsorb_inv h (hstack.publish (parked_file hf hw).2)
  | beginFull hm hp _ hout =>
    rw [EngineSys.StackOk, hm] at hstack
    exact idle_inv h hp (hstack.beginFull hc hout)
  | mergeFail _ hp => exact idle_inv h hp hstack.burn
  | beginPartial hm hplan hout =>
    -- the snapshot may be taken while a flush runs
    rw [EngineSys.StackOk, hm] at hstack
    refine stack_inv h (fun k => .inr rfl) (hstack.beginPartial hc.1 hc.2 hplan hout)
      (flushOk_same h.flush rfl rfl rfl rfl fun m hm' hfull => ?_)
    cases hm'
    cases hfull
  | commit hm hp =>
    rw [EngineSys.StackOk, hm] at hstack
    exact idle_inv h hp hstack.commit
  | @commitFail _ m done hm hp =>
    rw [EngineSys.StackOk, hm] at hstack
    refine idle_inv h hp ?_
    cases hstack.mergeOk m rfl with
    | part => exact hstack.partialFail hc
    | full => exact hstack.fullFail done

theorem engine_opened_inv {s : EngineSys crc32} (h : s.Opened) : s.Inv := by
  have hrep : s.engine.Represents s.ref := by
    obtain ⟨config, hashBuilder, hhot⟩ := h.hotTier
    refine ⟨fun k => h.ref ▸ rfl, ?_⟩
    rw [hhot]
    exact coherent_new _ _ _
  refine ⟨hrep, ?_, ?_, fun i => ?_⟩
  · rw [EngineSys.StackOk, h.readers, h.counter, h.merging]
    exact stack_opened h.descending (h.readers ▸ represents_serves hrep)
  · rw [EngineSys.FlushOk, h.flush]
    exact h.unparked
  · rw [h.reads i]
    trivial

/-- The state after every run that keeps to the condition. -/
theorem careful_inv {s : EngineSys crc32} (h : Reachable EngineSys.Opened (StepWith Careful) s) :
    s.Inv :=
  h.preserves engine_opened_inv engine_step_inv

/-! ## Runs without faults -/

section

variable {s t : EngineSys crc32} {ev : Event}

/-- A reader list that is the directory meets the condition. -/
theorem faultFree_careful (hd : s.engine.sstReaders = s.engine.dir) (hf : ev.faultFree = true) :
    Careful ev s := by
  have hl : ListedNewest s.engine.dir s.engine.sstReaders := by
    intro r hr hn
    rw [hd] at hn
    exact absurd (mem_map_of_mem hr) hn
  cases ev with
  | beginFull => exact hl
  | beginPartial => exact ⟨hl, fun q hq => mem_map_of_mem (hd ▸ hq)⟩
  | commitFail isPartial done =>
    cases isPartial with
    | false => trivial
    | true =>
      have h0 : done = 0 := of_decide_eq_true hf
      rw [h0]
      exact Nat.zero_le 1
  | write | read | flush | flushFail | mergeFail | commit => trivial

theorem faultFree_inStep (hi : s.Inv) (hd : s.engine.sstReaders = s.engine.dir)
    (hf : ev.faultFree = true) (hst : EngineStep ev s t) : t.engine.sstReaders = t.engine.dir := by
  have hdesc := hi.stack.dirDescending
  cases hst with
  | @register _ parked file _ _ _ =>
    have hcons := apply_rename_top hi.stack.dirBound file
    refine loadSstReaders_eq fun r hr u hu hn => ?_
    refine (hdesc.rename _ file).eq_of_number ?_ hr hn
    rw [hcons]
    exact mem_cons_of_mem _ (hd ▸ hu)
  | flushFailPublished => cases hf
  | @commit _ m hm _ =>
    refine loadSstReaders_eq fun r hr u hu hn => ?_
    obtain ⟨hin, hkept⟩ := mem_filter.1 hu
    rcases mem_applyOps hr with hren | hr
    · have hnum := hn.trans (rename_mem_ops hren).1
      have hout : u.1 ∉ m.plan.reopened := of_decide_eq_true hkept
      cases hi.stack.mergeOk m hm with
      | full _ hok => exact absurd (mem_map.2 ⟨u, hin, hnum⟩) hok.unlisted
      | part hplan =>
        obtain ⟨-, run, -, -, -, -, -, -, hopen, -⟩ := partialPlan_spec hplan
        rw [hnum, hopen] at hout
        exact absurd mem_cons_self hout
    · exact hdesc.eq_of_number (hd ▸ hin) hr hn
  | commitFail done _ _ =>
    have h0 : done = 0 := of_decide_eq_true hf
    rw [h0]
    exact hd
  | put | delete | putBatch | readHot | beginFill | readMemtable | readSst | promote | park
  | dropParked | flushFail | beginFull | mergeFail | beginPartial => exact hd

theorem faultFree_inv (h : Reachable EngineSys.Opened (StepWith fun ev _ => ev.faultFree = true) s) :
    s.Inv ∧ s.engine.sstReaders = s.engine.dir :=
  h.invariant (I := fun s => s.Inv ∧ s.engine.sstReaders = s.engine.dir) (fun _ h0 => ⟨engine_opened_inv h0, h0.readers⟩) fun _ _ _ hi ⟨_, hf, hst⟩ =>
    ⟨engine_step_inv hi.1 (faultFree_careful hi.2 hf) hst, faultFree_inStep hi.1 hi.2 hf hst⟩

/-- A step that does not write a key leaves its value in the map. -/
theorem ref_of_not_rewrites (hst : EngineStep ev s t) {k} (h : ¬ev.rewrites k) : t.ref k = s.ref k := by
  have hwrite : ∀ writes : List Entry, k ∉ writes.map Prod.fst → overwrite s.ref writes k = s.ref k := by
    intro writes hk
    have hnone : valueAt writes.reverse k = none := valueAt_eq_none.2 fun w hw heq =>
      hk (heq ▸ mem_map_of_mem (mem_reverse.1 hw))
    rw [overwrite, hnone]
    rfl
  cases hst with
  | put | delete | putBatch => exact hwrite _ h
  | readHot | beginFill | readMemtable | readSst | promote | park | register | dropParked | flushFail
  | flushFailPublished | beginFull | mergeFail | beginPartial | commit | commitFail => rfl

end

/-! ## A small engine

For runs on concrete files: a key that is deleted in the second file, and one write in the
memtable. -/

def demoRealm : RealmId := .nil

def demoMemtable : Memtable := Memtable.new.put demoRealm [9] [4]

def demoHotTier : HotTier := .new ⟨16, 1⟩ .inOrder

def demoSys : EngineSys fun _ => 0 :=
  let engine : Engine fun _ => 0 := ⟨demoMemtable, deletedKeyDir, deletedKeyDir, 3, demoHotTier⟩
  ⟨engine, .idle, none, fun _ => .idle, engine.value⟩

theorem demoSys_opened : demoSys.Opened :=
  ⟨by unfold demoSys deletedKeyDir; simp [Descending], rfl, rfl, rfl, ⟨_, _, rfl⟩, rfl, rfl,
    fun _ => rfl, rfl⟩

theorem demo_file : ∃ file, Sst.write (fun _ => 0) demoMemtable.data.toList
    (keySorted_toList demoMemtable.data) = .ok file :=
  exists_ok_of_isOk (by decide +kernel)

theorem demo_unflushed : demoMemtable.data.isEmpty = false := by decide +kernel

theorem demo_get : (demoSys.engine.get demoRealm [7]).1 = none := by decide +kernel

/-! ## Results -/

/-- In every state of every run without faults, point reads return the value of the map of the
writes, and all range reads return or visit one list: the realm's live keys of the window in strictly
ascending order, with the map's values. -/
theorem engine_refines_map {s : EngineSys crc32}
    (h : Reachable EngineSys.Opened (StepWith fun ev _ => ev.faultFree = true) s)
    (realmId : RealmId) :
    (∀ key, (s.engine.get realmId key).1 = s.ref ⟨realmId, key⟩ ∧
      (s.engine.getUncached realmId key).1 = s.ref ⟨realmId, key⟩) ∧
    (∀ start stop, start ≤ stop → ∃ l, IsWindow s.ref realmId start stop l ∧
      s.engine.scan realmId start stop = .ok l ∧
      s.engine.scanKeys realmId start stop = .ok (l.map Prod.fst) ∧
      (∀ {S : Type} (visit : S → Bytes → ForInStep S) (a : S),
        s.engine.visitKeys realmId start stop visit a =
          .ok (some (visitList (fun a key _ => visit a key) l a))) ∧
      ∀ {S : Type} (visit : S → Bytes → Bytes → ForInStep S) (a : S),
        s.engine.visitEntries realmId start stop visit a = .ok (some (visitList visit l a))) ∧
    ∀ start stop, stop < start → s.engine.scan realmId start stop = .error .invalidRange ∧
      s.engine.scanKeys realmId start stop = .error .invalidRange ∧
      (∀ {S : Type} (visit : S → Bytes → ForInStep S) (a : S),
        s.engine.visitKeys realmId start stop visit a = .error .invalidRange) ∧
      ∀ {S : Type} (visit : S → Bytes → Bytes → ForInStep S) (a : S),
        s.engine.visitEntries realmId start stop visit a = .error .invalidRange := by
  have hrep := (faultFree_inv h).1.represents
  refine ⟨fun key => ⟨hrep.get_eq, hrep.getUncached_eq⟩, fun start stop hle => ?_, fun start stop hlt =>
    ⟨if_pos hlt, if_pos hlt, fun _ _ => if_pos hlt, fun _ _ => if_pos hlt⟩⟩
  obtain ⟨l, hscan, hl⟩ := hrep.scan_eq _ hle
  obtain ⟨l1, hkeys, hl1⟩ := hrep.scanKeys_eq _ hle
  obtain ⟨l2, hl2, hvisit⟩ := hrep.visitKeys_eq _ hle
  obtain ⟨l3, hl3, hents⟩ := hrep.visitEntries_eq _ hle
  rw [hl1.unique hl] at hkeys
  rw [hl2.unique hl] at hvisit
  rw [hl3.unique hl] at hents
  exact ⟨l, hl, hscan, hkeys, hvisit, hents⟩

theorem engine_refines_map_put : ∃ s : EngineSys fun _ => 0,
    Reachable EngineSys.Opened (StepWith fun ev _ => ev.faultFree = true) s ∧
    (s.engine.get demoRealm [7]).1 = some [5] ∧
    ∃ l, s.engine.scan demoRealm [] [8] = .ok l ∧ ([7], [5]) ∈ l := by
  have h0 : Reachable EngineSys.Opened (StepWith fun ev _ => ev.faultFree = true) demoSys :=
    .start demoSys_opened
  have h := h0.next ⟨_, rfl, .put demoRealm [7] [5]⟩
  obtain ⟨hpoint, hrange, -⟩ := engine_refines_map h _
  obtain ⟨l, hl, hscan, -⟩ := hrange [] [8] (by decide)
  exact ⟨_, h, (hpoint [7]).1, l, hscan, (hl.mem _ _).2 ⟨by decide, by decide, rfl⟩⟩

/-- Between any two states of a run that keeps to the condition, whatever fails in between, a key
that is not rewritten reads the same. -/
theorem failed_compaction_invisible {s t : EngineSys crc32} (realmId : RealmId) (key : Bytes)
    (h : Reachable EngineSys.Opened (StepWith Careful) s)
    (hrun : Reachable (· = s)
      (StepWith fun ev a => Careful ev a ∧ ¬ev.rewrites ⟨realmId, key⟩) t) :
    (t.engine.get realmId key).1 = (s.engine.get realmId key).1 := by
  have hboth : t.Inv ∧ t.ref ⟨realmId, key⟩ = s.ref ⟨realmId, key⟩ := by
    refine hrun.invariant (I := fun u => u.Inv ∧ u.ref ⟨realmId, key⟩ = s.ref _)
      (fun u hu => ?_) fun u v _ hi ⟨ev, ⟨hc, hkeep⟩, hst⟩ =>
        ⟨engine_step_inv hi.1 hc hst, (ref_of_not_rewrites hst hkeep).trans hi.2⟩
    rw [hu]
    exact ⟨careful_inv h, rfl⟩
  rw [hboth.1.represents.get_eq, (careful_inv h).represents.get_eq, hboth.2]

/-- A full compaction fails after its first unlink, and a flush reloads the readers. -/
theorem failed_compaction_invisible_unlink : ∃ t : EngineSys fun _ => 0,
    t.engine.sstReaders.map Prod.fst = [4, 3, 2] ∧ (t.engine.get demoRealm [7]).1 = none := by
  have hfull : (fullPlan demoSys.engine.sstReaders 3).merge.isOk = true := by decide +kernel
  obtain ⟨output, hout⟩ := exists_ok_of_isOk hfull
  obtain ⟨file, hfile⟩ := demo_file
  have h0 : Reachable (· = demoSys) (StepWith fun ev a => Careful ev a ∧ ¬ev.rewrites ⟨demoRealm, [7]⟩)
      demoSys := .start rfl
  have h1 := h0.next ⟨_, ⟨faultFree_careful rfl rfl, id⟩, .beginFull rfl rfl (Nat.zero_le _) hout⟩
  have h2 := h1.next ⟨.commitFail false 2, ⟨trivial, id⟩,
    .commitFail (m := ⟨false, fullPlan _ 3, output⟩) 2 rfl rfl⟩
  have h3 := h2.next ⟨.flush, ⟨trivial, id⟩, .park rfl demo_unflushed⟩
  have h4 := h3.next ⟨.flush, ⟨trivial, id⟩, .register rfl rfl hfile⟩
  exact ⟨_, rfl, (failed_compaction_invisible _ [7] (.start demoSys_opened) h4).trans demo_get⟩

/-- A partial compaction of both files fails after its unlink: the directory has the merged file
under number 1, the list still has the reader of the file it replaced, and the flush keeps it. -/
theorem partial_commit_stale_reader : ∃ t : EngineSys fun _ => 0,
    demoSys.Opened ∧ (demoSys.engine.get demoRealm [7]).1 = none ∧
    Reachable (· = demoSys) (StepWith fun ev _ => ¬ev.rewrites ⟨demoRealm, [7]⟩) t ∧
    (t.engine.get demoRealm [7]).1 = some [1] := by
  have hplan : partialPlan demoSys.engine.sstReaders 2 =
      some ⟨1, deletedKeyDir, true, [2], [1, 2]⟩ := rfl
  have hmerge : (CompactPlan.mk 1 deletedKeyDir true [2] [1, 2]).merge.isOk = true := by decide +kernel
  obtain ⟨output, hout⟩ := exists_ok_of_isOk hmerge
  obtain ⟨file, hfile⟩ := demo_file
  have h0 : Reachable (· = demoSys) (StepWith fun ev _ => ¬ev.rewrites ⟨demoRealm, [7]⟩) demoSys :=
    .start rfl
  have h1 := h0.next ⟨.beginPartial, id, .beginPartial rfl hplan hout⟩
  have h2 := h1.next ⟨.commitFail true 2, id,
    .commitFail (m := ⟨true, ⟨1, deletedKeyDir, true, [2], [1, 2]⟩, output⟩) 2 rfl rfl⟩
  have h3 := h2.next ⟨.flush, id, .park rfl demo_unflushed⟩
  have h4 := h3.next ⟨.flush, id, .register rfl rfl hfile⟩
  refine ⟨_, demoSys_opened, demo_get, h4, ?_⟩
  have hhot : (demoHotTier.get demoRealm [7]).1 = none :=
    (get_eq _ _ _).trans (cached_new _ _ _)
  have hmem : demoMemtable.park.getEntry demoRealm [7] = none := by decide +kernel
  have hnew : valueAt file.entries ⟨demoRealm, [7]⟩ = none := by
    rw [Sst.entries_write hfile]
    decide +kernel
  have hold : lookup (deletedKeyDir.drop 1) ⟨demoRealm, [7]⟩ = some [1] := by decide +kernel
  refine (get_of_absent hhot hmem).trans ((sstGet_eq _ _ _).trans ?_)
  show lookup ((3, file) :: deletedKeyDir.drop 1) ⟨demoRealm, [7]⟩ = some [1]
  rw [lookup_cons, hnew]
  exact hold

end Hearth.Storage
