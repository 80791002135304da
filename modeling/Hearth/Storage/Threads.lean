import Hearth.Cluster.StateMachine
import Hearth.Storage.EngineRuns
import Hearth.Storage.Store

/-!
# Threads on one engine

The engine as its threads see it: every look into a layer, every section under a lock and
every atomic operation is a step of its own. A skip list lives behind a pointer and changes
under the readers that hold the pointer.

A write applies its entries and invalidates the hot tier inside the critical section of the
log, in which one thread is at a time. A point read looks into the hot tier, the active map,
the parked map and the files, in this order; a walk loads the pointers of both maps before
it reads either.
-/

namespace Hearth.Storage

open Base Engine Function List
open Cluster (decodeU64Counter u64Max)

variable {crc32 : Bytes → Nat}

/-! ## The halves of an invalidation -/

namespace HotTier

/-- The epoch of the key's shard moves, with no lock held. -/
def bumpEpoch (t : HotTier) (k : CompositeKey) : HotTier :=
  t.setShard k { t.shardOf k with invalidationEpoch := (t.shardOf k).invalidationEpoch + 1 }

/-- The entry is removed, under the lock of the shard. -/
def removeEntry (t : HotTier) (k : CompositeKey) : HotTier :=
  t.setShard k { t.shardOf k with data := (t.shardOf k).data.erase k }

variable (t : HotTier) (k k' : CompositeKey)

theorem cached_bumpEpoch : (t.bumpEpoch k).cached k' = t.cached k' := by
  rw [bumpEpoch, cached_setShard]
  split
  · next hi => rw [cached_of_shard t _ _ hi]
  · rfl

theorem epoch_bumpEpoch : t.epoch k' ≤ (t.bumpEpoch k).epoch k' ∧
    t.epoch k < (t.bumpEpoch k).epoch k :=
  t.epoch_succ k k' rfl

theorem cached_removeEntry : (t.removeEntry k).cached k' = if k' = k then none else t.cached k' :=
  t.cached_erase k k' rfl

theorem epoch_removeEntry : (t.removeEntry k).epoch k' = t.epoch k' := t.epoch_same k k' rfl

end HotTier

/-! ## Writes -/

/-- What a write does inside the critical section of the log. -/
inductive ApplyOp
  | insert (k : CompositeKey) (v : MemtableValue)
  | bump (k : CompositeKey)
  | remove (k : CompositeKey)

def ApplyOp.key : ApplyOp → CompositeKey
  | insert k _ | bump k | remove k => k

/-- `invalidate`. -/
def invalidateOps (k : CompositeKey) : List ApplyOp := [.bump k, .remove k]

theorem insert_notMem_invalidateOps {k} : ∀ k' v,
    .insert k' v ∉ invalidateOps k := by simp [invalidateOps]

/-- The entries of a section under the write lock, then their invalidations. -/
def entryOps (entries : List Entry) : List ApplyOp :=
  entries.map (fun e => .insert e.1 e.2) ++ entries.flatMap fun e => invalidateOps e.1

def WriteCall.ops (call : WriteCall) : List ApplyOp := call.sections.flatMap fun l =>
    entryOps l.writes

/-- Every insertion is followed by its invalidation. -/
def Disciplined : List ApplyOp → Prop
  | [] => True
  | .insert k _ :: ops => (invalidateOps k).Sublist ops ∧ Disciplined ops
  | _ :: ops => Disciplined ops

variable {ops : List ApplyOp}

theorem disciplined_invalidations (keys : List CompositeKey) (h : Disciplined ops) :
    Disciplined (keys.flatMap invalidateOps ++ ops) := by
  induction keys with
  | nil => exact h
  | cons k keys ih => exact ih

theorem disciplined_inserts (entries : List Entry) (h : Disciplined ops)
    (hall : ∀ e ∈ entries, (invalidateOps e.1).Sublist ops) :
    Disciplined (entries.map (fun e => .insert e.1 e.2) ++ ops) := by
  induction entries with
  | nil => exact h
  | cons e entries ih =>
    refine ⟨?_, ih fun e' he' => hall e' (mem_cons_of_mem _ he')⟩
    exact (hall e mem_cons_self).trans (sublist_append_right _ _)

theorem disciplined_entryOps (entries) (h : Disciplined ops) :
    Disciplined (entryOps entries ++ ops) := by
  rw [entryOps, append_assoc]
  refine disciplined_inserts _ ?_ fun e he => ?_
  · rw [← flatMap_map]
    exact disciplined_invalidations _ h
  · refine trans ?_ (sublist_append_left _ _)
    exact sublist_flatten_of_mem (mem_map_of_mem he)

theorem WriteCall.disciplined (call : WriteCall) : Disciplined call.ops := by
  unfold ops
  induction call.sections with
  | nil => trivial
  | cons l sections ih => exact disciplined_entryOps _ ih

/-! ## Calls -/

/-- A point read: its key, and what held when it started. -/
structure Reading where
  key : CompositeKey
  /-- The newest version of the key whose write had returned. -/
  acked : Nat
  /-- How many versions the key had. -/
  versions : Nat
  /-- No write of the key was being applied. -/
  calm : Bool

/-- What a point read is for. -/
inductive Purpose
  | get
  | getUncached
  | putIfAbsent (value : Bytes)
  | increment

/-- The call that a write is part of. -/
inductive Writer
  | plain
  | putIfAbsent (r : Reading)
  | increment (r : Reading) (next : Nat)

/-- A `scan`, `scan_keys`, `visit_keys` or `visit_entries`, and how many versions each key had
when it started. -/
structure Walk where
  realmId : RealmId
  start : Bytes
  stop : Bytes
  versions : CompositeKey → Nat

inductive Outcome (crc32 : Bytes → Nat)
  | got (r : Reading) (answer : Option Bytes)
  | walked (w : Walk) (snapshot : Engine crc32)
  | wrote
  /-- `put_if_absent` returned `Ok(true)` and wrote this version. -/
  | claimed (r : Reading) (version : Nat)
  | taken (r : Reading)
  | incremented (r : Reading) (next version : Nat)
  /-- The writes are applied and may not be durable. -/
  | lost (wrote : List (CompositeKey × Nat)) (w : Writer)
  | failed

/-- Where a call is: each constructor names what it does next. `wrote` lists the versions that the
call has inserted. -/
inductive Call (crc32 : Bytes → Nat)
  | idle
  | hot (r : Reading) (p : Purpose)
  | fill (r : Reading) (p : Purpose)
  | active (r : Reading) (p : Purpose) (guard : Option FillGuard)
  | parked (r : Reading) (p : Purpose) (guard : Option FillGuard)
  | ssts (r : Reading) (p : Purpose) (guard : Option FillGuard)
  | promote (r : Reading) (p : Purpose) (guard : FillGuard) (data : Bytes)
  | enter (ops : List ApplyOp) (w : Writer)
  | applying (ops : List ApplyOp) (wrote : List (CompositeKey × Nat)) (w : Writer)
  | await (wrote : List (CompositeKey × Nat)) (w : Writer)
  | walkActive (w : Walk)
  | walkParked (w : Walk) (active : Nat)
  | walking (w : Walk) (active : Nat) (parked : Option Nat) (data : Option MemtableMap)
      (flushing : Option (Option MemtableMap)) (ssts : Option (List (Numbered crc32)))
  | returned (o : Outcome crc32)

/-- The call is about to change the key or its cache entry. -/
def Call.touches (k : CompositeKey) : Call crc32 → Bool
  | .applying ops _ _ => ops.any fun op => op.key = k
  | _ => false

/-- How far a flush has come. In `parking` the full map is in both slots, and the write lock of the
memtable is held; in `absorbed` a failed flush has put its entries back and not yet cleared the
parked slot. -/
inductive FlushAt
  | idle
  | parking
  | parked
  | registered
  | absorbed
  deriving DecidableEq

/-! ## The engine -/

structure EngineThreads (crc32 : Bytes → Nat) where
  /-- The skip lists by their pointers. -/
  maps : Nat → MemtableMap
  active : Nat
  parked : Option Nat
  /-- Pointers below are in use or have been. -/
  made : Nat
  dir : List (Numbered crc32)
  sstReaders : List (Numbered crc32)
  sstCounter : Nat
  hotTier : HotTier
  flush : FlushAt
  merging : Option (Merging crc32)
  /-- The thread in the critical section of the log. -/
  wal : Option Nat
  putIfAbsentLock : Option Nat
  counterLock : Option Nat
  /-- The versions of each key, oldest first. -/
  history : CompositeKey → List (Option Bytes)
  acked : CompositeKey → Nat
  calls : Nat → Call crc32

namespace EngineThreads

section

variable (s : EngineThreads crc32) (k : CompositeKey)

/-- The value of the newest version. -/
def ref : Option Bytes := (s.history k).getLastD none

variable (c : Nat)

def goto (pc : Call crc32) : EngineThreads crc32 := { s with calls := update s.calls c pc }

/-- The entry of the key in the map behind the pointer. -/
def entry (m : Nat) (k : CompositeKey) : Option MemtableValue := (s.maps m)[k]?

def parkedEntry : Option MemtableValue := s.parked.bind fun m => s.entry m k

/-- What the two maps hold for the key. -/
def held : Option MemtableValue := (s.entry s.active k).or (s.parkedEntry k)

/-- What a point read starts with. -/
def reading : Reading where
  key := k
  acked := s.acked k
  versions := (s.history k).length
  calm := s.wal.all fun c => !(s.calls c).touches k

/-- `saturating_add(1)`. -/
def saturatingSucc (n : Nat) : Nat := min (n + 1) u64Max

variable (r : Reading)

def answer (a : Option Bytes) : Purpose → EngineThreads crc32
  | .get | .getUncached => s.goto c (.returned (.got r a))
  | .putIfAbsent value =>
    match a with
    | some _ => { s.goto c (.returned (.taken r)) with putIfAbsentLock := none }
    | none => s.goto c (.enter (entryOps [(r.key, .data value)]) (.putIfAbsent r))
  | .increment =>
    match decodeU64Counter a with
    | .error _ => { s.goto c (.returned .failed) with counterLock := none }
    | .ok n => s.goto c (.enter (entryOps [(r.key, .data (leBytes 8 (saturatingSucc n)))])
        (.increment r (saturatingSucc n)))

/-- A layer below the hot tier has the value; with a guard it is offered to the hot tier. -/
def found (p : Purpose) (guard : Option FillGuard) (data : Bytes) : EngineThreads crc32 :=
  match guard with
  | some guard => s.goto c (.promote r p guard data)
  | none => s.answer c r (some data) p

/-- A map has been looked into; `next` is the layer below. -/
def look (p : Purpose) (guard : Option FillGuard)
    (e : Option MemtableValue) (next : Call crc32) : EngineThreads crc32 :=
  match e with
  | some (.data data) => s.found c r p guard data
  | some .tombstone => s.answer c r none p
  | none => s.goto c next

/-- The locks that a failed call gives back. -/
def fail : Writer → EngineThreads crc32
  | .plain => s.goto c (.returned .failed)
  | .putIfAbsent _ => { s.goto c (.returned .failed) with putIfAbsentLock := none }
  | .increment .. => { s.goto c (.returned .failed) with counterLock := none }

variable (wrote : List (CompositeKey × Nat))

/-- The write is applied and queued: `put_if_absent` gives its lock back here. -/
def leave (w : Writer) : EngineThreads crc32 :=
  match w with
  | .putIfAbsent _ => { s.goto c (.await wrote w) with wal := none, putIfAbsentLock := none }
  | _ => { s.goto c (.await wrote w) with wal := none }

/-- The writes of a call have returned. -/
def acknowledge : EngineThreads crc32 :=
  { s with acked := wrote.foldl (fun acked e => update acked e.1 (max (acked e.1) e.2)) s.acked }

/-- The write is durable. `increment_u64` holds its lock to the end. -/
def durable : Writer → EngineThreads crc32
  | .plain => s.goto c (.returned .wrote)
  | .putIfAbsent r => s.goto c (.returned (.claimed r (wrote.head?.elim 0 Prod.snd)))
  | .increment r next =>
    { s.goto c (.returned (.incremented r next (wrote.head?.elim 0 Prod.snd))) with counterLock :=
      none }

/-- The write may not be durable. -/
def lose (w : Writer) : EngineThreads crc32 :=
  match w with
  | .increment .. => { s.goto c (.returned (.lost wrote w)) with counterLock := none }
  | _ => s.goto c (.returned (.lost wrote w))

/-- An insertion into the active map. -/
def insert (v : MemtableValue) : EngineThreads crc32 :=
  { s with
    maps := update s.maps s.active ((s.maps s.active).insert k v)
    history := update s.history k (s.history k ++ [v.live]) }

/-- What a walk has when all layers are read. -/
def snapshot (data : MemtableMap) (flushing : Option MemtableMap)
    (ssts : List (Numbered crc32)) : Engine crc32 where
  activeMemtable := ⟨data, flushing⟩
  dir := []
  sstReaders := ssts
  sstCounter := 0
  hotTier := .new s.hotTier.config s.hotTier.hashBuilder

end

/-! ## Steps of a call -/

inductive CallStep (c : Nat) : EngineThreads crc32 → EngineThreads crc32 → Prop
  | getStart {s} (k : CompositeKey) :
      s.calls c = .idle → CallStep c s (s.goto c (.hot (s.reading k) .get))
  | getUncachedStart {s} (k : CompositeKey) :
      s.calls c = .idle → CallStep c s (s.goto c (.hot (s.reading k) .getUncached))
  | putIfAbsentStart {s} (k : CompositeKey) (value : Bytes) :
      s.calls c = .idle → s.putIfAbsentLock = none →
      CallStep c s { s.goto c (.hot (s.reading k) (.putIfAbsent value)) with putIfAbsentLock := some c }
  | incrementStart {s} (k : CompositeKey) : s.calls c = .idle → s.counterLock = none →
      CallStep c s { s.goto c (.hot (s.reading k) .increment) with counterLock := some c }
  | writeStart {s} (w : WriteCall) :
      s.calls c = .idle → CallStep c s (s.goto c (.enter w.ops .plain))
  -- point reads
  | hotHit {s r p v} : s.calls c = .hot r p → (s.hotTier.get r.key.realmId r.key.key).1 = some v →
      CallStep c s (answer { s with hotTier := (s.hotTier.get r.key.realmId r.key.key).2 } c r
      (some v) p)
  | hotMiss {s r p} :
      s.calls c = .hot r p → p ≠ .getUncached → (s.hotTier.get r.key.realmId r.key.key).1 = none →
      CallStep c s (s.goto c (.fill r p))
  | uncachedMiss {s r} :
      s.calls c = .hot r .getUncached → (s.hotTier.get r.key.realmId r.key.key).1 = none →
      CallStep c s (s.goto c (.active r .getUncached none))
  | beginFill {s r p} : s.calls c = .fill r p →
      CallStep c s (s.goto c (.active r p (some (s.hotTier.beginFill r.key.realmId r.key.key))))
  | lookActive {s r p guard} : s.calls c = .active r p guard →
      CallStep c s (s.look c r p guard (s.entry s.active r.key) (.parked r p guard))
  | lookParked {s r p guard} : s.calls c = .parked r p guard →
      CallStep c s (s.look c r p guard (s.parkedEntry r.key) (.ssts r p guard))
  | sstHit {s r p guard data} :
      s.calls c = .ssts r p guard → sstGet s.sstReaders r.key.realmId r.key.key = some data →
      CallStep c s (s.found c r p guard data)
  | sstMiss {s r p guard} :
      s.calls c = .ssts r p guard → sstGet s.sstReaders r.key.realmId r.key.key = none →
      CallStep c s (s.answer c r none p)
  | promote {s r p guard data} : s.calls c = .promote r p guard data →
      CallStep c s (answer { s with hotTier := s.hotTier.promote guard r.key.realmId r.key.key data }
        c r (some data) p)
  -- writes
  | fenced {s ops w} : s.calls c = .enter ops w → CallStep c s (s.fail c w)
  | enter {s ops w} : s.calls c = .enter ops w → s.wal = none →
      CallStep c s { s.goto c (.applying ops [] w) with wal := some c }
  | insert {s k v ops wrote w} :
      s.calls c = .applying (.insert k v :: ops) wrote w → s.flush ≠ .parking →
      CallStep c s ((s.insert k v).goto c (.applying ops ((k, (s.history k).length) :: wrote) w))
  | bump {s k ops wrote w} : s.calls c = .applying (.bump k :: ops) wrote w →
      CallStep c s { s.goto c (.applying ops wrote w) with hotTier := s.hotTier.bumpEpoch k }
  | remove {s k ops wrote w} : s.calls c = .applying (.remove k :: ops) wrote w →
      CallStep c s { s.goto c (.applying ops wrote w) with hotTier := s.hotTier.removeEntry k }
  | leave {s wrote w} : s.calls c = .applying [] wrote w → CallStep c s (s.leave c wrote w)
  | durable {s wrote w} :
      s.calls c = .await wrote w → CallStep c s ((s.acknowledge wrote).durable c wrote w)
  | lost {s wrote w} :
      s.calls c = .await wrote w → CallStep c s ((s.acknowledge wrote).lose c wrote w)
  -- walks
  | walkStart {s} (realmId : RealmId) (start stop : Bytes) : s.calls c = .idle →
      CallStep c s (s.goto c (.walkActive ⟨realmId, start, stop, fun k => (s.history k).length⟩))
  | loadActive {s w} : s.calls c = .walkActive w → CallStep c s (s.goto c (.walkParked w s.active))
  | loadParked {s w a} :
      s.calls c = .walkParked w a → CallStep c s (s.goto c (.walking w a s.parked none none none))
  | readActive {s w a p flushing ssts} : s.calls c = .walking w a p none flushing ssts →
      CallStep c s (s.goto c (.walking w a p (some (s.maps a)) flushing ssts))
  | readParked {s w a p data ssts} : s.calls c = .walking w a p data none ssts →
      CallStep c s (s.goto c (.walking w a p data (some (p.map s.maps)) ssts))
  | loadSsts {s w a p data flushing} : s.calls c = .walking w a p data flushing none →
      CallStep c s (s.goto c (.walking w a p data flushing (some s.sstReaders)))
  | walked {s w a p data flushing ssts} :
      s.calls c = .walking w a p (some data) (some flushing) (some ssts) →
      CallStep c s (s.goto c (.returned (.walked w (s.snapshot data flushing ssts))))

/-! ## Flushes and compactions -/

/-- A flush folds its map back. -/
def reabsorb (s : EngineThreads crc32) (m : Nat) : EngineThreads crc32 :=
  { s with
    maps := update s.maps s.active (Memtable.reabsorbLoop (s.maps m).toList (s.maps s.active))
    sstCounter := s.sstCounter + 1
    flush := .absorbed }

inductive UpkeepStep : EngineThreads crc32 → EngineThreads crc32 → Prop
  | park {s} : s.flush = .idle → (s.maps s.active).isEmpty = false →
      UpkeepStep s { s with parked := some s.active, flush := .parking }
  | switch {s} : s.flush = .parking → UpkeepStep s { s with
        maps := update s.maps s.made ∅, active := s.made, made := s.made + 1, flush := .parked }
  /-- The file of the parked map is published and the reader list reloaded. -/
  | register {s m file} : s.flush = .parked → s.parked = some m →
      Sst.write crc32 (s.maps m).toList (keySorted_toList (s.maps m)) = .ok file →
      UpkeepStep s { s with
        dir := DirOp.apply s.dir (.rename s.sstCounter file)
        sstReaders := loadSstReaders (DirOp.apply s.dir (.rename s.sstCounter file)) s.sstReaders
        sstCounter := s.sstCounter + 1
        flush := .registered }
  | dropParked {s} : s.flush = .registered → UpkeepStep s { s with parked := none, flush := .idle }
  | beginFull {s minSstCount output} :
      s.merging = none → s.flush = .idle → minSstCount ≤ s.sstReaders.length →
      (fullPlan s.sstReaders s.sstCounter).merge = .ok output →
      UpkeepStep s { s with
        sstCounter := s.sstCounter + 1
        merging := some ⟨false, fullPlan s.sstReaders s.sstCounter, output⟩ }
  | mergeFail {s} : s.merging = none → s.flush = .idle →
      UpkeepStep s { s with sstCounter := s.sstCounter + 1 }
  | beginPartial {s mergeMin plan output} :
      s.merging = none → partialPlan s.sstReaders mergeMin = some plan → plan.merge = .ok output →
      UpkeepStep s { s with merging := some ⟨true, plan, output⟩ }
  | commit {s m} : s.merging = some m → s.flush = .idle → UpkeepStep s { s with
        dir := applyOps s.dir (m.plan.ops m.output)
        sstReaders := loadSstReaders (applyOps s.dir (m.plan.ops m.output))
          (s.sstReaders.filter fun r => r.1 ∉ m.plan.reopened)
        merging := none }

/-- A flush fails, before or after its file has its name, and puts its entries back. -/
inductive ReabsorbStep : EngineThreads crc32 → EngineThreads crc32 → Prop
  | unpublished {s m} : s.flush = .parked → s.parked = some m → ReabsorbStep s (s.reabsorb m)
  | published {s m file} : s.flush = .parked → s.parked = some m →
      Sst.write crc32 (s.maps m).toList (keySorted_toList (s.maps m)) = .ok file →
      ReabsorbStep s { s.reabsorb m with dir := DirOp.apply s.dir (.rename s.sstCounter file) }

/-- A failed flush clears the parked slot. -/
inductive ClearStep : EngineThreads crc32 → EngineThreads crc32 → Prop
  | clear {s} : s.flush = .absorbed → ClearStep s { s with parked := none, flush := .idle }

/-- Who takes a step. -/
inductive Actor
  | call (c : Nat)
  | upkeep
  | reabsorb
  | clear

def ThreadStep : Actor → EngineThreads crc32 → EngineThreads crc32 → Prop
  | .call c => CallStep c
  | .upkeep => UpkeepStep
  | .reabsorb => ReabsorbStep
  | .clear => ClearStep

/-- Flushes and compactions change no version and move no call. -/
theorem ThreadStep.frame {actor} {s t : EngineThreads crc32} (hstep : ThreadStep actor s t)
    (hactor : ∀ c, actor ≠ .call c) :
    ∃ maps active parked made dir sstReaders sstCounter flush merging, t = { s with
      maps, active, parked, made, dir, sstReaders, sstCounter, flush, merging } := by
  cases actor with
  | call c => exact absurd rfl (hactor c)
  | upkeep | reabsorb | clear =>
    cases hstep with
    | _ => exact ⟨_, _, _, _, _, _, _, _, _, rfl⟩

/-! ## Starts of runs -/

/-- An engine that has just opened its directory and replayed its log. -/
structure Opened (s : EngineThreads crc32) : Prop where
  descending : Descending s.dir
  readers : s.sstReaders = s.dir
  counter : s.sstCounter = nextNumber s.dir
  active : s.active < s.made
  unparked : s.parked = none
  hotTier : ∃ config hashBuilder, s.hotTier = .new config hashBuilder
  flush : s.flush = .idle
  merging : s.merging = none
  wal : s.wal = none
  putIfAbsentLock : s.putIfAbsentLock = none
  counterLock : s.counterLock = none
  history : ∀ k, s.history k =
    [(s.entry s.active k).elim (lookup s.sstReaders k) MemtableValue.live]
  acked : ∀ k, s.acked k = 0
  calls : ∀ c, s.calls c = .idle

/-- An engine without files. -/
def emptyThreads : EngineThreads fun _ => 0 where
  maps _ := ∅
  active := 0
  parked := none
  made := 1
  dir := []
  sstReaders := []
  sstCounter := nextNumber ([] : List (Numbered fun _ => 0))
  hotTier := demoHotTier
  flush := .idle
  merging := none
  wal := none
  putIfAbsentLock := none
  counterLock := none
  history _ := [none]
  acked _ := 0
  calls _ := .idle

theorem emptyThreads_opened : emptyThreads.Opened :=
  ⟨.nil, rfl, rfl, one_pos, rfl, ⟨_, _, rfl⟩, rfl, rfl, rfl, rfl, rfl, fun k => by
    rfl,
    fun _ => rfl, fun _ => rfl⟩

def rowThreads (k : CompositeKey) (v : Bytes) : EngineThreads fun _ => 0 :=
  { emptyThreads with
    maps := fun _ => (∅ : MemtableMap).insert k (.data v)
    history := fun k' => [if k' = k then some v else none] }

theorem entry_rowThreads (k v k') :
    (rowThreads k v).entry (rowThreads k v).active k' = if k' = k then some
    (.data v) else none := by
  have hempty : (∅ : MemtableMap)[k']? = none := Std.ExtTreeMap.getElem?_empty
  rw [entry, rowThreads, Base.getElem?_insert, hempty]

theorem rowThreads_opened (k v) : (rowThreads k v).Opened :=
  ⟨.nil, rfl, rfl, one_pos, rfl, ⟨_, _, rfl⟩, rfl, rfl, rfl, rfl, rfl, fun k' => by
    rw [entry_rowThreads]
    by_cases hk : k' = k
    · rw [if_pos hk]
      exact congrArg (fun a => [a]) (if_pos hk)
    · rw [if_neg hk]
      exact congrArg (fun a => [a]) (if_neg hk),
    fun _ => rfl, fun _ => rfl⟩

/-! ## Moves and insertions -/

section

variable {s : EngineThreads crc32} {c : Nat} {pc : Call crc32} {k k' : CompositeKey}
  {v : MemtableValue}

theorem calls_goto_self : (s.goto c pc).calls c = pc := update_self ..

theorem calls_goto_of_ne {c'} (h : c' ≠ c) : (s.goto c pc).calls c' = s.calls c' :=
  update_of_ne h ..

@[elab_as_elim]
theorem forall_goto {motive : Nat → Call crc32 → Prop} (hself : motive c pc)
    (hold : ∀ c' ≠ c, motive c' (s.calls c')) (c' : Nat) : motive c' ((s.goto c pc).calls c') :=
  forall_update (motive := motive) hself hold c'

theorem disciplined_entry (e : Entry) : Disciplined (entryOps [e]) := ⟨.refl _, trivial⟩

theorem history_insert_self : (s.insert k v).history k = s.history k ++ [v.live] := update_self ..

theorem history_insert_of_ne (h : k' ≠ k) : (s.insert k v).history k' = s.history k' :=
  update_of_ne h ..

theorem history_isPrefix_insert (k') : s.history k' <+: (s.insert k v).history k' := by
  by_cases h : k' = k
  · rw [h, history_insert_self]
    exact prefix_append _ _
  · exact ⟨[], (append_nil _).trans (history_insert_of_ne h).symm⟩

theorem entry_insert (k') :
    (s.insert k v).entry s.active k' = if k' = k then some v else s.entry s.active k' := by
  unfold entry insert
  dsimp only
  rw [update_self, Base.getElem?_insert]

theorem entry_insert_of_ne (h : k' ≠ k) (m : Nat) : (s.insert k v).entry m k' = s.entry m k' := by
  unfold entry insert
  dsimp only
  by_cases hm : m = s.active
  · rw [hm, update_self, Base.getElem?_insert, if_neg h]
  · rw [update_of_ne hm]

theorem entry_insert_of_pointer {m} (h : m ≠ s.active) :
    (s.insert k v).entry m k' = s.entry m k' := by
  unfold entry insert
  dsimp only
  rw [update_of_ne h]

end

end EngineThreads

end Hearth.Storage
