import Hearth.Audit.Chained
import Hearth.Base.Run

/-!
# The audit engine of one realm

Appends, imports and prunes share the chain lock, which guards the cached head, and run
against one store. An append and a chunk of an import enqueue their rows under the lock
and wait for the sync outside it; enqueued rows are visible at once. A failed sync fences
the store: every later write fails. The realm's HMAC key is made by the first call that
finds none, and only an append and a prune hold the chain lock while they look for it.
-/

namespace Hearth.Audit

open Base

/-- `get_realm_hmac_key`: what a call knows of the key. -/
inductive KeyPhase (Key : Type)
  | wanted
  /-- The cache holds none. -/
  | missed
  /-- Neither does the store; a fresh key is about to be written. -/
  | minting (key : Key)
  | caching (key : Key)
  | held (key : Key)

/-- What a call wants the key for. An append and a prune hold the chain lock meanwhile. -/
inductive AuditJob (Action : Type)
  | append (request : CreateAuditEvent Action)
  | importing (realmId : RealmId) (events : List (AuditEvent Action))
  | prune (range : PruneRange)

inductive AuditCall (Key Action : Type)
  | idle
  | keying (job : AuditJob Action) (phase : KeyPhase Key)
  /-- An import between two chunks. -/
  | importing (run : ImportRun Key Action)
  /-- A prune between two batches. -/
  | pruning (range : PruneRange)
  /-- Waiting for the sync of an append, or of a chunk and with the import after it. -/
  | syncing (after : Option (ImportRun Key Action))
  /-- The wait has failed and the cached head is not dropped yet. -/
  | rollingBack

structure AuditEngine (Key Action : Type) where
  rows : AuditRows Key Action
  fenced : Bool
  keyCache : Option Key
  /-- What the chain lock guards. -/
  cached : Option ChainHead
  chainLock : Option Nat
  importLock : Option Nat
  calls : Nat → AuditCall Key Action

section

variable {Key Action : Type} (rows : AuditRows Key Action)

/-- Rows and their head in one batch. -/
def AuditRows.extend (new : List (AuditRow Action)) (head : ChainHead) : AuditRows Key Action :=
  { rows with events := new.foldl putEvent rows.events, head := some head }

/-- The first rows deleted, and the head that re-anchors the rest, in one batch. -/
def AuditRows.prune (deleted : Nat) (head : ChainHead) : AuditRows Key Action :=
  { rows with events := rows.events.drop deleted, head := some head }

def AuditRows.setKey (key : Key) : AuditRows Key Action := { rows with key := some key }

namespace AuditEngine

variable (s : AuditEngine Key Action) (id : Nat)

def setCall (call : AuditCall Key Action) : AuditEngine Key Action :=
  { s with calls := Function.update s.calls id call }

def setRows (rows : AuditRows Key Action) : AuditEngine Key Action := { s with rows := rows }

def setCached (cached : Option ChainHead) : AuditEngine Key Action := { s with cached := cached }

def setKeyCache (key : Key) : AuditEngine Key Action := { s with keyCache := some key }

/-- A write that is made fails in its sync, which fences the store, or in the flush after it. -/
def fence : Bool → AuditEngine Key Action
  | true => { s with fenced := true }
  | false => s

def lockChain : AuditEngine Key Action := { s with chainLock := some id }

def lockImports : AuditEngine Key Action := { s with importLock := some id }

/-- Releases the chain lock where the call holds it. -/
def unlockChain : AuditEngine Key Action := { s with chainLock := s.chainLock.filter (· ≠ id) }

/-- The call returns, with every lock it holds released. -/
def finish : AuditEngine Key Action :=
  { (s.unlockChain id).setCall id .idle with importLock := s.importLock.filter (· ≠ id) }

variable (C : Crates Key Action) (s : AuditEngine Key Action)

/-- An event and its head are enqueued, and the head is cached. -/
def appended (key : Key) (head : ChainHead) (event : AuditEvent Action) : AuditEngine Key Action :=
  (s.setRows (s.rows.extend [(chainEvent C key head event).1]
    (chainEvent C key head event).2)).setCached
    (some (chainEvent C key head event).2)

/-- A chunk is enqueued, and its head is cached. -/
def written (chunk : Chunk Action) : AuditEngine Key Action :=
  (s.setRows (s.rows.extend chunk.rows chunk.head)).setCached (some chunk.head)

/-- A batch of a prune is written. -/
def pruned (range : PruneRange) (key : Key) (head : ChainHead) : AuditEngine Key Action :=
  s.setRows (s.rows.prune (range.entries s.rows.events).length
    (planPrune C key head (range.entries s.rows.events)))

/-- `record_chain_anchor`; a failure to write the row is only logged. -/
def recordAnchor (written : Bool) : AuditEngine Key Action :=
  s.setRows { s.rows with established := s.rows.established || written }

/-- The live events in key order. -/
def log : List (AuditEvent Action) := s.rows.events.map (·.event)

/-- A verification with no call in flight, as `verify_integrity(realm, None, None)` makes it. -/
def verify : Bool :=
  verifyIntegrity C (s.keyCache.or s.rows.key) s.rows.head s.rows.established (s.log.map some)

/-- No operation is in flight. -/
def Quiet : Prop := ∀ id, s.calls id = .idle

end AuditEngine

/-- The moves of a call that a condition on clocks and keys can be about. -/
inductive AuditMove (Key Action : Type)
  | appendAt (now : Timestamp)
  | importOf (events : List (AuditEvent Action))
  | importFrom (now : Timestamp)
  | chunkAt (run : ImportRun Key Action) (now : Timestamp)
  | mint
  | pruneFails (fence : Bool)
  | other

namespace AuditEngine

inductive Step (C : Crates Key Action) :
    AuditMove Key Action → AuditEngine Key Action → AuditEngine Key Action → Prop
  | beginAppend {s} (id : Nat) (request : CreateAuditEvent Action) :
    s.calls id = .idle → s.chainLock = none →
      Step C .other s ((s.lockChain id).setCall id (.keying (.append request) .wanted))
  | beginImport {s} (id : Nat) (realmId : RealmId) (events : List (AuditEvent Action)) :
    s.calls id = .idle → s.importLock = none → events ≠ [] → Step C (.importOf events) s
        ((s.lockImports id).setCall id (.keying (.importing realmId events) .wanted))
  | beginPrune {s} (id : Nat) (range : PruneRange) :
    s.calls id = .idle → 0 < range.want → Step C .other s (s.setCall id (.pruning range))
  -- `get_realm_hmac_key`
  | keyHit {s} (id : Nat) {job key} : s.calls id = .keying job .wanted → s.keyCache = some key →
      Step C .other s (s.setCall id (.keying job (.held key)))
  | keyMiss {s} (id : Nat) {job} : s.calls id = .keying job .wanted → s.keyCache = none →
      Step C .other s (s.setCall id (.keying job .missed))
  | keyRead {s} (id : Nat) {job key} : s.calls id = .keying job .missed → s.rows.key = some key →
      Step C .other s (s.setCall id (.keying job (.caching key)))
  | keyMint {s} (id : Nat) {job} (key : Key) :
    s.calls id = .keying job .missed → s.rows.key = none →
      Step C .mint s (s.setCall id (.keying job (.minting key)))
  | keyPut {s} (id : Nat) {job key} : s.calls id = .keying job (.minting key) → s.fenced = false →
      Step C .other s ((s.setRows (s.rows.setKey key)).setCall id (.keying job (.caching key)))
  | keyPutFails {s} (id : Nat) {job key} (fence : Bool) :
    s.calls id = .keying job (.minting key) → s.fenced = false →
      Step C .other s (((s.setRows (s.rows.setKey key)).fence fence).finish id)
  | keyCached {s} (id : Nat) {job key} : s.calls id = .keying job (.caching key) →
      Step C .other s ((s.setKeyCache key).setCall id (.keying job (.held key)))
  -- a read, an encoding, the key or a prune's write fails, with no effect
  | giveUp {s} (id : Nat) {job phase} :
    s.calls id = .keying job phase → Step C .other s (s.finish id)
  -- the two phases of an append
  | append {s} (id : Nat) {request key head} (eventId : AuditEventId) (now : Timestamp) :
    s.calls id = .keying (.append request) (.held key) → s.fenced = false →
      currentHead C key s.rows s.cached = .ok head →
      Step C (.appendAt now) s
        (((s.appended C key head (request.toEvent eventId now)).unlockChain id).setCall id
          (.syncing none))
  | enqueueFails {s} (id : Nat) {request key} : s.calls id = .keying (.append request) (.held key) →
      Step C .other s ((s.setCached none).finish id)
  -- an import: the scan and the clock, then chunk by chunk
  | importStart {s} (id : Nat) {realmId events key} (now : Timestamp) :
    s.calls id = .keying (.importing realmId events) (.held key) → Step C (.importFrom now) s
        (s.setCall id (.importing (.begin realmId key events s.rows.events now)))
  | chunkWritten {s} (id : Nat) {run head} (now : Timestamp) :
    s.calls id = .importing run → run.rest ≠ [] → s.chainLock = none → s.fenced = false →
      currentHead C run.key s.rows s.cached = .ok head →
      ((run.stampedAt head now).chunk C head).rows ≠ [] →
      Step C (.chunkAt run now) s ((s.written ((run.stampedAt head now).chunk C head)).setCall id
          (.syncing (some ((run.stampedAt head now).wrote
            ((run.stampedAt head now).chunk C head)))))
  | chunkSkipped {s} (id : Nat) {run head} (now : Timestamp) :
    s.calls id = .importing run → run.rest ≠ [] → s.chainLock = none →
      currentHead C run.key s.rows s.cached = .ok head →
      ((run.stampedAt head now).chunk C head).rows = [] →
      Step C (.chunkAt run now) s (s.setCall id
          (.importing ((run.stampedAt head now).skipped ((run.stampedAt head now).chunk C head))))
  | chunkFails {s} (id : Nat) {run} :
    s.calls id = .importing run → s.chainLock = none →
    Step C .other s ((s.setCached none).finish id)
  -- nothing is left to read, or the head cannot be loaded
  | importEnds {s} (id : Nat) {run} : s.calls id = .importing run → Step C .other s (s.finish id)
  -- the sync of an append or a chunk
  | synced {s} (id : Nat) (recorded : Bool) :
    s.calls id = .syncing none → (recorded = true → s.fenced = false) →
      Step C .other s ((s.recordAnchor recorded).finish id)
  | chunkSynced {s} (id : Nat) {run} (recorded : Bool) :
    s.calls id = .syncing (some run) → (recorded = true → s.fenced = false) →
      Step C .other s ((s.recordAnchor recorded).setCall id (.importing run))
  | syncFails {s} (id : Nat) {after} (fence : Bool) :
    s.calls id = .syncing after → Step C .other s ((s.fence fence).setCall id .rollingBack)
  | rollback {s} (id : Nat) :
    s.calls id = .rollingBack → s.chainLock = none → Step C .other s ((s.setCached none).finish id)
  -- a prune, batch by batch
  | pruneNothing {s} (id : Nat) {range} :
    s.calls id = .pruning range → s.chainLock = none → Step C .other s (s.finish id)
  | pruneVisit {s} (id : Nat) {range} :
    s.calls id = .pruning range → s.chainLock = none → range.entries s.rows.events ≠ [] →
      Step C .other s ((s.lockChain id).setCall id (.keying (.prune range) .wanted))
  | prune {s} (id : Nat) {range key head} :
    s.calls id = .keying (.prune range) (.held key) → s.fenced = false →
      currentHead C key s.rows s.cached = .ok head →
      Step C .other s
        (((s.pruned C range key head).setCached
          (s.pruned C range key head).rows.head).unlockChain id
          |>.setCall id ((range.next (range.entries s.rows.events).length).elim .idle .pruning))
  -- the cached head stays the one of before
  | pruneFails {s} (id : Nat) {range key head} (fence : Bool) :
    s.calls id = .keying (.prune range) (.held key) → s.fenced = false →
      currentHead C key s.rows s.cached = .ok head →
      Step C (.pruneFails fence) s (((s.pruned C range key head).fence fence).finish id)
  -- a verification or an export reads the key into the cache
  | peek {s key} : s.rows.key = some key → Step C .other s (s.setKeyCache key)

/-- A realm with no audit rows, before any call. -/
def Init (s : AuditEngine Key Action) : Prop :=
  s = ⟨⟨[], none, none, false⟩, false, none, none, none, none, fun _ => .idle⟩

end AuditEngine

end

end Hearth.Audit
