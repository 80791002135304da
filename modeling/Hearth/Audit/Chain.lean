import Hearth.Base.HashChain
import Hearth.Base.Hex
import Hearth.Types
import Mathlib.Data.List.Sort

/-!
# The audit chain of a realm

Each event's integrity hash is an HMAC over the hash before it and the event's JSON text.
A signed head row holds the hash the first live event chains from, the last hash, the
number of the last event and the number of live events.

The event rows are read in key order: timestamp, then sequence number. An append puts its
row where its key belongs, which is the end only if no live row has a later timestamp.
-/

namespace Hearth.Audit

open Base

/-- UTC microseconds. -/
abbrev Timestamp := Int64

/-- A JSON value: a float by its bits, an object by its fields in key order. -/
inductive Json
  | null
  | bool (value : Bool)
  | int (value : Int)
  | float (bits : UInt64)
  | string (text : String)
  | array (items : List Json)
  | object (fields : List (String × Json))

structure AuditEventId where
  uuid : Bytes
  length_uuid : uuid.length = 16

instance : DecidableEq AuditEventId := fun a b =>
  decidable_of_iff (a.uuid = b.uuid) (by cases a; cases b; simp)

structure AuditEvent (Action : Type) where
  id : AuditEventId
  realmId : RealmId
  actor : String
  action : Action
  resourceType : String
  resourceId : String
  timestamp : Timestamp
  metadata : Option Json
  integrityHash : String

structure CreateAuditEvent (Action : Type) where
  realmId : RealmId
  actor : String
  action : Action
  resourceType : String
  resourceId : String
  metadata : Option Json

inductive AuditError
  | integrityViolation (reason : String)
  deriving DecidableEq

structure ChainHead where
  /-- The hash the first live event chains from. -/
  anchor : String
  lastHash : String
  seq : Nat
  count : Nat
  mac : String
  deriving DecidableEq

/-- What the engine takes from elsewhere: HMAC-SHA256, the text of a JSON value, and the
name an action is serialized as. -/
structure Crates (Key Action : Type) where
  sign : Key → String → Bytes
  text : Json → String
  actionName : Action → String

def genesisHash : String := "genesis"

section

variable {Key Action : Type} (C : Crates Key Action)

/-! ## Hashes -/

/-- The object an event is hashed as. An event without metadata has the field `null`. -/
def hashable (event : AuditEvent Action) : Json :=
  .object [
    ("action", .string (C.actionName event.action)),
    ("actor", .string event.actor),
    ("id", .string (hyphenated event.id.uuid)),
    ("metadata", event.metadata.getD .null),
    ("realm_id", .string (hyphenated event.realmId.uuid)),
    ("resource_id", .string event.resourceId),
    ("resource_type", .string event.resourceType),
    ("timestamp", .int event.timestamp.toInt)]

/-- The text the HMAC of an event is over. -/
def hashed (prevHash : String) (event : AuditEvent Action) : String :=
  prevHash ++ C.text (hashable C event)

variable (key : Key)

def computeHmacHash (prevHash : String) (event : AuditEvent Action) : String :=
  hexEncode (C.sign key (hashed C prevHash event))

variable (anchor lastHash : String)

variable (seq count : Nat)

def headMacInput : String :=
  s!"{anchor}|{lastHash}|{seq}|{count}"

def computeHeadMac : String :=
  hexEncode (C.sign key (headMacInput anchor lastHash seq count))

def signedHead : ChainHead where
  anchor := anchor
  lastHash := lastHash
  seq := seq
  count := count
  mac := computeHeadMac C key anchor lastHash seq count

/-! ## Rows -/

/-- The timestamp's part of an event key: the `i64` cast to a `u64`. -/
def timestampBytes (ts : Timestamp) : UInt64 := ts.toUInt64

/-- A primary row: the key's timestamp and sequence number, and the event. -/
structure AuditRow (Action : Type) where
  time : UInt64
  seq : Nat
  event : AuditEvent Action

def eventRow (seq : Nat) (event : AuditEvent Action) : AuditRow Action where
  time := timestampBytes event.timestamp
  seq := seq
  event := event

/-- Key order. No two rows share a sequence number, so the id in the key never decides. -/
def AuditRow.Before (a b : AuditRow Action) : Prop :=
  a.time < b.time ∨ a.time = b.time ∧ a.seq < b.seq

instance (a b : AuditRow Action) : Decidable (a.Before b) :=
  inferInstanceAs (Decidable (_ ∨ _))

/-- Puts a row where its key belongs. -/
def putEvent (rows : List (AuditRow Action)) (row : AuditRow Action) : List (AuditRow Action) :=
  rows.orderedInsert AuditRow.Before row

/-- A realm's audit rows, with its chain anchor in the system realm. -/
structure AuditRows (Key Action : Type) where
  /-- The event rows in key order. -/
  events : List (AuditRow Action)
  head : Option ChainHead
  key : Option Key
  established : Bool

/-! ## The head -/

variable (key : Key)

/-- The persisted head, if any, refused if its MAC does not match. -/
def loadHead : Option ChainHead → Except AuditError (Option ChainHead)
  | none => .ok none
  | some head =>
    match hexDecode head.mac with
    | none => .error (.integrityViolation "audit chain head MAC is not valid hex")
    | some stored =>
      if C.sign key (headMacInput head.anchor head.lastHash head.seq head.count) = stored then
        .ok (some head)
      else .error (.integrityViolation "audit chain head MAC mismatch")

/-- The persisted head, or one made from the events there are. -/
def loadOrInitHead (rows : AuditRows Key Action) : Except AuditError ChainHead :=
  match loadHead C key rows.head with
  | .error e => .error e
  | .ok (some head) => .ok head
  | .ok none =>
    let lastHash := (rows.events.getLast?.map (·.event.integrityHash)).getD genesisHash
    .ok (signedHead C key genesisHash lastHash rows.events.length rows.events.length)

/-- The head a writer works on: the cached one, otherwise the persisted one. -/
def currentHead (rows : AuditRows Key Action) : Option ChainHead → Except AuditError ChainHead
  | some head => .ok head
  | none => loadOrInitHead C key rows

/-! ## Writing -/

/-- Chains an event to a head: its row, and the head after it. -/
def chainEvent (head : ChainHead) (event : AuditEvent Action) : AuditRow Action × ChainHead :=
  let hash := computeHmacHash C key head.lastHash event
  let seq := head.seq + 1
  (eventRow seq { event with integrityHash := hash },
    signedHead C key head.anchor hash seq (head.count + 1))

/-- The event an append writes, before it has its hash. -/
def CreateAuditEvent.toEvent (request : CreateAuditEvent Action) (id : AuditEventId)
    (timestamp : Timestamp) : AuditEvent Action where
  id := id
  realmId := request.realmId
  actor := request.actor
  action := request.action
  resourceType := request.resourceType
  resourceId := request.resourceId
  timestamp := timestamp
  metadata := request.metadata
  integrityHash := ""

def restoreMarker : String := "backup_restore"

/-- Sets a field of an object whose fields are in key order. -/
def insertField (key : String) (value : Json) : List (String × Json) → List (String × Json)
  | [] => [(key, value)]
  | field :: fields =>
    if key < field.1 then (key, value) :: field :: fields
    else if key = field.1 then (key, value) :: fields
    else field :: insertField key value fields

/-- The metadata with the restore marker, which records the original timestamp. -/
def restoreMarkedMetadata (metadata : Option Json) (originalTimestamp : Timestamp) : Json :=
  let marker := .object [("original_timestamp", .int originalTimestamp.toInt)]
  match metadata with
  | some (.object fields) => .object (insertField restoreMarker marker fields)
  | none | some .null => .object [(restoreMarker, marker)]
  | some other => .object [(restoreMarker, marker), ("original_metadata", other)]

/-- The event an import writes for an archived one, before it has its hash. -/
def AuditEvent.restored (source : AuditEvent Action) (realmId : RealmId) (timestamp : Timestamp) :
    AuditEvent Action :=
  { source with
    realmId := realmId
    timestamp := timestamp
    metadata := some (restoreMarkedMetadata source.metadata source.timestamp)
    integrityHash := "" }

/-! ## Importing -/

/-- The events an import chains in one hold of the chain lock. -/
def importChunk : Nat := 512

/-- An import between two chunks. -/
structure ImportRun (Key Action : Type) where
  realmId : RealmId
  key : Key
  /-- The archived events still to be read. -/
  rest : List (AuditEvent Action)
  known : List AuditEventId
  restamp : Bool
  stamp : Timestamp
  /-- The sequence number the last written chunk ended the chain on. -/
  ourSeq : Option Nat

def newestTimestamp (rows : List (AuditRow Action)) : Option Timestamp :=
  rows.foldl (fun newest row => some (newest.elim row.event.timestamp (max · row.event.timestamp))) none

def ascending : List (AuditEvent Action) → Bool
  | first :: second :: events =>
    decide (first.timestamp ≤ second.timestamp) && ascending (second :: events)
  | _ => true

/-- An import before its first chunk: the ids and the newest time the realm holds, and the
clock, decide whether the archived times are kept. -/
def ImportRun.begin (realmId : RealmId) (key : Key) (events : List (AuditEvent Action))
    (rows : List (AuditRow Action)) (now : Timestamp) : ImportRun Key Action where
  realmId := realmId
  key := key
  rest := events
  known := rows.map (·.event.id)
  restamp := !ascending events || !events.all (decide <| ·.timestamp ≤ now)
  stamp := (newestTimestamp rows).elim now (max · now)
  ourSeq := none

variable (run : ImportRun Key Action)

variable (head : ChainHead)

include head

/-- Whether the chain holds anything but what this import wrote. -/
def ImportRun.interleaved : Bool :=
  match run.ourSeq with
  | none => decide (0 < head.count)
  | some seq => decide (head.seq ≠ seq)

def ImportRun.stampedAt (now : Timestamp) : ImportRun Key Action :=
  if run.interleaved head then { run with restamp := true, stamp := max run.stamp now } else run

/-- A chunk under way: the ids seen, the head so far and the rows to write. -/
structure Chunk (Action : Type) where
  known : List AuditEventId
  head : ChainHead
  rows : List (AuditRow Action)

def importOne (chunk : Chunk Action) (source : AuditEvent Action) : Chunk Action :=
  if source.id ∈ chunk.known then chunk
  else
    let timestamp := if run.restamp then run.stamp else source.timestamp
    let chained := chainEvent C run.key chunk.head (source.restored run.realmId timestamp)
    ⟨source.id :: chunk.known, chained.2, chunk.rows ++ [chained.1]⟩

def ImportRun.chunk : Chunk Action :=
  (run.rest.take importChunk).foldl (importOne C run) ⟨run.known, head, []⟩

/-- The import after a chunk of which nothing was written. -/
def ImportRun.skipped (chunk : Chunk Action) : ImportRun Key Action :=
  { run with rest := run.rest.drop importChunk, known := chunk.known }

def ImportRun.wrote (chunk : Chunk Action) : ImportRun Key Action :=
  { run.skipped chunk with ourSeq := some chunk.head.seq }

/-! ## Pruning -/

/-- The events a prune deletes in one hold of the chain lock, at most. -/
def pruneBatch : Nat := 10000

/-- What is left of a prune: `prune_before` with its cutoff, or `prune_oldest` with a number. -/
inductive PruneRange
  | before (cutoff : Timestamp)
  | oldest (left : Nat)

def PruneRange.want : PruneRange → Nat
  | .before _ => pruneBatch
  | .oldest left => min left pruneBatch

def PruneRange.below : PruneRange → AuditRow Action → Bool
  | .before cutoff, row => decide (row.time < timestampBytes cutoff)
  | .oldest _, _ => true

/-- The rows of the next batch, the first in key order. -/
def PruneRange.entries (range : PruneRange) (rows : List (AuditRow Action)) : List (AuditRow Action) :=
  (rows.takeWhile range.below).take range.want

/-- What is left after a batch, or nothing if that was the last. -/
def PruneRange.next (range : PruneRange) (deleted : Nat) : Option PruneRange :=
  if deleted < range.want then none
  else
    match range with
    | .before cutoff => some (.before cutoff)
    | .oldest left => if left - deleted = 0 then none else some (.oldest (left - deleted))

/-- The head after a prune of the given rows, the oldest ones. -/
def planPrune (key : Key) (head : ChainHead) (entries : List (AuditRow Action)) : ChainHead :=
  let anchor := (entries.getLast?.map (·.event.integrityHash)).getD head.anchor
  let newCount := head.count - entries.length
  let lastHash := if newCount = 0 then anchor else head.lastHash
  signedHead C key anchor lastHash head.seq newCount

/-! ## Verifying -/

/-- Follows the events' hashes from a first one. -/
def walkEvents (key : Key) (prevHash : String) (events : List (AuditEvent Action)) : Option String :=
  walk (computeHmacHash C key) AuditEvent.integrityHash prevHash events

/-- `verify_integrity` over the whole log. `peeked` is the realm's key, `entries` what the
event rows decode to in key order. -/
def verifyIntegrity (peeked : Option Key) (headRow : Option ChainHead) (established : Bool)
    (entries : List (Option (AuditEvent Action))) : Bool :=
  match peeked with
  | none => entries.isEmpty && !established
  | some key =>
    match loadHead C key headRow with
    | .error (.integrityViolation _) => false
    | .ok none => entries.isEmpty && !established
    | .ok (some head) =>
      match entries.mapM id with
      | none => false
      | some events =>
        match walkEvents C key head.anchor events with
        | none => false
        | some last => events.length == head.count && last == head.lastHash

end

end Hearth.Audit
