import Hearth.Base.Bytes

/-!
# Types shared by the modules
-/

namespace Hearth

open Base

/-- A realm identifier: the sixteen bytes of a UUID. -/
structure RealmId where
  uuid : Bytes
  length_uuid : uuid.length = 16
  deriving DecidableEq, Repr

/-- The nil UUID. -/
def RealmId.nil : RealmId := ⟨List.replicate 16 0, List.length_replicate⟩

inductive RealmStatus
  | active
  | suspended
  | archived
  | deletingInProgress
  deriving DecidableEq, Repr

/-- The storage errors the modelled code can return. An I/O error keeps its message only. -/
inductive StorageError
  | io (message : String)
  | checksumMismatch (offset : Nat)
  | deserializationFailed (reason : String)
  | invalidSstFormat (reason : String)
  | crypto (reason : String)
  | unsupportedWalVersion (found : Nat)
  | walMidSegmentCorruption (corruptOffset survivorOffset recoveredRecords : Nat)
  | invalidRange
  | hostKeyMismatch (affectedRealms : List String)
  | corruptedKeks (affectedRealms : List String)
  deriving DecidableEq, Repr

/-- The `Display` text. -/
def StorageError.display : StorageError → String
  | .io message => s!"storage I/O error: {message}"
  | .checksumMismatch offset => s!"checksum mismatch at byte offset {offset}"
  | .deserializationFailed reason => s!"deserialization failed: {reason}"
  | .invalidSstFormat reason => s!"invalid SST format: {reason}"
  | .crypto reason => s!"cryptographic operation failed: {reason}"
  | .unsupportedWalVersion found =>
    s!"WAL format version {found} is not supported by this binary; " ++
      "upgrade Hearth or restore from backup"
  | .walMidSegmentCorruption corrupt survivor recovered =>
    s!"WAL segment is corrupt at byte offset {corrupt}, but valid records follow it " ++
      s!"(first at byte offset {survivor}); {recovered} record(s) replay cleanly before the " ++
      "corruption. Refusing to open: automatic truncation would destroy acknowledged writes. " ++
      "Copy the segment aside and restore from backup, or truncate it at the corrupt offset to " ++
      "accept the loss explicitly"
  | .invalidRange => "invalid scan range: the start key is greater than the end key"
  | .hostKeyMismatch affectedRealms =>
    "realm KEKs could not be decrypted with the current HEARTH_MASTER_KEY; " ++
      "affected realms: " ++ .intercalate ", " affectedRealms
  | .corruptedKeks affectedRealms =>
    "CRC corruption detected in hearth.keys; startup blocked to prevent " ++
      "silent realm unavailability; restore from backup; " ++
      "affected realms: " ++ .intercalate ", " affectedRealms

end Hearth
