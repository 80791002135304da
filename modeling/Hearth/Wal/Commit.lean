import Hearth.Base.DurableFile
import Hearth.Wal.GroupSafety
import Hearth.Wal.Open

/-!
# The I/O of a commit

The group commit of `GroupCommit` over a real segment: `commit_batch` with its
rotation, one step per file operation, each of which may fail. A write may stop
after any proper prefix of its buffer. The queue, the watermark and the threads
are those of `Sys`; a batch's outcome there is the outcome of its I/O here.

Results:
1. `proto_reachable`: the threads of a run are a run of the protocol.
2. `synced_accounted`: every slot of a successful batch is in the segment
   (`live`) or was flushed out of it by a rotation (`out`).
-/

namespace Hearth.Wal

open Base

/-- Where the leader is inside `commit_batch`. `flushed`, `truncated` and `headed` are the
stages of `rotate_locked`, with the number of the new key. -/
inductive Io
  | idle
  | flushed (key : Nat)
  | truncated (key : Nat)
  | headed (key : Nat)
  | sealedBuf (buf : Bytes)
  | written
  | finished (err : Option String)
  deriving DecidableEq

/-- One call of the cipher: key, record number and payload. -/
structure Seal (C : Cipher) where
  dek : C.Dek
  num : Nat
  payload : Bytes

/-- A WAL in a running process. Below `io` stands history: every key and every seal of the
run, the records sealed under the current key by number, how many of them have been synced
at the front of the segment, the successful slots in the segment and those moved out of it;
`starts` says where in the file the frame of each such record was to start, and `base` are the
records the segment held when it was opened or rotated. -/
structure WalSys (T : Type) (C : Cipher) where
  proto : Sys T Record
  file : DurableFile UInt8
  dek : C.Dek
  encHeader : Bytes
  recordCounter : Nat
  nextKey : Nat
  io : Io
  keys : List C.Dek
  seals : List (Seal C)
  placed : List Record
  starts : List Nat
  synced : Nat
  torn : Bool
  lost : Bool
  base : List Record
  live : List (GroupSlot Record)
  out : List (GroupSlot Record)

def records (b : List (GroupSlot Record)) : List Record := b.map (·.plaintext)

/-- The seals of consecutive records from number `n` on. -/
def sealsFrom (C : Cipher) (dek : C.Dek) : Nat → List Bytes → List (Seal C)
  | _, [] => []
  | n, p :: ps => ⟨dek, n, p⟩ :: sealsFrom C dek (n + 1) ps

/-- The offsets of the frames of consecutive payloads, the first of which starts at `off`. -/
def frameStarts (off : Nat) : List Bytes → List Nat
  | [] => []
  | p :: ps => off :: frameStarts (off + (p.length + 24)) ps

/-- `approx_total` of `commit_batch`. -/
def approxTotal (b : List (GroupSlot Record)) : Nat :=
  (b.map fun x => 4 + x.plaintext.payload.length + 16 + 4).sum

namespace WalSys

variable {T : Type} [DecidableEq T] {C : Cipher}

/-- The process right after `open_with_fs` with the `i`-th key has returned `wal`, whose file
holds the records `rs`. -/
def ofSegment (i : Nat) (wal : Segment C) (rs : List Record) : WalSys T C where
  proto := .init
  file := .stable wal.content
  dek := wal.dek
  encHeader := wal.encHeader
  recordCounter := wal.recordCounter
  nextKey := i + 1
  io := .idle
  keys := [wal.dek]
  seals := sealsFrom C wal.dek 0 (rs.map Record.payload)
  placed := rs
  starts := frameStarts recordOffset (rs.map Record.payload)
  synced := rs.length
  torn := false
  lost := false
  base := rs
  live := []
  out := []

def Opened (s : WalSys T C) : Prop :=
  ∃ i file wal rs, openWithFs C i file = .ok wal ∧ Holds C wal.content wal.dek rs ∧
    wal.recordCounter = rs.length ∧ s = ofSegment i wal rs

omit [DecidableEq T] in
/-- The WAL created in an empty directory. -/
theorem opened_fresh : Opened (ofSegment 0 (writeFreshHeader C 0) [] : WalSys T C) :=
  ⟨0, [], _, [], rfl, holds_fresh 0 _, rfl, rfl⟩

/-- The rotation test of `commit_batch`. -/
def needsRotation (maxSize : Nat) (s : WalSys T C) (b : List (GroupSlot Record)) : Bool :=
  0 < maxSize && maxSize < s.file.content.length + approxTotal b

section

variable (s : WalSys T C)

/-- Reserve the record numbers of a batch and seal it into one buffer. -/
def sealBatch (b : List (GroupSlot Record)) : WalSys T C :=
  { s with
    recordCounter := s.recordCounter + b.length
    io := .sealedBuf (frames C s.dek s.recordCounter ((records b).map Record.payload))
    seals := s.seals ++ sealsFrom C s.dek s.recordCounter ((records b).map Record.payload)
    placed := s.placed ++ records b
    starts := s.starts ++ frameStarts s.file.content.length ((records b).map Record.payload) }

/-- The header `rotate_locked` writes for the `k`-th key. -/
def newHeader (C : Cipher) (k : Nat) : Bytes := segmentHeader (C.wrapDek k (C.generateDek k))

/-- The swap at the end of `rotate_locked`. -/
def swapDek (k : Nat) : WalSys T C :=
  { s with
    file := s.file.sync
    dek := C.generateDek k
    encHeader := C.wrapDek k (C.generateDek k)
    recordCounter := 0
    placed := []
    starts := []
    synced := 0
    torn := false
    lost := false }

/-- The outcome of the batch's I/O reaches the protocol; the leader goes on to publish it. -/
def finish (t : T) (x : GroupSlot Record) (c : Nat) (b : List (GroupSlot Record))
    (err : Option String) : WalSys T C :=
  { s with
    proto := s.proto.commit t x c b err
    io := .idle
    live := if err = none then s.live ++ b else s.live }

end

/-- One step of a thread, or one file operation of the leader. -/
inductive Step (maxSize : Nat) : WalSys T C → WalSys T C → Prop
  -- a critical section of the protocol other than the end of a commit
  | thread {s p} : Sys.Step s.proto p →
      p.committed = s.proto.committed → Step maxSize s { s with proto := p }
  -- measuring the file, generating the key or the pre-rotate flush fails
  | prepareFailed {s t x c b} (msg : String) : s.proto.pc t = .committing x c b →
      s.io = .idle → Step maxSize s { s with io := .finished (some msg) }
  | flushed {s t x c b} : s.proto.pc t = .committing x c b → s.io = .idle →
      s.needsRotation maxSize b = true →
      Step maxSize s { s with
          io := .flushed s.nextKey, nextKey := s.nextKey + 1
          keys := s.keys ++ [C.generateDek s.nextKey] }
  | reserve {s t x c b} : s.proto.pc t = .committing x c b → s.io = .idle →
      s.needsRotation maxSize b = false → Step maxSize s (s.sealBatch b)
  | truncate {s k} : s.io = .flushed k → Step maxSize s { s with
          file := s.file.truncate, io := .truncated k, lost := true
          base := [], live := [], out := s.out ++ s.live }
  | truncateFailed {s k} (msg : String) : s.io = .flushed k →
      Step maxSize s { s with io := .finished (some msg) }
  | writeHeader {s k} : s.io = .truncated k →
      Step maxSize s { s with file := s.file.append (newHeader C k), io := .headed k }
  | writeHeaderFailed {s k} (n : Nat) (msg : String) : s.io = .truncated k → n < recordOffset →
      Step maxSize s
        { s with file := s.file.append ((newHeader C k).take n), io := .finished (some msg) }
  | syncHeader {s k t x c b} : s.io = .headed k → s.proto.pc t = .committing x c b →
      Step maxSize s ((s.swapDek k).sealBatch b)
  | syncHeaderFailed {s k} (msg : String) : s.io = .headed k →
      Step maxSize s { s with io := .finished (some msg) }
  | write {s : WalSys T C} {buf} : s.io = .sealedBuf buf →
      Step maxSize s { s with file := s.file.append buf, io := .written }
  | writeFailed {s} {buf : Bytes} (n : Nat) (msg : String) : s.io = .sealedBuf buf →
      n < buf.length →
      Step maxSize s
        { s with file := s.file.append (buf.take n), io := .finished (some msg), torn := true }
  | sync {s} : s.io = .written → Step maxSize s { s with
          file := s.file.sync, io := .finished none
          synced := if s.torn then s.synced else s.placed.length }
  | syncFailed {s} (msg : String) : s.io = .written →
      Step maxSize s { s with io := .finished (some msg), torn := true }
  | finish {s t x c b err} : s.proto.pc t = .committing x c b →
      s.io = .finished err → Step maxSize s (s.finish t x c b err)

/-! ## The protocol inside -/

section

variable {maxSize : Nat} {s : WalSys T C}

/-- A state of a run from an open. -/
abbrev Reached (maxSize : Nat) (s : WalSys T C) : Prop := Reachable Opened (Step maxSize) s

theorem step_proto {s'} (h : Step maxSize s s') : s'.proto = s.proto ∨ Sys.Step s.proto s'.proto := by
  cases h with
  | thread hst _ => exact .inr hst
  | finish hpc _ => exact .inr (.commit _ hpc)
  | _ => exact .inl rfl

section

variable (h : Reachable Opened (Step maxSize) s)

include h

/-- The threads of a run are a run of the protocol. -/
theorem proto_reachable : Reachable (· = .init) Sys.Step s.proto := by
  refine h.project _ (fun s hs => ?_) fun _ _ => step_proto
  obtain ⟨i, file, wal, rs, -, -, -, rfl⟩ := hs
  rfl

/-- While a commit is under way some thread is in it. -/
theorem io_busy (hio : s.io ≠ .idle) : ∃ t x c b, s.proto.pc t = .committing x c b := by
  refine h.invariant (I := fun s => s.io ≠ .idle → ∃ t x c b, s.proto.pc t = .committing x c b)
    (fun s hs hne => ?_) (fun s s' _ ih hst hne => ?_) hio
  · obtain ⟨i, file, wal, rs, -, -, -, rfl⟩ := hs
    exact absurd rfl hne
  · cases hst with
    | thread hst hc =>
      obtain ⟨t, x, c, b, ht⟩ := ih hne
      exact ⟨t, x, c, b, Sys.committing_stays hst hc ht⟩
    | prepareFailed _ hpc _ | flushed hpc _ _ | reserve hpc _ _ | syncHeader _ hpc => exact ⟨_, _, _, _, hpc⟩
    | finish => exact absurd rfl hne
    | truncate hio | truncateFailed _ hio | writeHeader hio | writeHeaderFailed _ _ hio _
    | syncHeaderFailed _ hio | write hio | writeFailed _ _ hio _ | sync hio | syncFailed _ hio =>
      exact ih (by rw [hio]; exact nofun)

/-- Every slot of a successful batch is in the segment or was flushed out of it. -/
theorem synced_accounted : s.out ++ s.live = s.proto.syncedSlots := by
  refine h.invariant (I := fun s => s.out ++ s.live = s.proto.syncedSlots) (fun s hs => ?_)
    fun s s' _ ih hst => ?_
  · obtain ⟨i, file, wal, rs, -, -, -, rfl⟩ := hs
    rfl
  · cases hst with
    | thread _ hc =>
      rw [ih, Sys.syncedSlots, Sys.syncedSlots, hc]
    | truncate =>
      rw [List.append_nil, ih]
    | @finish t x c b err _ _ =>
      show s.out ++ (if err = none then s.live ++ b else s.live) =
        (s.proto.commit t x c b err).syncedSlots
      have hcom : (s.proto.commit t x c b err).committed = s.proto.committed ++ [(b, err)] := rfl
      rw [Sys.syncedSlots, hcom]
      cases err with
      | none => simp [← List.append_assoc, ih, Sys.syncedSlots]
      | some e => simp [ih, Sys.syncedSlots]
    | _ => exact ih

end

end

end WalSys

end Hearth.Wal
