import Hearth.Cluster.Counter

/-!
# Snapshots and catching up

A leader builds a snapshot while it goes on applying entries; each row is read
at a moment of its own. A follower with any contents clears a key range, puts
the snapshot's rows and applies the log from the index the snapshot declares.

`snapshot_converges` says when the follower ends up with the leader's rows.
`snapshot_diverges`: keys past the end of the scan are lost, and so is an increment
between the reads of a counter and of its sidecar.
-/

namespace Hearth.Cluster

open Base Storage List Function Rows Option Prod

/-- The end of the scans of the builder and of the restore. -/
def scanEnd : Bytes := replicate 256 0xFF

structure RealmData where
  realmId : RealmId
  entries : List (Bytes × Bytes)

/-- The payload of the rows that were read, realm by realm. -/
def payloadOf (rows : Rows) : List RealmData :=
  rows.listRealms.map fun realm => ⟨realm, rows.scan realm [] scanEnd⟩

variable {M : Type}

structure SnapshotBuilder (M : Type) where
  /-- How many entries had been applied when the builder was made. -/
  lastApplied : Nat
  lastMembership : StoredMembership M
  seen : CompositeKey → Bool
  rows : Rows

def isSnapshotKey (key : Bytes) : Bool := key < scanEnd && !isStateMachineMetaKey key

/-- The rows of `now` that were not read before are read off the leader. -/
def SnapshotBuilder.read (b : SnapshotBuilder M) (leader : Rows) (now : CompositeKey → Bool) :
    SnapshotBuilder M :=
  { b with
    seen := fun k => b.seen k || now k
    rows := ⟨insertAll b.rows.map
      (leader.map.toList.filter fun e => now e.1 && !b.seen e.1 && isSnapshotKey e.1.key)⟩ }

structure Snapshot (M : Type) where
  lastApplied : Nat
  lastMembership : StoredMembership M
  payload : List RealmData
  /-- How many entries the leader had applied when the last row had been read. -/
  upTo : Nat

/-! ## Restore -/

def clearRealm (rows : Rows) (realm : RealmId) : Rows :=
  let keys := (rows.scan realm [] scanEnd).map fst
  if keys.isEmpty then rows else rows.writeBatch realm [] keys

def restoreSnapshotInPlace (rows : Rows) (payload : List RealmData) (metaRows : List (Bytes × Bytes)) :
    Rows :=
  let cleared := rows.listRealms.foldl clearRealm rows
  let restored := payload.foldl (fun rows data => rows.putBatch data.realmId data.entries) cleared
  restored.writeBatch metaRealm metaRows []

/-- The applied state an install writes. -/
def installRows (codec : RowCodec M) (log : CommittedLog M) (snap : Snapshot M) : List (Bytes × Bytes) :=
  (smMembershipKey, codec.encodeMembership snap.lastMembership) ::
    ((log.idAt snap.lastApplied).map fun id => (smAppliedKey, codec.encodeLogId id)).toList

section

variable {rows snap : Rows} {r realm : RealmId} {key : Bytes}

theorem valueAt_scan (stop) : valueAt (rows.scan realm [] stop) key =
    if key < stop then rows.get realm key else none := by
  rw [scan, valueAt_window, valueAt_toList]
  exact if_congr ⟨fun h => h.2, fun h => ⟨le_of_not_gt (not_lt_nil key), h⟩⟩ rfl rfl

theorem valueAt_scan_reverse (stop) : valueAt (rows.scan realm [] stop).reverse key =
    if key < stop then rows.get realm key else none := by
  have hsort : KeySorted (rows.scan realm [] stop) := window_sorted (keySorted_toList _)
  rw [hsort.valueAt_reverse, valueAt_scan]

theorem get_clearRealm : (clearRealm rows realm).get r key =
    if r = realm ∧ key < scanEnd then none else rows.get r key := by
  have hkeys : key ∈ (rows.scan realm [] scanEnd).map fst → key < scanEnd := fun h => by
    by_contra hnot
    obtain ⟨e, he, rfl⟩ := mem_map.1 h
    exact valueAt_eq_none.1 ((valueAt_scan _).trans (if_neg hnot)) e he rfl
  have hgone : r = realm → key < scanEnd → key ∉ (rows.scan realm [] scanEnd).map fst →
      rows.get r key = none := fun hr hlt hnot => by
    have hv : valueAt (rows.scan realm [] scanEnd) key = none :=
      valueAt_eq_none.2 fun e he heq => hnot (heq ▸ mem_map_of_mem he)
    rw [valueAt_scan, if_pos hlt] at hv
    rw [hr, hv]
  rw [clearRealm]
  split
  · next hempty =>
    split
    · next hin => exact hgone hin.1 hin.2 (by rw [isEmpty_iff.1 hempty]; exact not_mem_nil)
    · rfl
  · rw [get_writeBatch]
    by_cases hr : r = realm
    · by_cases hlt : key < scanEnd
      · by_cases hin : key ∈ (rows.scan realm [] scanEnd).map fst
        · simp [hlt, hin]
        · simp only [hr, hlt, hin]
          rw [← hr, hgone hr hlt hin]
          rfl
      · have hin : key ∉ (rows.scan realm [] scanEnd).map fst := fun h => hlt (hkeys h)
        simp only [hr, hlt, hin]
        rfl
    · simp [hr]

theorem get_cleared (realms : List RealmId) : (realms.foldl clearRealm rows).get r key =
    if r ∈ realms ∧ key < scanEnd then none else rows.get r key := by
  induction realms generalizing rows with
  | nil => exact (if_neg fun h => not_mem_nil h.1).symm
  | cons realm realms ih =>
    rw [foldl_cons, ih, get_clearRealm]
    by_cases hlt : key < scanEnd
    · by_cases hin : r ∈ realms
      · rw [if_pos ⟨hin, hlt⟩, if_pos ⟨mem_cons_of_mem _ hin, hlt⟩]
      · rw [if_neg fun h => hin h.1]
        exact if_congr ⟨fun h => ⟨h.1 ▸ mem_cons_self, h.2⟩,
          fun h => ⟨(mem_cons.1 h.1).resolve_right hin, h.2⟩⟩ rfl rfl
    · rw [if_neg fun h => hlt h.2, if_neg fun h => hlt h.2, if_neg fun h => hlt h.2]

theorem get_restored (realms : List RealmId) :
    ((realms.map fun realm => (⟨realm, snap.scan realm [] scanEnd⟩ : RealmData)).foldl
      (fun rows data => rows.putBatch data.realmId data.entries) rows).get r key =
      if r ∈ realms ∧ key < scanEnd then (snap.get r key).or (rows.get r key) else rows.get r key := by
  induction realms generalizing rows with
  | nil => exact (if_neg fun h => not_mem_nil h.1).symm
  | cons realm realms ih =>
    rw [map_cons, foldl_cons, ih, get_putBatch, valueAt_scan_reverse]
    by_cases hlt : key < scanEnd
    · by_cases hr : r = realm
      · by_cases hin : realm ∈ realms
        · simp only [hr, hlt, hin, mem_cons_self, and_self, if_true]
          rw [← Option.or_assoc, Option.or_self]
        · simp [hr, hlt, hin]
      · simp [hr]
    · simp [hlt]

theorem get_restore {metaRows} (hmeta : ∀ e ∈ metaRows, e.1 ≠ key) :
    (restoreSnapshotInPlace rows (payloadOf snap) metaRows).get r key =
      if key < scanEnd then snap.get r key else rows.get r key := by
  have hnone : valueAt metaRows.reverse key = none :=
    valueAt_eq_none.2 fun e he heq => hmeta e (mem_reverse.1 he) heq.symm
  rw [restoreSnapshotInPlace, get_writeBatch, if_neg not_mem_nil, hnone, none_or, ite_self,
    payloadOf, get_restored, get_cleared]
  by_cases hlt : key < scanEnd
  · have hlist : ∀ {rows : Rows}, r ∉ rows.listRealms → rows.get r key = none := fun {rows} hr => by
      cases hget : rows.get r key with
      | none => rfl
      | some v => exact absurd (mem_listRealms hget) hr
    have hclear : (if r ∈ rows.listRealms ∧ key < scanEnd then none else rows.get r key) = none := by
      split
      · rfl
      · next hnot => exact hlist fun hr => hnot ⟨hr, hlt⟩
    rw [hclear]
    split
    · exact or_none
    · next hnot => exact (hlist fun hr => hnot ⟨hr, hlt⟩).symm
  · rw [if_neg fun h => hlt h.2, if_neg fun h => hlt h.2, if_neg hlt]

end

/-! ## Reads -/

section

variable {b : SnapshotBuilder M} {leader : Rows} {now : CompositeKey → Bool} {r : RealmId} {key : Bytes}

theorem get_read : (b.read leader now).rows.get r key =
    if now ⟨r, key⟩ && !b.seen ⟨r, key⟩ && isSnapshotKey key then (leader.get r key).or (b.rows.get r key)
    else b.rows.get r key := by
  have hsort : KeySorted (leader.map.toList.filter fun e =>
      now e.1 && !b.seen e.1 && isSnapshotKey e.1.key) :=
    (keySorted_toList _).sublist filter_sublist
  have hfilt : valueAt (leader.map.toList.filter fun e =>
      now e.1 && !b.seen e.1 && isSnapshotKey e.1.key) ⟨r, key⟩ =
      if now ⟨r, key⟩ && !b.seen ⟨r, key⟩ && isSnapshotKey key then leader.get r key else none := by
    rw [valueAt_filter (q := fun k => now k && !b.seen k && isSnapshotKey k.key), valueAt_toList]
    rfl
  rw [SnapshotBuilder.read, Rows.get, getElem?_insertAll, hsort.valueAt_reverse, hfilt]
  split <;> rfl

/-- A sidecar's key is below the end of the scan if its counter's is: the suffix starts with a
zero. -/
theorem append_lt_replicate {rest} : ∀ {n : Nat} {l : Bytes},
    l < replicate n 0xFF → l ++ 0 :: rest < replicate n 0xFF
  | 0, l, h => absurd h (not_lt_nil l)
  | n + 1, [], _ => cons_lt_cons_iff.2 (.inl (by decide))
  | n + 1, a :: l, h => by
    rcases cons_lt_cons_iff.1 h with hlt | ⟨rfl, hlt⟩
    · exact cons_lt_cons_iff.2 (.inl hlt)
    · exact cons_lt_cons_iff.2 (.inr ⟨rfl, append_lt_replicate hlt⟩)

theorem appliedIndexKey_lt (h : key < scanEnd) : appliedIndexKey key < scanEnd := append_lt_replicate h

theorem lt_appliedIndexKey : key < appliedIndexKey key := by
  have h : Lex (· < ·) (key ++ []) (key ++ appliedIndexSuffix) := .append_left _ .nil key
  rwa [append_nil] at h

end

/-! ## A leader and a follower -/

/-- The membership after the first `t` entries. -/
def membershipAt [Inhabited M] (log : CommittedLog M) (t : Nat) : StoredMembership M :=
  (log.entries.take t).foldl (fun stored e => match e.payload with
    | .membership m => ⟨some e.logId, m⟩
    | _ => stored) ⟨none, default⟩

structure SnapshotSys (M : Type) where
  /-- How many entries the leader has applied. -/
  leader : Nat
  builder : Option (SnapshotBuilder M)
  snapshot : Option (Snapshot M)
  follower : Rows
  installed : Option (Snapshot M)
  /-- How many entries the follower counts as applied. -/
  applied : Nat
  /-- Its answers since the install. -/
  answers : Nat → Option HearthLogResponse

inductive SnapshotEvent
  | read (now : CompositeKey → Bool)
  | other

namespace SnapshotSys

inductive Step [Inhabited M] (codec : RowCodec M) (log : CommittedLog M) :
    SnapshotEvent → SnapshotSys M → SnapshotSys M → Prop
  | leaderApply {s} : s.leader < log.entries.length →
      Step codec log .other s { s with leader := s.leader + 1 }
  | beginBuild {s} : Step codec log .other s { s with
        builder := some ⟨s.leader, membershipAt log s.leader, fun _ => false, .empty⟩ }
  | read {s b now} : s.builder = some b → Step codec log (.read now) s { s with
        builder := some (b.read (leaderAt codec log s.leader) now) }
  | finishBuild {s b} : s.builder = some b →
      (∀ r key, isSnapshotKey key = true → b.seen ⟨r, key⟩ = true) →
      Step codec log .other s { s with
        builder := none
        snapshot := some ⟨b.lastApplied, b.lastMembership, payloadOf b.rows, s.leader⟩ }
  | install {s snap} : s.snapshot = some snap → Step codec log .other s { s with
        follower := restoreSnapshotInPlace s.follower snap.payload (installRows codec log snap)
        installed := some snap
        applied := snap.lastApplied
        answers := fun _ => none }
  | followerApply {s snap e} : s.installed = some snap → log.entries[s.applied]? = some e →
      Step codec log .other s { s with
        follower := (applyEntry codec s.follower e).1
        applied := s.applied + 1
        answers := update s.answers s.applied (some (applyEntry codec s.follower e).2) }

/-- A leader on an empty store, and a follower with the given rows. -/
def Init (previous : Rows) (s : SnapshotSys M) : Prop :=
  s.leader = 0 ∧ s.builder = none ∧ s.snapshot = none ∧ s.follower = previous ∧ s.installed = none

/-- A follower past the entries of the build has the leader's rows and has given its answers. -/
def Converged (codec : RowCodec M) (log : CommittedLog M) (s : SnapshotSys M) : Prop :=
  ∀ snap, s.installed = some snap → snap.upTo ≤ s.applied →
    (∀ r key, isUserKey key = true → s.follower.get r key = (leaderAt codec log s.applied).get r key) ∧
    ∀ p e, snap.upTo ≤ p → p < s.applied → log.entries[p]? = some e →
      s.answers p = some (applyEntry codec (leaderAt codec log p) e).2

end SnapshotSys

/-- When one row of a counter is read after the other, the one read first is still what it was. A
key that is no counter may be read at any time. -/
def SnapshotBuilder.ReadsCells (b : SnapshotBuilder M) (leader : Rows) (now : CompositeKey → Bool) : Prop :=
  ∀ r key, isUserKey key = true →
    (now ⟨r, key⟩ = true → b.seen ⟨r, key⟩ = false → b.seen ⟨r, appliedIndexKey key⟩ = true →
      leader.get r (appliedIndexKey key) = b.rows.get r (appliedIndexKey key)) ∧
    (now ⟨r, appliedIndexKey key⟩ = true → b.seen ⟨r, appliedIndexKey key⟩ = false →
      b.seen ⟨r, key⟩ = true → (leader.get r (appliedIndexKey key)).isSome = true →
      leader.get r key = b.rows.get r key)

def SnapshotEvent.ReadsCells (codec : RowCodec M) (log : CommittedLog M) :
    SnapshotEvent → SnapshotSys M → Prop
  | .read now, s => ∀ b, s.builder = some b → b.ReadsCells (leaderAt codec log s.leader) now
  | .other, _ => True

/-- The command names user keys below the end of the scan. -/
def RaftCommand.InRange (cmd : RaftCommand) : Prop :=
  cmd.NamesUserKeys ∧ (∀ key ∈ cmd.written, key < scanEnd) ∧ ∀ key ∈ cmd.deleted, key < scanEnd

/-- All commands of the log and all previous rows of the follower do. -/
structure InRange (log : CommittedLog M) (previous : Rows) : Prop where
  commands : ∀ e ∈ log.entries, ∀ cmd, e.payload = .normal cmd → cmd.InRange
  previous : ∀ r key, ¬key < scanEnd → previous.get r key = none

/-! ## Builders -/

section

variable {codec : RowCodec M} {log : CommittedLog M}

/-- The builder has each cell it has read from one moment of its time. -/
structure SnapshotBuilder.Ok (codec : RowCodec M) (log : CommittedLog M) (leader : Nat)
    (b : SnapshotBuilder M) : Prop where
  le : b.lastApplied ≤ leader
  unseen : ∀ r key, b.seen ⟨r, key⟩ = false → b.rows.get r key = none
  value : ∀ r key, isUserKey key = true → key < scanEnd → b.seen ⟨r, key⟩ = true →
    ∃ t, b.lastApplied ≤ t ∧ t ≤ leader ∧ b.rows.get r key = (leaderAt codec log t).get r key
  cell : ∀ r key, isUserKey key = true → key < scanEnd → b.seen ⟨r, key⟩ = true →
    b.seen ⟨r, appliedIndexKey key⟩ = true →
    ∃ t, b.lastApplied ≤ t ∧ t ≤ leader ∧ b.rows.cell r key = (leaderAt codec log t).cell r key

variable {leader : Nat} {b : SnapshotBuilder M}

theorem SnapshotBuilder.Ok.mono (h : b.Ok codec log leader) : b.Ok codec log (leader + 1) := by
  refine ⟨Nat.le_succ_of_le h.le, h.unseen, fun r key hu hlt hs => ?_, fun r key hu hlt hs hs' => ?_⟩
  · obtain ⟨t, ht, htl, heq⟩ := h.value r key hu hlt hs
    exact ⟨t, ht, Nat.le_succ_of_le htl, heq⟩
  · obtain ⟨t, ht, htl, heq⟩ := h.cell r key hu hlt hs hs'
    exact ⟨t, ht, Nat.le_succ_of_le htl, heq⟩

theorem SnapshotBuilder.Ok.get_read (h : b.Ok codec log leader) (now : CompositeKey → Bool) {r key} (hkey : isSnapshotKey key = true) :
    (b.read (leaderAt codec log leader) now).rows.get r key =
      if b.seen ⟨r, key⟩ = false ∧ now ⟨r, key⟩ = true then (leaderAt codec log leader).get r key
      else b.rows.get r key := by
  rw [Cluster.get_read, hkey]
  cases hseen : b.seen ⟨r, key⟩ with
  | true => simp
  | false =>
    rw [h.unseen r key hseen, or_none]
    cases now ⟨r, key⟩ <;> rfl

theorem isSnapshotKey_user {key} (hu : isUserKey key = true) (hlt : key < scanEnd) :
    isSnapshotKey key = true := by
  obtain ⟨happ, hmem, -⟩ := isUserKey_iff.1 hu
  simp [isSnapshotKey, isStateMachineMetaKey, hlt, happ, hmem]

theorem isSnapshotKey_sidecar {key} (hlt : key < scanEnd) :
    isSnapshotKey (appliedIndexKey key) = true := by
  obtain ⟨happ, hmem⟩ := appliedIndexKey_ne_meta key
  simp [isSnapshotKey, isStateMachineMetaKey, appliedIndexKey_lt hlt, happ, hmem]

theorem SnapshotBuilder.Ok.read (hlog : ∀ e ∈ log.entries, e.NamesUserKeys) (h : b.Ok codec log leader)
    (hleader : leader ≤ log.entries.length) {now}
    (hcells : b.ReadsCells (leaderAt codec log leader) now) :
    (b.read (leaderAt codec log leader) now).Ok codec log leader := by
  refine ⟨h.le, fun r key hs => ?_, fun r key hu hlt hs => ?_, fun r key hu hlt hs hs' => ?_⟩
  · obtain ⟨hseen, hnow⟩ := Bool.or_eq_false_iff.1 hs
    rw [Cluster.get_read, hnow, h.unseen r key hseen]
    rfl
  · rw [h.get_read now (isSnapshotKey_user hu hlt)]
    split
    · exact ⟨leader, h.le, le_rfl, rfl⟩
    · next hnot =>
      refine h.value r key hu hlt ?_
      cases hseen : b.seen ⟨r, key⟩ with
      | true => rfl
      | false => exact absurd ⟨hseen, (Bool.or_eq_true_iff.1 hs).resolve_left (by rw [hseen]; nofun)⟩ hnot
  · have hvalue := h.get_read now (r := r) (isSnapshotKey_user hu hlt)
    have hside := h.get_read now (r := r) (isSnapshotKey_sidecar hlt)
    have hnow : b.seen ⟨r, key⟩ = false → now ⟨r, key⟩ = true := fun hseen =>
      (Bool.or_eq_true_iff.1 hs).resolve_left (by rw [hseen]; nofun)
    have hnow' : b.seen ⟨r, appliedIndexKey key⟩ = false → now ⟨r, appliedIndexKey key⟩ = true :=
      fun hseen => (Bool.or_eq_true_iff.1 hs').resolve_left (by rw [hseen]; nofun)
    have hcell : ∀ t, b.lastApplied ≤ t → t ≤ leader →
        (b.read (leaderAt codec log leader) now).rows.get r key = (leaderAt codec log t).get r key →
        (b.read (leaderAt codec log leader) now).rows.get r (appliedIndexKey key) =
          (leaderAt codec log t).get r (appliedIndexKey key) →
        ∃ t, b.lastApplied ≤ t ∧ t ≤ leader ∧
          (b.read (leaderAt codec log leader) now).rows.cell r key = (leaderAt codec log t).cell r key := by
      intro t ht htl hv hm
      exact ⟨t, ht, htl, by rw [Rows.cell, Rows.cell, hv, hm]⟩
    cases hk : b.seen ⟨r, key⟩ with
    | true =>
      rw [hk] at hvalue
      cases hm : b.seen ⟨r, appliedIndexKey key⟩ with
      | true =>
        rw [hm] at hside
        obtain ⟨t, ht, htl, heq⟩ := h.cell r key hu hlt hk hm
        exact hcell t ht htl (hvalue.trans (congrArg Cell.value heq)) (hside.trans (congrArg Cell.sidecar heq))
      | false =>
        rw [hm, if_pos ⟨rfl, hnow' hm⟩] at hside
        cases hlead : (leaderAt codec log leader).get r (appliedIndexKey key) with
        | some side =>
          have hsame := (hcells r key hu).2 (hnow' hm) hm hk (by rw [hlead]; rfl)
          exact hcell _ h.le (le_rfl) (hvalue.trans hsame.symm) hside
        | none =>
          -- the leader has not had a sidecar at any moment before
          obtain ⟨t, ht, htl, heq⟩ := h.value r key hu hlt hk
          have hnone : (leaderAt codec log t).get r (appliedIndexKey key) = none := by
            by_contra hsome
            have hlater : ((leaderAt codec log leader).cell r key).sidecar.isSome = true :=
              leader_sidecar_isSome hlog hu htl hleader (isSome_iff_ne_none.2 hsome)
            rw [Rows.cell, hlead] at hlater
            cases hlater
          exact hcell t ht htl (hvalue.trans heq) (hside.trans (hlead.trans hnone.symm))
    | false =>
      rw [hk, if_pos ⟨rfl, hnow hk⟩] at hvalue
      refine hcell _ h.le (le_rfl) hvalue ?_
      cases hm : b.seen ⟨r, appliedIndexKey key⟩ with
      | true =>
        rw [hm] at hside
        exact hside.trans ((hcells r key hu).1 (hnow hk) hk hm).symm
      | false =>
        rw [hm, if_pos ⟨rfl, hnow' hm⟩] at hside
        exact hside

end

/-! ## Runs -/

namespace SnapshotSys

section

variable {codec : RowCodec M} {log : CommittedLog M} {previous : Rows} {s s' : SnapshotSys M}

/-- The snapshot has each cell from one moment of its build. -/
structure SnapshotOk (codec : RowCodec M) (log : CommittedLog M) (snap : Snapshot M) : Prop where
  first : snap.lastApplied ≤ snap.upTo
  upTo : snap.upTo ≤ log.entries.length
  payload : ∃ rows, snap.payload = payloadOf rows ∧ ∀ r key, isUserKey key = true → key < scanEnd →
    ∃ m, snap.lastApplied ≤ m ∧ m ≤ snap.upTo ∧ rows.cell r key = (leaderAt codec log m).cell r key

structure FollowerOk (codec : RowCodec M) (log : CommittedLog M) (s : SnapshotSys M) (snap : Snapshot M) :
    Prop where
  snapshot : SnapshotOk codec log snap
  cells : ∀ r key, isUserKey key = true →
    ∃ m ≤ snap.upTo, Follows codec log r key m s.applied (s.follower.cell r key)
  answers : ∀ p e, snap.upTo ≤ p → p < s.applied → log.entries[p]? = some e →
    s.answers p = some (applyEntry codec (leaderAt codec log p) e).2

structure Inv (codec : RowCodec M) (log : CommittedLog M) (s : SnapshotSys M) : Prop where
  leader : s.leader ≤ log.entries.length
  builder : ∀ b, s.builder = some b → b.Ok codec log s.leader
  snapshot : ∀ snap, s.snapshot = some snap → SnapshotOk codec log snap
  outside : ∀ r key, isUserKey key = true → ¬key < scanEnd → s.follower.cell r key = ⟨none, none⟩
  installed : ∀ snap, s.installed = some snap → FollowerOk codec log s snap

theorem FollowerOk.same {snap} (h : FollowerOk codec log s snap) (hle : snap.upTo ≤ s.applied)
    (r) {key} (hu : isUserKey key = true) :
    SameCell codec log r key s.applied (s.follower.cell r key) := by
  obtain ⟨m, hm, hfoll⟩ := h.cells r key hu
  rcases hfoll with hsame | ⟨hlt, -⟩
  · exact hsame
  · exact absurd (lt_of_lt_of_le hlt (le_trans hm hle)) (lt_irrefl _)

section

variable (hrange : InRange log previous)

include hrange

theorem opAt_outside {e} (he : e ∈ log.entries) {r key} (hout : ¬key < scanEnd) : e.opAt r key = .keep := by
  cases hp : e.payload with
  | blank | membership m => rw [LogEntry.opAt, hp]
  | normal cmd =>
    obtain ⟨-, hwrit, hdeleted⟩ := hrange.commands e he cmd hp
    have hkeep : ∀ {puts deletes}, (∀ k ∈ puts.map fst, k < scanEnd) →
        (∀ k ∈ deletes, k < scanEnd) → CellOp.ofWrites key puts deletes = .keep := by
      intro puts deletes hput hdel
      have hnone : valueAt puts.reverse key = none := valueAt_eq_none.2 fun p hp heq =>
        hout (heq ▸ hput p.1 (mem_map_of_mem (mem_reverse.1 hp)))
      rw [CellOp.ofWrites, if_neg fun h => hout (hdel key h), hnone]
    have hother : ∀ {k}, k ∈ cmd.written → ¬k = key := fun hk heq => hout (heq ▸ hwrit _ hk)
    rw [LogEntry.opAt, hp]
    refine (if_congr .rfl ?_ rfl).trans (ite_self _)
    cases cmd with
    | put realm k value =>
      have hput : ∀ k' ∈ [(k, value)].map fst, k' < scanEnd := hwrit
      exact hkeep hput (forall_mem_nil _)
    | delete realm k =>
      have hput : ∀ k' ∈ ([] : List (Bytes × Bytes)).map fst, k' < scanEnd := forall_mem_nil _
      exact hkeep hput hdeleted
    | batch realm entries => exact hkeep hwrit (forall_mem_nil _)
    | writeBatch realm puts deletes => exact hkeep hwrit hdeleted
    | putIfAbsent realm k value | incrementU64 realm k => exact if_neg (hother (mem_singleton.2 rfl))

theorem InRange.names : ∀ e ∈ log.entries, e.NamesUserKeys :=
  fun e he cmd hp => (hrange.commands e he cmd hp).1

theorem leader_outside {r key}
    (hu : isUserKey key = true) (hout : ¬key < scanEnd) {t} (ht : t ≤ log.entries.length) :
    (leaderAt codec log t).cell r key = ⟨none, none⟩ := by
  induction t with
  | zero => rfl
  | succ t ih =>
    have he : log.entries[t]? = some log.entries[t] := getElem?_eq_getElem ht
    rw [leaderCell_succ (InRange.names hrange) hu he, opAt_outside hrange (getElem_mem ht) hout]
    exact ih (le_of_lt ht)

end

theorem cell_install (follower rows : Rows) (snap : Snapshot M) (r) {key}
    (hu : isUserKey key = true) :
    (restoreSnapshotInPlace follower (payloadOf rows) (installRows codec log snap)).cell r key =
      if key < scanEnd then rows.cell r key else follower.cell r key := by
  have hmeta : ∀ e ∈ installRows codec log snap, e.1 = smMembershipKey ∨ e.1 = smAppliedKey := by
    intro e he
    rcases mem_cons.1 he with rfl | he
    · exact .inl rfl
    · obtain ⟨id, -, rfl⟩ := map_eq_some_iff.1 (mem_toList.1 he)
      exact .inr rfl
  have hne : ∀ {k}, k ≠ smAppliedKey → k ≠ smMembershipKey → ∀ e ∈ installRows codec log snap, e.1 ≠ k :=
    fun ha hm e he heq => (hmeta e he).elim (fun h => hm (heq.symm.trans h)) fun h => ha (heq.symm.trans h)
  obtain ⟨happ, hmem, -⟩ := isUserKey_iff.1 hu
  obtain ⟨happlied', hmember'⟩ := appliedIndexKey_ne_meta key
  rw [cell, get_restore (hne happ hmem), get_restore (hne happlied' hmember')]
  by_cases hlt : key < scanEnd
  · rw [if_pos hlt, if_pos hlt, if_pos (appliedIndexKey_lt hlt)]
    rfl
  · rw [if_neg hlt, if_neg hlt, if_neg fun h => hlt (lt_trans lt_appliedIndexKey h)]
    rfl

theorem inv_install (hrange : InRange log previous) (h : s.Inv codec log) {snap}
    (hsnap : s.snapshot = some snap) :
    Inv codec log { s with
      follower := restoreSnapshotInPlace s.follower snap.payload (installRows codec log snap)
      installed := some snap
      applied := snap.lastApplied
      answers := fun _ => none } := by
  have hok := h.snapshot snap hsnap
  obtain ⟨rows, hpayload, hcells⟩ := hok.payload
  rw [hpayload]
  refine ⟨h.leader, h.builder, h.snapshot, fun r key hu hout => ?_, fun snap' heq => ?_⟩
  · rw [cell_install _ _ _ _ hu, if_neg hout]
    exact h.outside r key hu hout
  · cases heq
    refine ⟨hok, fun r key hu => ?_, fun p e hp hlt => ?_⟩
    · show ∃ m ≤ snap.upTo, Follows codec log r key m snap.lastApplied
        ((restoreSnapshotInPlace s.follower (payloadOf rows) (installRows codec log snap)).cell r key)
      rw [cell_install _ _ _ _ hu]
      by_cases hlt : key < scanEnd
      · obtain ⟨m, hfirst, hm, hcell⟩ := hcells r key hu hlt
        rw [if_pos hlt, hcell]
        refine ⟨m, hm, ?_⟩
        rcases lt_or_eq_of_le hfirst with hfirst | rfl
        · exact .inr ⟨hfirst, fun hs => hs, .inl rfl⟩
        · exact .inl ⟨rfl, .inl rfl⟩
      · have hlead : (leaderAt codec log snap.lastApplied).cell r key = ⟨none, none⟩ :=
          leader_outside hrange hu hlt (le_trans hok.first hok.upTo)
        rw [if_neg hlt, h.outside r key hu hlt, ← hlead]
        exact ⟨snap.lastApplied, hok.first, .inl ⟨rfl, .inl rfl⟩⟩
    · exact absurd hlt (not_lt.2 (le_trans hok.first hp))

theorem inv_followerApply (hrange : InRange log previous) (h : s.Inv codec log) {e}
    (he : log.entries[s.applied]? = some e) :
    Inv codec log { s with
      follower := (applyEntry codec s.follower e).1
      applied := s.applied + 1
      answers := update s.answers s.applied (some (applyEntry codec s.follower e).2) } := by
  have hmem := mem_of_getElem? he
  have hcell : ∀ r key, isUserKey key = true → (applyEntry codec s.follower e).1.cell r key = _ :=
    fun r key => cell_applyEntry (InRange.names hrange e hmem)
  refine ⟨h.leader, h.builder, h.snapshot, fun r key hu hout => ?_, fun snap hsnap => ?_⟩
  · show (applyEntry codec s.follower e).1.cell r key = ⟨none, none⟩
    rw [hcell r key hu, opAt_outside hrange hmem hout]
    exact h.outside r key hu hout
  · have hf := h.installed snap hsnap
    refine ⟨hf.snapshot, fun r key hu => ?_, fun p e' hp hlt he' => ?_⟩
    · obtain ⟨m, hm, hfoll⟩ := hf.cells r key hu
      refine ⟨m, hm, ?_⟩
      rw [hcell r key hu]
      exact follows_step (InRange.names hrange) hu he (le_trans hm hf.snapshot.upTo) hfoll
    · show update s.answers s.applied _ p = _
      rcases lt_or_eq_of_le (Nat.lt_succ_iff.1 hlt) with hlt | rfl
      · rw [update_of_ne (ne_of_lt hlt)]
        exact hf.answers p e' hp hlt he'
      · rw [update_self, ← some.inj (he.symm.trans he')]
        exact congrArg some (response_eq (InRange.names hrange) he fun r key => hf.same hp r)

variable [Inhabited M]

theorem inv_snapshot_step (hrange : InRange log previous) (h : s.Inv codec log) {ev}
    (hcells : ev.ReadsCells codec log s) (hst : Step codec log ev s s') : s'.Inv codec log := by
  cases hst with
  | leaderApply hlt =>
    exact ⟨hlt, fun b hb => (h.builder b hb).mono, h.snapshot, h.outside, fun snap hsnap =>
      { h.installed snap hsnap with }⟩
  | beginBuild =>
    refine ⟨h.leader, fun b hb => ?_, h.snapshot, h.outside, fun snap hsnap => { h.installed snap hsnap with }⟩
    cases hb
    exact ⟨le_rfl, fun _ _ _ => rfl, nofun, nofun⟩
  | read hb =>
    refine ⟨h.leader, fun b' hb' => ?_, h.snapshot, h.outside, fun snap hsnap => { h.installed snap hsnap with }⟩
    cases hb'
    exact (h.builder _ hb).read (InRange.names hrange) h.leader (hcells _ hb)
  | @finishBuild _ b hb hseen =>
    refine ⟨h.leader, nofun, fun snap hsnap => ?_, h.outside, fun snap hsnap => { h.installed snap hsnap with }⟩
    cases hsnap
    have hok := h.builder b hb
    exact ⟨hok.le, h.leader, b.rows, rfl, fun r key hu hlt => hok.cell r key hu hlt
      (hseen r key (isSnapshotKey_user hu hlt)) (hseen r _ (isSnapshotKey_sidecar hlt))⟩
  | install hsnap => exact inv_install hrange h hsnap
  | followerApply _ he => exact inv_followerApply hrange h he

omit [Inhabited M] in
theorem inv_snapshot_init (hrange : InRange log previous) (h : Init previous s) : s.Inv codec log := by
  obtain ⟨hlead, hbuilder, hsnap, rfl, hinst⟩ := h
  refine ⟨hlead ▸ Nat.zero_le _, fun b hb => ?_, fun snap hs => ?_, fun r key hu hout => ?_, fun snap hs => ?_⟩
  · cases hbuilder.symm.trans hb
  · cases hsnap.symm.trans hs
  · rw [cell, hrange.previous r key hout,
      hrange.previous r _ fun h => hout (lt_trans lt_appliedIndexKey h)]
  · cases hinst.symm.trans hs

/-- In every run on a log that names user keys below the end of the scan, with a follower that has
no others, and with no counter read apart from its sidecar, a follower that has caught up has the
leader's rows and answers. -/
theorem snapshot_converges (hrange : InRange log previous) (h : Reachable (Init previous)
      (LabelledWith (Step codec log) (SnapshotEvent.ReadsCells codec log)) s) :
    s.Converged codec log := by
  have hinv : s.Inv codec log := h.preserves (inv_snapshot_init hrange)
    fun hi => inv_snapshot_step hrange hi
  intro snap hsnap hle
  have hf := hinv.installed snap hsnap
  exact ⟨fun r key hu => (hf.same hle r hu).value, hf.answers⟩

end

/-! ## Lost rows -/

open ApplySys (demoCodec demoRealm)

def oneCommand (cmd : RaftCommand) : CommittedLog Unit where
  entries := [⟨⟨1, 0, 1⟩, .normal cmd⟩]
  increasing := pairwise_singleton _ _
  index_lt e he := by
    rw [mem_singleton.1 he]
    exact Nat.one_lt_two_pow (by decide)
  index_pos e he _ _ := by
    rw [mem_singleton.1 he]
    exact one_pos

/-- The leader has nothing, and the follower the given rows. -/
def demoStart (previous : Rows) : SnapshotSys Unit :=
  ⟨0, none, none, previous, none, 0, fun _ => none⟩

def putLog : CommittedLog Unit := oneCommand (.put demoRealm [7] [1])

/-- A put is applied while the snapshot is built, and again by a follower that had other rows. -/
theorem snapshot_converges_put : ∃ s : SnapshotSys Unit,
    Reachable (Init (empty.putBatch demoRealm [([8], [2])]))
      (LabelledWith (Step demoCodec putLog) (SnapshotEvent.ReadsCells demoCodec putLog)) s ∧
    s.installed.map (fun snap => (snap.lastApplied, snap.payload.isEmpty)) = some (0, false) ∧
    s.applied = 1 ∧ s.follower.get demoRealm [7] = some [1] ∧ s.follower.get demoRealm [8] = none ∧
    s.Converged demoCodec putLog := by
  have hstart : Reachable (Init (empty.putBatch demoRealm [([8], [2])]))
      (LabelledWith (Step demoCodec putLog) (SnapshotEvent.ReadsCells demoCodec putLog))
      (demoStart (empty.putBatch demoRealm [([8], [2])])) := .start ⟨rfl, rfl, rfl, rfl, rfl⟩
  have hbegun := hstart.take (.beginBuild)
  have hput := hbegun.take (.leaderApply (by decide))
  have hread := hput.next ⟨.read fun _ => true, fun b hb => ?_, .read rfl⟩
  · have hbuilt := hread.take (.finishBuild rfl fun _ _ _ => rfl)
    have hinst := hbuilt.take (.install rfl)
    have happ := hinst.take (.followerApply rfl rfl)
    refine ⟨_, happ, by decide +kernel, rfl, by decide +kernel, by decide +kernel,
      snapshot_converges ⟨?_, ?_⟩ happ⟩
    · intro e he cmd hcmd
      cases mem_singleton.1 he
      cases hcmd
      exact ⟨⟨by decide +kernel, nofun⟩, by decide +kernel, nofun⟩
    · intro r key hout
      have hne : ¬key = [8] := fun h => hout (h ▸ by decide +kernel)
      rw [get_putBatch, reverse_singleton, valueAt_cons, if_neg hne, valueAt_nil, none_or,
        ite_self]
      rfl
  · cases hb
    exact fun _ _ _ => ⟨nofun, nofun⟩

theorem snapshot_diverges : (∃ s : SnapshotSys Unit, Reachable (Init .empty)
      (LabelledWith (Step demoCodec (oneCommand (.put demoRealm scanEnd [1]))) fun _ _ => True) s ∧
      ¬s.Converged demoCodec (oneCommand (.put demoRealm scanEnd [1]))) ∧
    ∃ s : SnapshotSys Unit, Reachable (Init .empty)
      (LabelledWith (Step demoCodec (oneCommand (.incrementU64 demoRealm [7]))) fun _ _ => True) s ∧
      ¬s.Converged demoCodec (oneCommand (.incrementU64 demoRealm [7])) := by
  constructor
  · have hstart : Reachable (Init .empty)
        (LabelledWith (Step demoCodec (oneCommand (.put demoRealm scanEnd [1]))) fun _ _ => True)
        (demoStart .empty) := .start ⟨rfl, rfl, rfl, rfl, rfl⟩
    have hput := hstart.take (.leaderApply (by decide))
    have hbegun := hput.take (.beginBuild)
    have hread := hbegun.next ⟨.read fun _ => true, trivial, .read rfl⟩
    have hbuilt := hread.take (.finishBuild rfl fun _ _ _ => rfl)
    have hinst := hbuilt.take (.install rfl)
    refine ⟨_, hinst, fun h => ?_⟩
    have hrow := (h _ rfl (le_rfl)).1 demoRealm scanEnd (by decide +kernel)
    revert hrow
    decide +kernel
  · have hstart : Reachable (Init .empty)
        (LabelledWith (Step demoCodec (oneCommand (.incrementU64 demoRealm [7]))) fun _ _ => True)
        (demoStart .empty) := .start ⟨rfl, rfl, rfl, rfl, rfl⟩
    have hbegun := hstart.take (.beginBuild)
    -- the counter, then the increment, then everything else
    have hcounter := hbegun.next ⟨.read fun k => k = ⟨demoRealm, [7]⟩, trivial, .read rfl⟩
    have hinc := hcounter.take (.leaderApply (by decide))
    have hread := hinc.next ⟨.read fun _ => true, trivial, .read rfl⟩
    have hbuilt := hread.take (.finishBuild rfl fun _ _ _ => Bool.or_true _)
    have hinst := hbuilt.take (.install rfl)
    have happ := hinst.take (.followerApply rfl rfl)
    refine ⟨_, happ, fun h => ?_⟩
    have hrow := (h _ rfl (le_rfl)).1 demoRealm [7] (by decide +kernel)
    revert hrow
    decide +kernel

end SnapshotSys

end Hearth.Cluster
