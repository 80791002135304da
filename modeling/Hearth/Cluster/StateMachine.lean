import Hearth.Storage.Engine

/-!
# The replicated state machine

Committed log entries are applied one at a time to the storage engine. An
entry's writes, the sidecar rows of the counters it moves and the row that
records its log id go into one `write_batch` of the entry's realm.

`Rows` is what a storage engine holds; `represents_writeBatch` says that the
engine's `write_batch` is the one used here.

Results:
1. `applyCommand_rows`: every command is one batch that ends with the
   applied-state row.
2. `get_writeBatch`: what a batch leaves under a key.
-/

namespace Hearth.Cluster

open Base Storage List Engine

/-! ## Rows -/

structure Rows where
  map : Std.ExtTreeMap CompositeKey Bytes

namespace Rows

def empty : Rows := ⟨∅⟩

variable (rows : Rows) (realm : RealmId)

def get (key : Bytes) : Option Bytes := rows.map[(⟨realm, key⟩ : CompositeKey)]?

def putBatch (entries : List (Bytes × Bytes)) : Rows :=
  ⟨insertAll rows.map (entries.map fun e => (⟨realm, e.1⟩, e.2))⟩

def delete (key : Bytes) : Rows := ⟨rows.map.erase ⟨realm, key⟩⟩

def writeBatch (puts : List (Bytes × Bytes)) (deletes : List Bytes) : Rows :=
  deletes.foldl (fun rows key => rows.delete realm key) (rows.putBatch realm puts)

def scan (start stop : Bytes) : List (Bytes × Bytes) := window realm start stop rows.map.toList

def listRealms : List RealmId := (rows.map.toList.map fun e => e.1.realmId).dedup

section

variable {rows : Rows} {realm r : RealmId} {key k : Bytes}

theorem valueAt_realm (l : List (Bytes × Bytes)) :
    valueAt (l.map fun e => ((⟨realm, e.1⟩ : CompositeKey), e.2)) ⟨r, k⟩ =
      if r = realm then valueAt l k else none := by
  induction l with
  | nil => split <;> rfl
  | cons e l ih =>
    rw [map_cons, valueAt_cons, valueAt_cons, ih]
    by_cases hr : r = realm
    · subst hr
      by_cases hk : k = e.1
      · rw [if_pos hk, if_pos (by rw [hk]), if_pos rfl]
      · rw [if_neg hk, if_neg fun h => hk (CompositeKey.mk.inj h).2]
    · rw [if_neg hr, if_neg hr, if_neg fun h => hr (CompositeKey.mk.inj h).1]

theorem get_putBatch (entries) : (rows.putBatch realm entries).get r k =
    if r = realm then (valueAt entries.reverse k).or (rows.get r k) else rows.get r k := by
  rw [get, putBatch, getElem?_insertAll, ← map_reverse, valueAt_realm]
  split <;> rfl

theorem get_delete : (rows.delete realm key).get r k =
    if r = realm ∧ k = key then none else rows.get r k := by
  rw [get, delete, Std.ExtTreeMap.getElem?_erase]
  refine if_congr ?_ rfl rfl
  rw [compare_eq_iff_eq, CompositeKey.mk.injEq]
  exact and_congr eq_comm eq_comm

theorem get_foldl_delete (deletes : List Bytes) :
    (deletes.foldl (fun rows key => rows.delete realm key) rows).get r k =
      if r = realm ∧ k ∈ deletes then none else rows.get r k := by
  induction deletes generalizing rows with
  | nil => rw [foldl_nil, if_neg fun h => not_mem_nil h.2]
  | cons key deletes ih =>
    rw [foldl_cons, ih, get_delete]
    simp only [mem_cons]
    by_cases hr : r = realm
    · by_cases hk : k ∈ deletes
      · rw [if_pos ⟨hr, hk⟩, if_pos ⟨hr, .inr hk⟩]
      · rw [if_neg fun h => hk h.2]
        exact if_congr ⟨fun h => ⟨h.1, .inl h.2⟩, fun h => ⟨h.1, h.2.resolve_right hk⟩⟩ rfl rfl
    · rw [if_neg fun h => hr h.1, if_neg fun h => hr h.1, if_neg fun h => hr h.1]

/-- In the batch's realm a deleted key is gone, the last put to a key wins, and other keys keep
what they had. -/
theorem get_writeBatch (puts : List (Bytes × Bytes)) (deletes : List Bytes) :
    (rows.writeBatch realm puts deletes).get r k =
      if r = realm then if k ∈ deletes then none else (valueAt puts.reverse k).or (rows.get r k)
      else rows.get r k := by
  rw [writeBatch, get_foldl_delete, get_putBatch]
  by_cases hr : r = realm
  · by_cases hk : k ∈ deletes
    · rw [if_pos ⟨hr, hk⟩, if_pos hr, if_pos hk]
    · rw [if_neg fun h => hk h.2, if_pos hr, if_pos hr, if_neg hk]
  · rw [if_neg fun h => hr h.1, if_neg hr, if_neg hr]

theorem mem_listRealms {v} (h : rows.get r k = some v) : r ∈ rows.listRealms := by
  rw [listRealms, mem_dedup]
  exact mem_map.2 ⟨(⟨r, k⟩, v), Std.ExtTreeMap.mem_toList_iff_getElem?_eq_some.2 h, rfl⟩

end

/-! ### The engine behind them -/

section

variable {crc32 : Bytes → Nat} {e : Engine crc32} {rows : Rows} {realm : RealmId}

/-- The map an engine stands for when it holds these rows. -/
def at? (rows : Rows) (k : CompositeKey) : Option Bytes := rows.get k.realmId k.key

variable (h : e.Represents rows.at?)

include h

theorem represents_putBatch (entries) :
    (e.putBatch realm entries).Represents (rows.putBatch realm entries).at? := by
  have hmap : overwrite rows.at? (Memtable.puts realm entries) =
      (rows.putBatch realm entries).at? := by
    funext k
    rw [overwrite, Memtable.puts, at?, at?, get_putBatch, ← map_reverse]
    induction entries.reverse with
    | nil => split <;> rfl
    | cons a l ih =>
      rw [map_cons, valueAt_cons, valueAt_cons]
      by_cases hk : k = ⟨realm, a.1⟩
      · subst hk
        rw [if_pos rfl, if_pos rfl, if_pos rfl]
        rfl
      · rw [if_neg hk, ih]
        by_cases hr : k.realmId = realm
        · rw [if_pos hr, if_pos hr, if_neg fun hka => hk (by rw [← hr, ← hka])]
        · rw [if_neg hr, if_neg hr]
  rw [← hmap]
  exact h.write (putBatch_wrote e _ _)

theorem represents_delete (key) : (e.delete realm key).Represents (rows.delete realm key).at? := by
  have hmap : overwrite rows.at? [(⟨realm, key⟩, .tombstone)] = (rows.delete realm key).at? := by
    funext k
    rw [overwrite, reverse_singleton, valueAt_cons, at?, at?, get_delete]
    by_cases hk : k = ⟨realm, key⟩
    · subst hk
      rw [if_pos rfl, if_pos ⟨rfl, rfl⟩]
      rfl
    · rw [if_neg hk, if_neg fun hr => hk (by rw [← hr.1, ← hr.2])]
      rfl
  rw [← hmap]
  exact h.write (delete_wrote e _ key)

theorem represents_writeBatch (puts deletes) :
    (e.writeBatch realm puts deletes).Represents (rows.writeBatch realm puts deletes).at? := by
  rw [Engine.writeBatch, writeBatch]
  have hput : (e.putBatch realm puts).Represents (rows.putBatch realm puts).at? :=
    represents_putBatch h puts
  revert hput
  generalize e.putBatch realm puts = e', rows.putBatch realm puts = rows'
  intro hput
  induction deletes generalizing e' rows' with
  | nil => exact hput
  | cons key deletes ih => exact ih _ _ (represents_delete hput key)

end

/-- The second batch deletes what the first one wrote. -/
theorem represents_writeBatch_twice :
    let e : Engine fun _ => 0 := ⟨.new, [], [], 1, .new ⟨16, 1⟩ .inOrder⟩
    ((e.writeBatch .nil [([3], [4])] []).writeBatch .nil [([1], [2])] [[3]]).Represents
      ((empty.writeBatch .nil [([3], [4])] []).writeBatch .nil [([1], [2])] [[3]]).at? :=
  represents_writeBatch (represents_writeBatch ⟨fun _ => rfl, HotTier.coherent_new _ _ _⟩ _ _) _ _

end Rows

/-! ## The log -/

/-- A log id, ordered by its leader (term, then node) and then its index. -/
structure LogId where
  term : Nat
  nodeId : Nat
  index : Nat
  deriving DecidableEq

def LogId.parts (id : LogId) : Lex (Nat × Lex (Nat × Nat)) := toLex (id.term, toLex (id.nodeId, id.index))

theorem LogId.parts_injective : Function.Injective parts := by
  rintro ⟨t, n, i⟩ ⟨t', n', i'⟩ h
  cases toLex.injective h
  rfl

instance : LinearOrder LogId := .lift' LogId.parts LogId.parts_injective

structure StoredMembership (M : Type) where
  logId : Option LogId
  membership : M
  deriving DecidableEq

/-- The commands, without the leader's timestamp, which the state machine does not read. -/
inductive RaftCommand
  | put (realm : RealmId) (key value : Bytes)
  | delete (realm : RealmId) (key : Bytes)
  | batch (realm : RealmId) (entries : List (Bytes × Bytes))
  | writeBatch (realm : RealmId) (puts : List (Bytes × Bytes)) (deletes : List Bytes)
  | putIfAbsent (realm : RealmId) (key value : Bytes)
  | incrementU64 (realm : RealmId) (key : Bytes)
  deriving DecidableEq

inductive EntryPayload (M : Type)
  | blank
  | normal (cmd : RaftCommand)
  | membership (membership : M)

structure LogEntry (M : Type) where
  logId : LogId
  payload : EntryPayload M

/-- `encode_row` and its inverses, for the two types of rows the state machine keeps for itself. -/
structure RowCodec (M : Type) where
  encodeLogId : LogId → Bytes
  decodeLogId : Bytes → Except String LogId
  encodeMembership : StoredMembership M → Bytes
  decodeMembership : Bytes → Except String (StoredMembership M)
  decode_encode_logId : ∀ id, decodeLogId (encodeLogId id) = .ok id
  decode_encode_membership : ∀ m, decodeMembership (encodeMembership m) = .ok m

structure HearthLogResponse where
  success : Bool
  payload : Bytes
  deriving DecidableEq

def HearthLogResponse.default : HearthLogResponse := ⟨true, []⟩

/-! ## Keys -/

/-- `\0raft:sm:applied` -/
def smAppliedKey : Bytes := 0 :: asciiBytes "raft:sm:applied"

/-- `\0raft:sm:membership` -/
def smMembershipKey : Bytes := 0 :: asciiBytes "raft:sm:membership"

/-- The nil UUID. -/
def metaRealm : RealmId := .nil

def isStateMachineMetaKey (key : Bytes) : Bool := key = smAppliedKey || key = smMembershipKey

/-- `\0raft:applied-index` -/
def appliedIndexSuffix : Bytes := 0 :: asciiBytes "raft:applied-index"

def appliedIndexKey (key : Bytes) : Bytes := key ++ appliedIndexSuffix

theorem appliedIndexKey_ne_meta (key) :
    appliedIndexKey key ≠ smAppliedKey ∧ appliedIndexKey key ≠ smMembershipKey := by
  have hsuf : appliedIndexSuffix <:+ appliedIndexKey key := suffix_append _ _
  constructor <;> intro h <;> rw [h] at hsuf <;> revert hsuf <;> decide +kernel

/-! ## Applying an entry -/

def decodeU64Counter : Option Bytes → Except StorageError Nat
  | none => .ok 0
  | some bytes =>
    if bytes.length = 8 then .ok (leNat bytes)
    else .error (.deserializationFailed s!"u64 counter is {bytes.length} bytes, expected 8")

variable (rows : Rows)

def movedSidecars (realm : RealmId) (keys : List Bytes) (logIndex : Nat) : List (Bytes × Bytes) :=
  keys.filterMap fun key =>
    if appliedIndexSuffix.isSuffixOf key || isStateMachineMetaKey key then none
    else if (rows.get realm (appliedIndexKey key)).isSome then
      some (appliedIndexKey key, leBytes 8 logIndex)
    else none

variable (logIndex : Nat) (appliedRow : Bytes)

section

variable (realm : RealmId)

/-- The four unconditional commands: puts, moved sidecars, the applied-state row, then deletes. -/
def applyWrites (puts : List (Bytes × Bytes)) (deletes : List Bytes) : Rows × HearthLogResponse :=
  let moved := movedSidecars rows realm (puts.map Prod.fst ++ deletes) logIndex
  (rows.writeBatch realm (puts ++ moved ++ [(smAppliedKey, appliedRow)]) deletes, .default)

def applyPutIfAbsent (key value : Bytes) : Rows × HearthLogResponse :=
  let absent := (rows.get realm key).isNone
  let effect := if absent then movedSidecars rows realm [key] logIndex ++ [(key, value)] else []
  (rows.writeBatch realm (effect ++ [(smAppliedKey, appliedRow)]) [], ⟨absent, []⟩)

inductive Increment
  | applied (next : Nat)
  | replayed (current : Nat)
  | repaired (value : Nat) (reason : String)

def u64Max : Nat := 2 ^ 64 - 1

def incrementOnce (key : Bytes) (logIndex : Nat) (appliedRow : Bytes) : Rows × Increment :=
  let marker := appliedIndexKey key
  let applied := (smAppliedKey, appliedRow)
  match decodeU64Counter (rows.get realm key), decodeU64Counter (rows.get realm marker) with
  | .ok current, .ok lastIndex =>
    if logIndex ≤ lastIndex then (rows.writeBatch realm [applied] [], .replayed current)
    else
      let next := min (current + 1) u64Max
      (rows.writeBatch realm [(key, leBytes 8 next), (marker, leBytes 8 logIndex), applied] [],
        .applied next)
  | .error e, _ | .ok _, .error e =>
    (rows.writeBatch realm [(key, leBytes 8 logIndex), (marker, leBytes 8 logIndex), applied] [],
      .repaired logIndex e.display)

def Increment.value : Increment → Nat
  | .applied next => next
  | .replayed current => current
  | .repaired value _ => value

def applyIncrement (key : Bytes) : Rows × HearthLogResponse :=
  let (rows, outcome) := incrementOnce rows realm key logIndex appliedRow
  (rows, ⟨true, leBytes 8 outcome.value⟩)

end

def applyCommand : RaftCommand → Rows × HearthLogResponse
  | .put realm key value => applyWrites rows logIndex appliedRow realm [(key, value)] []
  | .delete realm key => applyWrites rows logIndex appliedRow realm [] [key]
  | .batch realm entries => applyWrites rows logIndex appliedRow realm entries []
  | .writeBatch realm puts deletes => applyWrites rows logIndex appliedRow realm puts deletes
  | .putIfAbsent realm key value => applyPutIfAbsent rows logIndex appliedRow realm key value
  | .incrementU64 realm key => applyIncrement rows logIndex appliedRow realm key

variable {M : Type}

/-- One turn of `apply`: the entry's batch and its response. -/
def applyEntry (codec : RowCodec M) (rows : Rows) (entry : LogEntry M) : Rows × HearthLogResponse :=
  let appliedRow := codec.encodeLogId entry.logId
  match entry.payload with
  | .blank => (rows.writeBatch metaRealm [(smAppliedKey, appliedRow)] [], .default)
  | .normal cmd => applyCommand rows entry.logId.index appliedRow cmd
  | .membership membership =>
    let stored : StoredMembership M := ⟨some entry.logId, membership⟩
    (rows.writeBatch metaRealm
      [(smAppliedKey, appliedRow), (smMembershipKey, codec.encodeMembership stored)] [], .default)

/-- The rows after some entries. -/
def replay (codec : RowCodec M) (rows : Rows) (entries : List (LogEntry M)) : Rows :=
  entries.foldl (fun rows entry => (applyEntry codec rows entry).1) rows

theorem replay_append (codec : RowCodec M) (rows : Rows) (l l' : List (LogEntry M)) :
    replay codec rows (l ++ l') = replay codec (replay codec rows l) l' := foldl_append

/-! ## Reading the applied state -/

/-- `last_applied.max(Some(id))` -/
def maxApplied : Option LogId → LogId → Option LogId
  | none, id => some id
  | some last, id => some (max last id)

/-- The loop over the realms. -/
def loadApplied (codec : RowCodec M) (rows : Rows) :
    List RealmId → Option LogId → Except String (Option LogId)
  | [], lastApplied => .ok lastApplied
  | realm :: realms, lastApplied =>
    match rows.get realm smAppliedKey with
    | none => loadApplied codec rows realms lastApplied
    | some bytes =>
      match codec.decodeLogId bytes with
      | .error e => .error e
      | .ok id => loadApplied codec rows realms (maxApplied lastApplied id)

def loadAppliedState [Inhabited M] (codec : RowCodec M) (rows : Rows) :
    Except String (Option LogId × StoredMembership M) :=
  match loadApplied codec rows rows.listRealms none with
  | .error e => .error e
  | .ok lastApplied =>
    match rows.get metaRealm smMembershipKey with
    | none => .ok (lastApplied, ⟨none, default⟩)
    | some bytes => (codec.decodeMembership bytes).map fun membership => (lastApplied, membership)

/-! ## Batches -/

def RaftCommand.realm : RaftCommand → RealmId
  | .put realm _ _ | .delete realm _ | .batch realm _ | .writeBatch realm _ _ | .putIfAbsent realm _ _
  | .incrementU64 realm _ => realm

/-- The keys a command may put a value under, sidecars aside. -/
def RaftCommand.written : RaftCommand → List Bytes
  | .put _ key _ | .putIfAbsent _ key _ | .incrementU64 _ key => [key]
  | .batch _ entries => entries.map Prod.fst
  | .writeBatch _ puts _ => puts.map Prod.fst
  | .delete .. => []

def RaftCommand.deleted : RaftCommand → List Bytes
  | .delete _ key => [key]
  | .writeBatch _ _ deletes => deletes
  | _ => []

/-- What a command puts before the applied-state row. -/
def RaftCommand.puts (logIndex : Nat) : RaftCommand → List (Bytes × Bytes)
  | .put realm key value => (key, value) :: movedSidecars rows realm [key] logIndex
  | .delete realm key => movedSidecars rows realm [key] logIndex
  | .batch realm entries => entries ++ movedSidecars rows realm (entries.map Prod.fst) logIndex
  | .writeBatch realm puts deletes =>
    puts ++ movedSidecars rows realm (puts.map Prod.fst ++ deletes) logIndex
  | .putIfAbsent realm key value =>
    if (rows.get realm key).isNone then movedSidecars rows realm [key] logIndex ++ [(key, value)] else []
  | .incrementU64 realm key =>
    match decodeU64Counter (rows.get realm key), decodeU64Counter (rows.get realm (appliedIndexKey key)) with
    | .ok current, .ok lastIndex =>
      if logIndex ≤ lastIndex then []
      else [(key, leBytes 8 (min (current + 1) u64Max)), (appliedIndexKey key, leBytes 8 logIndex)]
    | _, _ => [(key, leBytes 8 logIndex), (appliedIndexKey key, leBytes 8 logIndex)]

theorem applyCommand_rows (rows : Rows) (logIndex : Nat) (appliedRow) (cmd : RaftCommand) :
    (applyCommand rows logIndex appliedRow cmd).1 =
      rows.writeBatch cmd.realm (cmd.puts rows logIndex ++ [(smAppliedKey, appliedRow)]) cmd.deleted := by
  cases cmd with
  | put realm key value | delete realm key => rfl
  | batch realm entries =>
    simp only [applyCommand, applyWrites, append_nil]
    rfl
  | writeBatch realm puts deletes | putIfAbsent realm key value => rfl
  | incrementU64 realm key =>
    simp only [applyCommand, applyIncrement, incrementOnce, RaftCommand.puts]
    cases decodeU64Counter (rows.get realm key) with
    | error e => rfl
    | ok current =>
      cases decodeU64Counter (rows.get realm (appliedIndexKey key)) with
      | error e => rfl
      | ok lastIndex =>
        simp only
        split <;> rfl

theorem movedSidecars_mem {rows realm keys logIndex e} (h : e ∈ movedSidecars rows realm keys logIndex) :
    ∃ key ∈ keys, e = (appliedIndexKey key, leBytes 8 logIndex) := by
  obtain ⟨key, hkey, heq⟩ := mem_filterMap.1 h
  refine ⟨key, hkey, ?_⟩
  split at heq
  · cases heq
  · split at heq
    · exact (Option.some.inj heq).symm
    · cases heq

theorem RaftCommand.puts_key {cmd : RaftCommand} {rows : Rows} {logIndex : Nat} {e : Bytes × Bytes}
    (h : e ∈ cmd.puts rows logIndex) : e.1 ∈ cmd.written ∨ ∃ key, e.1 = appliedIndexKey key := by
  have hmoved : ∀ {realm keys}, e ∈ movedSidecars rows realm keys logIndex →
      ∃ key, e.1 = appliedIndexKey key := fun h => by
    obtain ⟨key, -, rfl⟩ := movedSidecars_mem h
    exact ⟨key, rfl⟩
  cases cmd with
  | put realm key value =>
    rcases mem_cons.1 h with rfl | h
    · exact .inl (mem_singleton.2 rfl)
    · exact .inr (hmoved h)
  | delete realm key => exact .inr (hmoved h)
  | batch realm entries | writeBatch realm puts deletes =>
    exact (mem_append.1 h).imp (mem_map_of_mem ·) hmoved
  | putIfAbsent realm key value =>
    rw [puts] at h
    split at h
    · rcases mem_append.1 h with h | h
      · exact .inr (hmoved h)
      · exact .inl (mem_singleton.2 (congrArg Prod.fst (mem_singleton.1 h)))
    · cases h
  | incrementU64 realm key =>
    have hpair : ∀ {v w : Bytes}, e ∈ [(key, v), (appliedIndexKey key, w)] →
        e.1 ∈ [key] ∨ ∃ key, e.1 = appliedIndexKey key := fun h => by
      rcases mem_cons.1 h with rfl | h
      · exact .inl (mem_singleton.2 rfl)
      · exact .inr ⟨key, congrArg Prod.fst (mem_singleton.1 h)⟩
    rw [puts] at h
    split at h
    · split at h
      · cases h
      · exact hpair h
    · exact hpair h

end Hearth.Cluster
