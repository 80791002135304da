import Hearth.Cluster.StateMachine

/-!
# The persisted applied index

A node applies the entries of a committed log and may crash at any time. What
survives is the storage engine's rows; after a restart the node goes on with
the entry behind the log id that `load_applied_state` finds in them.

Results:
1. `applied_exact`: as long as no entry deletes the applied-state row or writes
   the membership row, the rows are those of the entries applied so far and the
   log id found in them is the last one's.
2. `applied_row_swept`: the sweep of a realm's key space deletes that row.
-/

namespace Hearth.Cluster

open Base Storage List Option Nat

variable {M : Type}

/-- Entries that Raft has committed, in log order. -/
structure CommittedLog (M : Type) where
  entries : List (LogEntry M)
  increasing : entries.Pairwise fun a b => a.logId < b.logId ∧ a.logId.index < b.logId.index
  index_lt : ∀ e ∈ entries, e.logId.index < 2 ^ 64
  /-- Index 0 is the membership entry a cluster starts with. -/
  index_pos : ∀ e ∈ entries, ∀ cmd, e.payload = .normal cmd → 0 < e.logId.index

namespace CommittedLog

variable (log : CommittedLog M)

/-- The log id of the last of the first `k` entries. -/
def idAt : Nat → Option LogId
  | 0 => none
  | k + 1 => log.entries[k]?.map LogEntry.logId

/-- `LogIdOptionExt::next_index` -/
def nextIndex : Option LogId → Nat
  | none => 0
  | some id => id.index + 1

/-- Where a node that has applied `last` goes on. -/
def nextPos (last : Option LogId) : Nat :=
  log.entries.findIdx fun e => nextIndex last ≤ e.logId.index

variable {log}

theorem index_lt_index {p q : Nat} {a b : LogEntry M} (ha : log.entries[p]? = some a)
    (hb : log.entries[q]? = some b) (h : p < q) : a.logId < b.logId ∧ a.logId.index < b.logId.index := by
  obtain ⟨hp, rfl⟩ := List.getElem?_eq_some_iff.1 ha
  obtain ⟨hq, rfl⟩ := List.getElem?_eq_some_iff.1 hb
  exact pairwise_iff_getElem.1 log.increasing p q hp hq h

/-- A node that has applied the first `k` entries goes on with the next one. -/
theorem nextPos_idAt {k : Nat} (hk : k ≤ log.entries.length) {e : LogEntry M}
    (he : log.entries[log.nextPos (log.idAt k)]? = some e) : log.nextPos (log.idAt k) = k := by
  obtain ⟨hlt, -⟩ := List.getElem?_eq_some_iff.1 he
  cases k with
  | zero =>
    refine (findIdx_eq (lt_of_le_of_lt (zero_le _) hlt)).2 ⟨?_, nofun⟩
    exact decide_eq_true (zero_le _)
  | succ p =>
    have hp : log.entries[p]? = some log.entries[p] := getElem?_eq_getElem hk
    have hid : log.idAt (p + 1) = some log.entries[p].logId := by rw [idAt, hp, map_some]
    rw [hid] at hlt ⊢
    -- an entry at or before `p` is not behind `p`
    have hbef : ∀ j (hj : j < log.entries.length), j ≤ p →
        ¬log.entries[p].logId.index + 1 ≤ log.entries[j].logId.index := by
      intro j hj hjp
      rcases lt_or_eq_of_le hjp with hjp | rfl
      · have := index_lt_index (getElem?_eq_getElem hj) hp hjp
        exact not_le.2 (lt_succ_of_lt this.2)
      · exact not_succ_le_self _
    have hpos : p < log.nextPos (some log.entries[p].logId) := by
      by_contra hnot
      exact hbef _ hlt (not_lt.1 hnot) (of_decide_eq_true (findIdx_getElem (w := hlt)))
    refine (findIdx_eq (lt_of_le_of_lt hpos hlt)).2 ⟨?_, fun j hj => ?_⟩
    · have hnext := index_lt_index hp (getElem?_eq_getElem (lt_of_le_of_lt hpos hlt)) (lt_succ_self p)
      exact decide_eq_true hnext.2
    · exact decide_eq_false (hbef j _ (Nat.lt_succ_iff.1 hj))

end CommittedLog

/-! ## A node -/

/-- A node that is down, that is up, or that has written an entry's batch and not yet taken note
of it. -/
inductive NodeState (M : Type)
  | down
  | up (lastApplied : Option LogId) (lastMembership : StoredMembership M)
  | written (lastMembership : StoredMembership M) (entry : LogEntry M)

structure ApplySys (M : Type) where
  rows : Rows
  node : NodeState M
  /-- How many entries have had their batch written. -/
  applied : Nat

inductive ApplyEvent (M : Type)
  | write (entry : LogEntry M)
  | other

namespace ApplySys

inductive Step [Inhabited M] (codec : RowCodec M) (log : CommittedLog M) :
    ApplyEvent M → ApplySys M → ApplySys M → Prop
  /-- The batch of the next entry, atomic and durable. -/
  | write {s last membership e} :
      s.node = .up last membership → log.entries[log.nextPos last]? = some e →
      Step codec log (.write e) s
        ⟨(applyEntry codec s.rows e).1, .written membership e, max s.applied (log.nextPos last + 1)⟩
  | finish {s membership e} : s.node = .written membership e → Step codec log .other s { s with
        node := .up (some e.logId) (match e.payload with
          | .membership m => ⟨some e.logId, m⟩
          | _ => membership) }
  | crash {s} : Step codec log .other s { s with node := .down }
  | restart {s last membership} :
      s.node = .down → loadAppliedState codec s.rows = .ok (last, membership) →
      Step codec log .other s { s with node := .up last membership }

/-- A node on a data directory that has no applied state yet. -/
def Init (base : Rows) (s : ApplySys M) : Prop :=
  (∀ realm, base.get realm smAppliedKey = none) ∧ base.get metaRealm smMembershipKey = none ∧
    s = ⟨base, .down, 0⟩

/-- The rows are those of the entries applied so far, and the log id found in them is the last
one's. -/
def Exact [Inhabited M] (codec : RowCodec M) (log : CommittedLog M) (base : Rows) (s : ApplySys M) :
    Prop :=
  s.rows = replay codec base (log.entries.take s.applied) ∧
    ∃ membership, loadAppliedState codec s.rows = .ok (log.idAt s.applied, membership)

end ApplySys

/-- The command deletes no applied-state row and does not write the membership row. -/
def RaftCommand.KeepsMeta (cmd : RaftCommand) : Prop :=
  smAppliedKey ∉ cmd.deleted ∧ (cmd.realm = metaRealm → smMembershipKey ∉ cmd.written)

def LogEntry.KeepsMeta (e : LogEntry M) : Prop := ∀ cmd, e.payload = .normal cmd → cmd.KeepsMeta

/-- Entries keep the state machine's own rows. -/
def ApplyEvent.KeepsMeta : ApplyEvent M → ApplySys M → Prop
  | .write e, _ => e.KeepsMeta
  | .other, _ => True

/-! ## The state machine's own rows -/

section

variable {codec : RowCodec M} {rows : Rows} {e : LogEntry M}

def LogEntry.realm (e : LogEntry M) : RealmId :=
  match e.payload with
  | .normal cmd => cmd.realm
  | _ => metaRealm

/-- The last put of the batch, unless the command deletes it. -/
theorem get_smAppliedKey (he : e.KeepsMeta) (r) : (applyEntry codec rows e).1.get r smAppliedKey =
      if r = e.realm then some (codec.encodeLogId e.logId) else rows.get r smAppliedKey := by
  obtain ⟨id, payload⟩ := e
  cases payload with
  | blank =>
    simp only [applyEntry, Rows.get_writeBatch]
    rfl
  | normal cmd =>
    simp only [applyEntry]
    rw [applyCommand_rows, Rows.get_writeBatch, if_neg (he cmd rfl).1, reverse_append]
    rfl
  | membership m =>
    have hne : smAppliedKey ≠ smMembershipKey := by decide +kernel
    simp only [applyEntry, Rows.get_writeBatch, reverse_cons, reverse_nil, nil_append,
      singleton_append, valueAt_cons, if_neg hne]
    rfl

theorem get_smMembershipKey (he : e.KeepsMeta) {bytes}
    (h : (applyEntry codec rows e).1.get metaRealm smMembershipKey = some bytes) :
    (∃ m, bytes = codec.encodeMembership m) ∨ rows.get metaRealm smMembershipKey = some bytes := by
  obtain ⟨id, payload⟩ := e
  have hne : smMembershipKey ≠ smAppliedKey := by decide +kernel
  cases payload with
  | blank =>
    simp only [applyEntry, Rows.get_writeBatch, reverse_singleton, valueAt_cons, if_neg hne] at h
    exact .inr h
  | normal cmd =>
    right
    simp only [applyEntry] at h
    rw [applyCommand_rows, Rows.get_writeBatch] at h
    split at h
    · next hr =>
      -- the command's own puts are elsewhere
      have hputs : valueAt (cmd.puts rows id.index ++ [(smAppliedKey, codec.encodeLogId id)]).reverse
          smMembershipKey = none := by
        refine valueAt_eq_none.2 fun put hput hkey => ?_
        rcases mem_append.1 (mem_reverse.1 hput) with hput | hput
        · rcases RaftCommand.puts_key hput with hw | ⟨key, hmark⟩
          · exact (he cmd rfl).2 hr.symm (hkey ▸ hw)
          · exact (appliedIndexKey_ne_meta key).2 (hmark.symm.trans hkey.symm)
        · exact hne (hkey.trans (congrArg Prod.fst (mem_singleton.1 hput)))
      rw [hputs] at h
      split at h
      · cases h
      · exact h
    · exact h
  | membership m =>
    left
    simp only [applyEntry, Rows.get_writeBatch] at h
    exact ⟨_, (some.inj h).symm⟩

theorem loadApplied_eq {top realms last}
    (hrows : ∀ r ∈ realms, ∀ bytes, rows.get r smAppliedKey = some bytes →
      ∃ id ≤ top, bytes = codec.encodeLogId id)
    (hlast : ∀ id, last = some id → id ≤ top)
    (htop : last = some top ∨ ∃ r ∈ realms, rows.get r smAppliedKey = some (codec.encodeLogId top)) :
    loadApplied codec rows realms last = .ok (some top) := by
  induction realms generalizing last with
  | nil =>
    rcases htop with rfl | ⟨r, hr, -⟩
    · rfl
    · cases hr
  | cons r realms ih =>
    have hrows' := fun r' hr' => hrows r' (mem_cons_of_mem _ hr')
    rw [loadApplied]
    cases hget : rows.get r smAppliedKey with
    | none =>
      refine ih hrows' hlast (htop.imp_right fun ⟨r', hr', h⟩ => ?_)
      rcases mem_cons.1 hr' with rfl | hr'
      · cases hget.symm.trans h
      · exact ⟨r', hr', h⟩
    | some bytes =>
      obtain ⟨id, hid, rfl⟩ := hrows r mem_cons_self _ hget
      simp only [codec.decode_encode_logId]
      refine ih hrows' (fun id' h => ?_) ?_
      · cases last with
        | none => exact some.inj h ▸ hid
        | some l => exact some.inj h ▸ max_le (hlast l rfl) hid
      · rcases htop with rfl | ⟨r', hr', h⟩
        · exact .inl (congrArg some (max_eq_left hid))
        · rcases mem_cons.1 hr' with rfl | hr'
          · left
            have heq : id = top := by
              have hdec := congrArg codec.decodeLogId (some.inj (hget.symm.trans h))
              rw [codec.decode_encode_logId, codec.decode_encode_logId] at hdec
              exact Except.ok.inj hdec
            cases last with
            | none => exact congrArg some heq
            | some l => exact congrArg some ((max_eq_right (heq ▸ hlast l rfl)).trans heq)
          · exact .inr ⟨r', hr', h⟩

theorem loadApplied_none (h : ∀ r, rows.get r smAppliedKey = none) (realms)
    (last : Option LogId) : loadApplied codec rows realms last = .ok last := by
  induction realms generalizing last with
  | nil => rfl
  | cons r realms ih => rw [loadApplied, h r, ih]

end

/-! ## Runs -/

namespace ApplySys

section

variable [Inhabited M] {codec : RowCodec M} {log : CommittedLog M} {base : Rows} {s s' : ApplySys M}

structure Inv (codec : RowCodec M) (log : CommittedLog M) (base : Rows) (s : ApplySys M) : Prop where
  rows : s.rows = replay codec base (log.entries.take s.applied)
  le : s.applied ≤ log.entries.length
  marks : ∀ r bytes, s.rows.get r smAppliedKey = some bytes →
    ∃ p e, p < s.applied ∧ log.entries[p]? = some e ∧ bytes = codec.encodeLogId e.logId
  top : ∀ id, log.idAt s.applied = some id → ∃ r, s.rows.get r smAppliedKey = some (codec.encodeLogId id)
  membership : ∀ bytes, s.rows.get metaRealm smMembershipKey = some bytes →
    ∃ m, bytes = codec.encodeMembership m
  up : ∀ last m, s.node = .up last m → last = log.idAt s.applied
  written : ∀ m e, s.node = .written m e → some e.logId = log.idAt s.applied

theorem Inv.exact (h : s.Inv codec log base) : s.Exact codec log base := by
  have happ : loadApplied codec s.rows s.rows.listRealms none = .ok (log.idAt s.applied) := by
    cases hk : s.applied with
    | zero =>
      refine loadApplied_none (fun r => ?_) _ _
      cases hget : s.rows.get r smAppliedKey with
      | none => rfl
      | some bytes =>
        obtain ⟨p, e, hp, -⟩ := h.marks r _ hget
        exact absurd hp (hk ▸ not_lt_zero p)
    | succ k =>
      have hlt : k < log.entries.length := lt_of_lt_of_le (hk ▸ lt_succ_self k) h.le
      have hlast : log.entries[k]? = some log.entries[k] := getElem?_eq_getElem hlt
      have hid : log.idAt (k + 1) = some log.entries[k].logId := by
        rw [CommittedLog.idAt, hlast, map_some]
      rw [hid]
      refine loadApplied_eq (fun r _ bytes hget => ?_) nofun (.inr ?_)
      · obtain ⟨p, e, hp, he, rfl⟩ := h.marks r _ hget
        refine ⟨e.logId, ?_, rfl⟩
        rcases lt_or_eq_of_le (Nat.lt_succ_iff.1 (hk ▸ hp)) with hpk | rfl
        · exact le_of_lt (CommittedLog.index_lt_index he hlast hpk).1
        · exact le_of_eq (congrArg LogEntry.logId (some.inj (he.symm.trans hlast)))
      · obtain ⟨r, hr⟩ := h.top _ (hk ▸ hid)
        exact ⟨r, Rows.mem_listRealms hr, hr⟩
  refine ⟨h.rows, ?_⟩
  rw [loadAppliedState, happ]
  cases hget : s.rows.get metaRealm smMembershipKey with
  | none => exact ⟨_, rfl⟩
  | some bytes =>
    obtain ⟨m, rfl⟩ := h.membership _ hget
    refine ⟨m, ?_⟩
    simp only [codec.decode_encode_membership]
    rfl

omit [Inhabited M] in
theorem inv_write (h : s.Inv codec log base) {last m e} (hnode : s.node = .up last m) (he : log.entries[log.nextPos last]? = some e)
    (hkeep : e.KeepsMeta) :
    Inv codec log base
      ⟨(applyEntry codec s.rows e).1, .written m e, max s.applied (log.nextPos last + 1)⟩ := by
  obtain rfl := h.up last m hnode
  have hpos := CommittedLog.nextPos_idAt h.le he
  rw [hpos] at he ⊢
  rw [max_eq_right (le_succ _)]
  have hlt : s.applied < log.entries.length := (List.getElem?_eq_some_iff.1 he).1
  have hid : log.idAt (s.applied + 1) = some e.logId := by rw [CommittedLog.idAt, he, map_some]
  refine ⟨?_, hlt, fun r bytes hget => ?_, fun id htop => ?_, fun bytes hget => ?_, nofun, ?_⟩
  · show (applyEntry codec s.rows e).1 = replay codec base (log.entries.take (s.applied + 1))
    rw [take_add_one, he, replay_append, ← h.rows]
    rfl
  · rw [get_smAppliedKey hkeep] at hget
    split at hget
    · exact ⟨_, e, lt_succ_self _, he, (some.inj hget).symm⟩
    · obtain ⟨p, e', hp, he'⟩ := h.marks r bytes hget
      exact ⟨p, e', lt_succ_of_lt hp, he'⟩
  · refine ⟨e.realm, ?_⟩
    rw [get_smAppliedKey hkeep, if_pos rfl, some.inj (hid.symm.trans htop)]
  · exact (get_smMembershipKey hkeep hget).elim id (h.membership bytes)
  · intro m' e' heq
    cases heq
    exact hid.symm

theorem inv_apply_step {ev} (h : s.Inv codec log base) (hkeep : ev.KeepsMeta s)
    (hst : Step codec log ev s s') : s'.Inv codec log base := by
  cases hst with
  | write hnode he => exact inv_write h hnode he hkeep
  | finish hnode =>
    refine { h with up := fun last m heq => ?_, written := nofun }
    cases heq
    exact h.written _ _ hnode
  | crash => exact { h with up := nofun, written := nofun }
  | restart _ hload =>
    refine { h with up := fun last m heq => ?_, written := nofun }
    cases heq
    obtain ⟨-, m, hexact⟩ := h.exact
    exact (Prod.mk.inj (Except.ok.inj (hload.symm.trans hexact))).1

omit [Inhabited M] in
theorem inv_apply_init (h : Init base s) : s.Inv codec log base := by
  obtain ⟨happ, hmem, rfl⟩ := h
  refine ⟨rfl, zero_le _, fun r bytes hget => ?_, nofun, fun bytes hget => ?_, nofun, nofun⟩
  · cases (happ r).symm.trans hget
  · cases hmem.symm.trans hget

/-- In every run in which the entries keep the state machine's own rows, with a crash at any point,
the rows hold the effects of the entries up to the log id found in them and of no others. -/
theorem applied_exact (h : Reachable (Init base) (LabelledWith (Step codec log) ApplyEvent.KeepsMeta) s) :
    s.Exact codec log base := by
  have hinv : s.Inv codec log base := h.preserves inv_apply_init inv_apply_step
  exact hinv.exact

end

/-! ## The sweep of a realm -/

/-- `sweep_realm_key_space` on a clustered engine: the deletes it proposes. -/
def sweepRealmKeySpace (rows : Rows) (realm : RealmId) : List RaftCommand :=
  (rows.scan realm [] (replicate 256 0xFF)).map fun e => .delete realm e.1

/-- Rows that count in unary. -/
def demoCodec : RowCodec Unit where
  encodeLogId id := replicate (.pair id.term (.pair id.nodeId id.index)) 0
  decodeLogId bytes :=
    .ok ⟨bytes.length.unpair.1, bytes.length.unpair.2.unpair.1, bytes.length.unpair.2.unpair.2⟩
  encodeMembership m :=
    m.logId.elim [] fun id => replicate (.pair id.term (.pair id.nodeId id.index) + 1) 0
  decodeMembership bytes :=
    match bytes.length with
    | 0 => .ok ⟨none, ()⟩
    | n + 1 => .ok ⟨some ⟨n.unpair.1, n.unpair.2.unpair.1, n.unpair.2.unpair.2⟩, ()⟩
  decode_encode_logId id := by
    rw [length_replicate, unpair_pair, unpair_pair]
  decode_encode_membership m := by
    obtain ⟨_ | id, ⟨⟩⟩ := m
    · rfl
    · simp only [elim_some, length_replicate, unpair_pair]

def demoRealm : RealmId := ⟨replicate 16 7, length_replicate⟩

/-- A put, and the sweep of its realm. -/
def demoEntries : List (LogEntry Unit) :=
  [⟨⟨1, 0, 1⟩, .normal (.put demoRealm [7] [1])⟩, ⟨⟨1, 0, 2⟩, .normal (.delete demoRealm smAppliedKey)⟩,
    ⟨⟨1, 0, 3⟩, .normal (.delete demoRealm [7])⟩]

def demoLog : CommittedLog Unit where
  entries := demoEntries
  increasing := by decide
  index_lt := by decide
  index_pos e he _ _ := by
    have hpos : ∀ e ∈ demoEntries, 0 < e.logId.index := by decide
    exact hpos e he

/-- The put is applied, and the process stops before the node takes note of it. -/
theorem applied_exact_put : ∃ s : ApplySys Unit,
    Reachable (Init .empty) (LabelledWith (Step demoCodec demoLog) ApplyEvent.KeepsMeta) s ∧
      s.node = .down ∧ s.applied = 1 ∧ s.Exact demoCodec demoLog .empty := by
  have hload : loadAppliedState demoCodec .empty = .ok (none, ⟨none, ()⟩) := rfl
  have hinit : Reachable (Init .empty) (LabelledWith (Step demoCodec demoLog) ApplyEvent.KeepsMeta)
      ⟨.empty, .down, 0⟩ := .start ⟨fun _ => rfl, rfl, rfl⟩
  have hup := hinit.take (.restart rfl hload)
  have hkeep : LogEntry.KeepsMeta (M := Unit) ⟨⟨1, 0, 1⟩, .normal (.put demoRealm [7] [1])⟩ := by
    intro cmd hcmd
    cases hcmd
    exact ⟨nofun, nofun⟩
  have hput := hup.next ⟨.write _, hkeep, .write rfl rfl⟩
  have hdown := hput.take (.crash)
  exact ⟨_, hdown, rfl, rfl, applied_exact hdown⟩

/-- The sweep's first delete is of the applied-state row. Once it is applied, the rows name no log
id at all. -/
theorem applied_row_swept :
    sweepRealmKeySpace (replay demoCodec .empty (demoLog.entries.take 1)) demoRealm =
      [.delete demoRealm smAppliedKey, .delete demoRealm [7]] ∧
    ∃ s : ApplySys Unit,
      Reachable (Init .empty) (LabelledWith (Step demoCodec demoLog) fun _ _ => True) s ∧
        ¬s.Exact demoCodec demoLog .empty := by
  refine ⟨by decide +kernel, ?_⟩
  have hload : loadAppliedState demoCodec .empty = .ok (none, ⟨none, ()⟩) := rfl
  have hinit : Reachable (Init .empty) (LabelledWith (Step demoCodec demoLog) fun _ _ => True)
      ⟨.empty, .down, 0⟩ := .start ⟨fun _ => rfl, rfl, rfl⟩
  have hup := hinit.take (.restart rfl hload)
  have hput := hup.take (.write rfl rfl)
  have hnoted := hput.take (.finish rfl)
  have hswept := hnoted.take (.write rfl rfl)
  refine ⟨_, hswept, fun ⟨_, m, h⟩ => ?_⟩
  have hlost : loadAppliedState demoCodec (replay demoCodec .empty (demoLog.entries.take 2)) =
      .ok (none, ⟨none, ()⟩) := by decide +kernel
  exact nomatch h.symm.trans hlost

end ApplySys

end Hearth.Cluster
