import Hearth.Cluster.Applied

/-!
# A row and its sidecar

What an entry does to a key is decided by the key's own row and by the sidecar
that stands next to it when the key is a counter; the two form a cell. An
entry's effect on a cell is one of four operations.

A node that installs a snapshot starts from a cell the leader had at some
moment `m` and applies entries again that are already in it. `Follows` says how
far such a cell can be from the leader's: it is the leader's at `m` still, or
about to be overwritten, or the leader's own.

Results:
1. `cell_applyEntry`: entries act on cells.
2. `follows_step`: an entry keeps `Follows`; from `m` on the cell is the leader's.
-/

namespace Hearth.Cluster

open Base Storage List Option RaftCommand Rows Nat

/-- A row and its sidecar. -/
structure Cell where
  value : Option Bytes
  sidecar : Option Bytes

def Rows.cell (rows : Rows) (realm : RealmId) (key : Bytes) : Cell :=
  ⟨rows.get realm key, rows.get realm (appliedIndexKey key)⟩

variable (key : Bytes)

/-- Neither a row of the state machine's own nor a sidecar. -/
def isUserKey : Bool := !isStateMachineMetaKey key && !appliedIndexSuffix.isSuffixOf key

def RaftCommand.NamesUserKeys (cmd : RaftCommand) : Prop :=
  (∀ key ∈ cmd.written, isUserKey key = true) ∧ ∀ key ∈ cmd.deleted, isUserKey key = true

inductive CellOp
  | keep
  | write (value : Option Bytes)
  | putIfAbsent (value : Bytes)
  | increment

variable (index : Nat)

/-- `increment_once` on a cell: what it leaves and the value it answers. -/
def Cell.increment (c : Cell) : Cell × Nat :=
  match decodeU64Counter c.value, decodeU64Counter c.sidecar with
  | .ok current, .ok lastIndex =>
    if index ≤ lastIndex then (c, current)
    else
      (⟨some (leBytes 8 (min (current + 1) u64Max)), some (leBytes 8 index)⟩, min (current + 1) u64Max)
  | _, _ => (⟨some (leBytes 8 index), some (leBytes 8 index)⟩, index)

/-- A plain write; it takes the sidecar along, if there is one. -/
def Cell.overwrite (value : Option Bytes) (c : Cell) : Cell :=
  ⟨value, c.sidecar.map fun _ => leBytes 8 index⟩

def CellOp.run : CellOp → Cell → Cell
  | .keep, c => c
  | .write value, c => c.overwrite index value
  | .putIfAbsent value, c => if c.value.isNone then c.overwrite index (some value) else c
  | .increment, c => (c.increment index).1

/-- What a batch of puts and deletes does to a key. -/
def CellOp.ofWrites (puts : List (Bytes × Bytes)) (deletes : List Bytes) : CellOp :=
  if key ∈ deletes then .write none
  else
    match valueAt puts.reverse key with
    | some value => .write (some value)
    | none => .keep

open CellOp (ofWrites run)

def RaftCommand.opAt : RaftCommand → CellOp
  | .put _ k value => .ofWrites key [(k, value)] []
  | .delete _ k => .ofWrites key [] [k]
  | .batch _ entries => .ofWrites key entries []
  | .writeBatch _ puts deletes => .ofWrites key puts deletes
  | .putIfAbsent _ k value => if k = key then .putIfAbsent value else .keep
  | .incrementU64 _ k => if k = key then .increment else .keep

variable {M : Type}

def LogEntry.opAt (e : LogEntry M) (realm : RealmId) (key : Bytes) : CellOp :=
  match e.payload with
  | .normal cmd => if realm = cmd.realm then cmd.opAt key else .keep
  | _ => .keep

def LogEntry.NamesUserKeys (e : LogEntry M) : Prop :=
  ∀ cmd, e.payload = .normal cmd → cmd.NamesUserKeys

/-! ## Entries act on cells -/

section

variable {rows : Rows} {realm r : RealmId} {key : Bytes} {logIndex : Nat} {row : Bytes}

theorem isUserKey_iff : isUserKey key = true ↔
    key ≠ smAppliedKey ∧ key ≠ smMembershipKey ∧ ¬appliedIndexSuffix <:+ key := by
  rw [isUserKey, isStateMachineMetaKey, Bool.and_eq_true, Bool.not_eq_true', Bool.not_eq_true',
    Bool.or_eq_false_iff, decide_eq_false_iff_not, decide_eq_false_iff_not, and_assoc,
    ← isSuffixOf_iff_suffix, Bool.not_eq_true]

theorem appliedIndexKey_injective {k k'} (h : appliedIndexKey k = appliedIndexKey k') : k = k' :=
  append_cancel_right h

section

variable (hkey : isUserKey key = true)

include hkey

theorem ne_appliedIndexKey (k) : key ≠ appliedIndexKey k := by
  rintro rfl
  exact (isUserKey_iff.1 hkey).2.2 (suffix_append _ _)

theorem valueAt_movedSidecars_user (keys) :
    valueAt (movedSidecars rows realm keys logIndex).reverse key = none := by
  refine valueAt_eq_none.2 fun e he => ?_
  obtain ⟨k, -, rfl⟩ := movedSidecars_mem (mem_reverse.1 he)
  exact ne_appliedIndexKey hkey k

theorem valueAt_movedSidecars (keys) :
    valueAt (movedSidecars rows realm keys logIndex).reverse (appliedIndexKey key) =
      if key ∈ keys then (rows.get realm (appliedIndexKey key)).map fun _ => leBytes 8 logIndex
      else none := by
  obtain ⟨happ, hmember, hsuf⟩ := isUserKey_iff.1 hkey
  have hskip : (appliedIndexSuffix.isSuffixOf key || isStateMachineMetaKey key) = false := by
    rw [Bool.or_eq_false_iff, isStateMachineMetaKey, Bool.or_eq_false_iff, decide_eq_false_iff_not,
      decide_eq_false_iff_not]
    exact ⟨Bool.eq_false_iff.2 fun h => hsuf (isSuffixOf_iff_suffix.1 h), happ, hmember⟩
  rw [movedSidecars, ← filterMap_reverse]
  have hmem : key ∈ keys ↔ key ∈ keys.reverse := mem_reverse.symm
  simp only [hmem]
  induction keys.reverse with
  | nil => rfl
  | cons k keys ih =>
    by_cases hk : key = k
    · subst hk
      rw [if_pos mem_cons_self]
      cases hs : rows.get realm (appliedIndexKey key) with
      | none =>
        rw [filterMap_cons_none (by rw [hskip, hs]; rfl), ih, hs]
        split <;> rfl
      | some v =>
        rw [filterMap_cons_some (by rw [hskip, hs]; rfl), valueAt_cons, if_pos rfl]
        rfl
    · have hcons : key ∈ k :: keys ↔ key ∈ keys :=
        ⟨fun h => (mem_cons.1 h).resolve_left hk, mem_cons_of_mem _⟩
      simp only [hcons]
      rw [← ih, filterMap_cons]
      split
      · rfl
      · next b hb =>
        have hb1 : b.1 = appliedIndexKey k := by
          split at hb
          · cases hb
          · split at hb
            · exact (congrArg Prod.fst (some.inj hb)).symm
            · cases hb
        rw [valueAt_cons, if_neg]
        rw [hb1]
        exact fun h => hk (appliedIndexKey_injective h)

theorem cell_writeBatch (puts) {deletes} (hdel : ∀ k ∈ deletes, isUserKey k = true) :
    (rows.writeBatch realm (puts ++ [(smAppliedKey, row)]) deletes).cell r key = if r = realm then
        ⟨if key ∈ deletes then none else (valueAt puts.reverse key).or (rows.get r key),
          (valueAt puts.reverse (appliedIndexKey key)).or (rows.get r (appliedIndexKey key))⟩
      else rows.cell r key := by
  have hlast : ∀ k, k ≠ smAppliedKey →
      valueAt (puts ++ [(smAppliedKey, row)]).reverse k = valueAt puts.reverse k := fun k hk => by
    rw [reverse_append, reverse_singleton, singleton_append, valueAt_cons, if_neg hk]
  have hmark : appliedIndexKey key ∉ deletes := fun h => ne_appliedIndexKey (hdel _ h) key rfl
  rw [cell, get_writeBatch, get_writeBatch, hlast _ (isUserKey_iff.1 hkey).1,
    hlast _ (appliedIndexKey_ne_meta key).1]
  split <;> rfl

/-- The unconditional commands. -/
theorem cell_applyWrites {puts deletes} (hput : ∀ k ∈ puts.map Prod.fst, isUserKey k = true)
    (hdel : ∀ k ∈ deletes, isUserKey k = true) :
    (applyWrites rows logIndex row realm puts deletes).1.cell r key =
      if r = realm then (ofWrites key puts deletes).run logIndex (rows.cell r key)
      else rows.cell r key := by
  rw [applyWrites, cell_writeBatch hkey _ hdel]
  refine if_ctx_congr .rfl (fun hr => ?_) fun _ => rfl
  rw [← hr, ofWrites]
  have hside : valueAt puts.reverse (appliedIndexKey key) = none := by
    refine valueAt_eq_none.2 fun e he heq => ?_
    exact ne_appliedIndexKey (hput e.1 (mem_map_of_mem (mem_reverse.1 he))) key heq.symm
  rw [reverse_append, valueAt_append, valueAt_append, valueAt_movedSidecars_user hkey,
    valueAt_movedSidecars hkey, hside, or_none]
  -- a moved sidecar stands for itself
  have hmoved : ∀ side : Option Bytes, (side.map fun _ => leBytes 8 logIndex).or side =
      side.map fun _ => leBytes 8 logIndex := fun side => by cases side <;> rfl
  by_cases hd : key ∈ deletes
  · rw [if_pos hd, if_pos hd, if_pos (mem_append_right _ hd), hmoved]
    rfl
  · rw [if_neg hd, if_neg hd]
    cases hv : valueAt puts.reverse key with
    | none =>
      have hnot : key ∉ puts.map Prod.fst ++ deletes := fun h => by
        obtain ⟨e, he, rfl⟩ := mem_map.1 ((mem_append.1 h).resolve_right hd)
        exact valueAt_eq_none.1 hv e (mem_reverse.2 he) rfl
      rw [if_neg hnot]
      rfl
    | some v =>
      have hin : key ∈ puts.map Prod.fst ++ deletes :=
        mem_append_left _ (mem_map_of_mem (mem_reverse.1 (mem_of_valueAt hv)))
      rw [if_pos hin, hmoved]
      rfl

theorem cell_applyPutIfAbsent {k value} (hk : isUserKey k = true) :
    (applyPutIfAbsent rows logIndex row realm k value).1.cell r key =
      if r = realm then (if k = key then CellOp.putIfAbsent value else .keep).run logIndex (rows.cell r key)
      else rows.cell r key := by
  rw [applyPutIfAbsent, cell_writeBatch hkey _ (forall_mem_nil _)]
  refine if_ctx_congr .rfl (fun hr => ?_) fun _ => rfl
  subst hr
  by_cases habs : (rows.get r k).isNone = true
  · have hput : valueAt [(k, value)] (appliedIndexKey key) = none := by
      rw [valueAt_cons, if_neg (ne_appliedIndexKey hk key).symm, valueAt_nil]
    rw [if_pos habs, reverse_append, reverse_singleton, valueAt_append, valueAt_append,
      valueAt_movedSidecars_user hkey, valueAt_movedSidecars hkey, hput,
      valueAt_cons]
    by_cases heq : k = key
    · subst heq
      have hrun : run logIndex (.putIfAbsent value) (rows.cell r k) =
          (rows.cell r k).overwrite logIndex (some value) := if_pos habs
      rw [if_pos rfl, if_pos rfl, if_pos mem_cons_self, hrun, cell]
      cases rows.get r (appliedIndexKey k) <;> rfl
    · rw [if_neg heq, if_neg (Ne.symm heq), if_neg fun h => heq (mem_singleton.1 h).symm]
      rfl
  · have hrun : run logIndex (if k = key then .putIfAbsent value else .keep) (rows.cell r key) =
        rows.cell r key := by
      split
      · next heq =>
        subst heq
        exact if_neg habs
      · rfl
    rw [if_neg habs, hrun]
    rfl

theorem cell_applyIncrement {k} (hk : isUserKey k = true) :
    (applyIncrement rows logIndex row realm k).1.cell r key =
      if r = realm then (if k = key then CellOp.increment else .keep).run logIndex (rows.cell r key)
      else rows.cell r key := by
  have hrows : (applyIncrement rows logIndex row realm k).1 = rows.writeBatch realm
      (puts rows logIndex (.incrementU64 realm k) ++ [(smAppliedKey, row)]) [] :=
    applyCommand_rows rows _ row (.incrementU64 realm k)
  rw [hrows, cell_writeBatch hkey _ (forall_mem_nil _)]
  refine if_ctx_congr .rfl (fun hr => ?_) fun _ => rfl
  have hr' : realm = r := hr.symm
  subst hr'
  rw [if_neg not_mem_nil]
  by_cases heq : k = key
  · subst heq
    have hpair : ∀ v w : Bytes, valueAt [(k, v), (appliedIndexKey k, w)].reverse k = some v ∧
        valueAt [(k, v), (appliedIndexKey k, w)].reverse (appliedIndexKey k) = some w := fun v w => by
      rw [reverse_cons, reverse_singleton, singleton_append, valueAt_cons, valueAt_cons,
        valueAt_cons, if_neg (ne_appliedIndexKey hkey k), if_pos rfl, if_pos rfl]
      exact ⟨rfl, rfl⟩
    rw [if_pos rfl, run, Cell.increment, puts]
    simp only [cell]
    cases decodeU64Counter (rows.get realm k) with
    | error err =>
      rw [(hpair _ _).1, (hpair _ _).2]
      rfl
    | ok current =>
      cases decodeU64Counter (rows.get realm (appliedIndexKey k)) with
      | error err =>
        rw [(hpair _ _).1, (hpair _ _).2]
        rfl
      | ok lastIndex =>
        simp only
        split
        · rfl
        · rw [(hpair _ _).1, (hpair _ _).2]
          rfl
  · -- nothing is put under another key or its sidecar
    have hput : ∀ e ∈ puts rows logIndex (.incrementU64 realm k),
        e.1 = k ∨ e.1 = appliedIndexKey k := by
      have hpair : ∀ {v w : Bytes}, ∀ e ∈ [(k, v), (appliedIndexKey k, w)],
          e.1 = k ∨ e.1 = appliedIndexKey k := fun e he => by
        rcases mem_cons.1 he with rfl | he
        · exact .inl rfl
        · exact .inr (congrArg Prod.fst (mem_singleton.1 he))
      rw [puts]
      split
      · split
        · exact forall_mem_nil _
        · exact hpair
      · exact hpair
    have hnone : ∀ k', k' ≠ k → k' ≠ appliedIndexKey k →
        valueAt (puts rows logIndex (.incrementU64 realm k)).reverse k' = none := by
      refine fun k' hne hne' => valueAt_eq_none.2 fun e he h => ?_
      exact (hput e (mem_reverse.1 he)).elim (fun h' => hne (h.trans h')) fun h' => hne' (h.trans h')
    rw [hnone _ (symm heq) (ne_appliedIndexKey hkey k),
      hnone _ (ne_appliedIndexKey hk key).symm fun h => heq (appliedIndexKey_injective h).symm, if_neg heq]
    rfl

end

theorem cell_applyEntry {codec : RowCodec M} {e : LogEntry M} (he : e.NamesUserKeys)
    (hkey : isUserKey key = true) :
    (applyEntry codec rows e).1.cell r key = (e.opAt r key).run e.logId.index (rows.cell r key) := by
  have hpush : ∀ {realm : RealmId} {op : CellOp},
      (if r = realm then op.run e.logId.index (rows.cell r key) else rows.cell r key) =
        (if r = realm then op else .keep).run e.logId.index (rows.cell r key) := fun {realm op} => by
    split <;> rfl
  obtain ⟨id, payload⟩ := e
  cases payload with
  | blank => exact (cell_writeBatch hkey [] (forall_mem_nil _)).trans (by split <;> rfl)
  | normal cmd =>
    obtain ⟨hput, hdel⟩ := he cmd rfl
    cases cmd with
    | put realm k value =>
      have hput' : ∀ k' ∈ [(k, value)].map Prod.fst, isUserKey k' = true := hput
      exact (cell_applyWrites hkey hput' (forall_mem_nil _)).trans hpush
    | delete realm k => exact (cell_applyWrites hkey (forall_mem_nil _) hdel).trans hpush
    | batch realm entries => exact (cell_applyWrites hkey hput (forall_mem_nil _)).trans hpush
    | writeBatch realm puts deletes => exact (cell_applyWrites hkey hput hdel).trans hpush
    | putIfAbsent realm k value =>
      exact (cell_applyPutIfAbsent hkey (hput k (mem_singleton.2 rfl))).trans hpush
    | incrementU64 realm k => exact (cell_applyIncrement hkey (hput k (mem_singleton.2 rfl))).trans hpush
  | membership m =>
    obtain ⟨happ, hmem, -⟩ := isUserKey_iff.1 hkey
    have hmark := appliedIndexKey_ne_meta key
    simp only [applyEntry, cell, get_writeBatch, reverse_cons, reverse_nil,
      nil_append, singleton_append, valueAt_cons, valueAt_nil, if_neg happ, if_neg hmem,
      if_neg hmark.1, if_neg hmark.2, if_neg not_mem_nil, none_or, ite_self]
    rfl

end

/-! ## Replay of a cell -/

section

variable {codec : RowCodec M} {log : CommittedLog M} {r : RealmId} {key : Bytes} {t m : Nat} {c : Cell}
  {e : LogEntry M}

/-- What the leader holds after its first `t` entries. -/
def leaderAt (codec : RowCodec M) (log : CommittedLog M) (t : Nat) : Rows :=
  replay codec .empty (log.entries.take t)

theorem leaderAt_succ (he : log.entries[t]? = some e) :
    leaderAt codec log (t + 1) = (applyEntry codec (leaderAt codec log t) e).1 := by
  rw [leaderAt, take_add_one, he, replay_append]
  rfl

/-- The bytes are the index of one of the first `t` entries. -/
def MarkBefore (log : CommittedLog M) (t : Nat) (side : Bytes) : Prop :=
  ∃ q e, q < t ∧ log.entries[q]? = some e ∧ side = leBytes 8 e.logId.index

/-- Some entry from `a` on and before `m` overwrites the cell. -/
def Overwritten (log : CommittedLog M) (r : RealmId) (key : Bytes) (a m : Nat) : Prop :=
  ∃ d e value, a ≤ d ∧ d < m ∧ log.entries[d]? = some e ∧ e.opAt r key = .write value

/-- The leader's cell at `t`, or that with a sidecar the leader does not have yet. -/
structure SameCell (codec : RowCodec M) (log : CommittedLog M) (r : RealmId) (key : Bytes) (t : Nat)
    (c : Cell) : Prop where
  value : c.value = ((leaderAt codec log t).cell r key).value
  sidecar : c.sidecar = ((leaderAt codec log t).cell r key).sidecar ∨
    ((leaderAt codec log t).cell r key).sidecar = none ∧ ∃ side, c.sidecar = some side ∧ MarkBefore log t side

/-- A cell after `t` entries on a node whose snapshot holds the leader's cell at `m`. -/
def Follows (codec : RowCodec M) (log : CommittedLog M) (r : RealmId) (key : Bytes) (m t : Nat) (c : Cell) :
    Prop :=
  SameCell codec log r key t c ∨
    t < m ∧ (((leaderAt codec log m).cell r key).sidecar.isSome = true → c.sidecar.isSome = true) ∧
      (c = (leaderAt codec log m).cell r key ∨ Overwritten log r key t m)

theorem run_sidecar (op : CellOp) (i : Nat) (c : Cell) :
    (op.run i c).sidecar = c.sidecar ∨ (op.run i c).sidecar = some (leBytes 8 i) := by
  have hover : ∀ v, (c.overwrite i v).sidecar = c.sidecar ∨
      (c.overwrite i v).sidecar = some (leBytes 8 i) := fun v => by
    rw [Cell.overwrite]
    cases c.sidecar with
    | none => exact .inl rfl
    | some side => exact .inr rfl
  cases op with
  | keep => exact .inl rfl
  | write v => exact hover v
  | putIfAbsent v =>
    rw [run]
    split
    · exact hover _
    · exact .inl rfl
  | increment =>
    rw [run, Cell.increment]
    split
    · split
      · exact .inl rfl
      · exact .inr rfl
    · exact .inr rfl

theorem run_sidecar_isSome {op : CellOp} {i : Nat} (h : c.sidecar.isSome = true) :
    (op.run i c).sidecar.isSome = true := by
  rcases run_sidecar op i c with hs | hs <;> rw [hs]
  · exact h
  · rfl

/-- What holds of a counter's bytes, and of present rows only, holds until the row is overwritten. -/
theorem run_value {Q : Option Bytes → Prop} (hsome : ∀ v, Q v → v.isSome = true)
    (hcount : ∀ n, Q (some (leBytes 8 n))) {op : CellOp} {i : Nat} (hop : ∀ v, op ≠ .write v)
    (h : Q c.value) : Q (op.run i c).value := by
  cases op with
  | keep => exact h
  | write v => exact absurd rfl (hop v)
  | putIfAbsent v =>
    rw [run, if_neg]
    · exact h
    · intro hnone
      rw [isNone_iff_eq_none] at hnone
      cases hnone ▸ hsome _ h
  | increment =>
    rw [run, Cell.increment]
    split
    · split
      · exact h
      · exact hcount _
    · exact hcount _

theorem decodeU64Counter_leBytes {n} (h : n < 2 ^ 64) :
    decodeU64Counter (some (leBytes 8 n)) = .ok n := by
  rw [decodeU64Counter, if_pos (length_leBytes 8 n), leNat_leBytes h]

theorem MarkBefore.mono {side} (h : MarkBefore log t side) (ht : t ≤ m) : MarkBefore log m side := by
  obtain ⟨q, e, hq, he⟩ := h
  exact ⟨q, e, lt_of_lt_of_le hq ht, he⟩

theorem MarkBefore.decode {side} (h : MarkBefore log t side) (he : log.entries[t]? = some e) :
    ∃ n < e.logId.index, decodeU64Counter (some side) = .ok n := by
  obtain ⟨q, e', hq, he', rfl⟩ := h
  exact ⟨_, (CommittedLog.index_lt_index he' he hq).2,
    decodeU64Counter_leBytes (log.index_lt e' (mem_of_getElem? he'))⟩

section User

variable (hlog : ∀ e ∈ log.entries, e.NamesUserKeys) (hkey : isUserKey key = true)

include hlog hkey

theorem leaderCell_succ (he : log.entries[t]? = some e) : (leaderAt codec log (t + 1)).cell r key =
    (e.opAt r key).run e.logId.index ((leaderAt codec log t).cell r key) := by
  rw [leaderAt_succ he, cell_applyEntry (hlog e (mem_of_getElem? he)) hkey]

theorem leader_sidecar (ht : t ≤ log.entries.length) {side}
    (h : ((leaderAt codec log t).cell r key).sidecar = some side) : MarkBefore log t side := by
  induction t generalizing side with
  | zero => cases h
  | succ t ih =>
    have he : log.entries[t]? = some log.entries[t] := getElem?_eq_getElem ht
    rw [leaderCell_succ hlog hkey he] at h
    rcases run_sidecar _ _ _ with hs | hs
    · exact (ih (le_of_lt ht) (hs ▸ h)).mono (le_succ t)
    · exact ⟨t, _, lt_succ_self t, he, (some.inj (hs.symm.trans h)).symm⟩

/-- They stay, and their indices do not go down. -/
theorem leader_sidecar_mono {a b q} (hab : a ≤ b) (hb : b ≤ log.entries.length)
    {eq} (hq : log.entries[q]? = some eq) (hqa : q < a)
    (h : ((leaderAt codec log a).cell r key).sidecar = some (leBytes 8 eq.logId.index)) :
    ∃ q' e', q ≤ q' ∧ log.entries[q']? = some e' ∧
      ((leaderAt codec log b).cell r key).sidecar = some (leBytes 8 e'.logId.index) := by
  induction hab with
  | refl => exact ⟨q, eq, le_refl q, hq, h⟩
  | @step b hab ih =>
    obtain ⟨q', e', hqq', he', hside⟩ := ih (le_of_lt hb)
    have he : log.entries[b]? = some log.entries[b] := getElem?_eq_getElem hb
    rw [leaderCell_succ hlog hkey he]
    rcases run_sidecar _ _ _ with hs | hs
    · exact ⟨q', e', hqq', he', hs.trans hside⟩
    · exact ⟨b, _, le_trans (le_of_lt hqa) hab, he, hs⟩

theorem leader_sidecar_isSome {a b : Nat} (hab : a ≤ b) (hb : b ≤ log.entries.length)
    (h : ((leaderAt codec log a).cell r key).sidecar.isSome = true) :
    ((leaderAt codec log b).cell r key).sidecar.isSome = true := by
  induction hab with
  | refl => exact h
  | @step b hab ih =>
    rw [leaderCell_succ hlog hkey (getElem?_eq_getElem hb)]
    exact run_sidecar_isSome (ih (le_of_lt hb))

theorem leader_value_stays {Q : Option Bytes → Prop} (hsome : ∀ v, Q v → v.isSome = true)
    (hcount : ∀ n, Q (some (leBytes 8 n))) {a b : Nat} (hab : a ≤ b) (hb : b ≤ log.entries.length)
    (hno : ¬Overwritten log r key a b) (h : Q ((leaderAt codec log a).cell r key).value) :
    Q ((leaderAt codec log b).cell r key).value := by
  induction hab with
  | refl => exact h
  | @step b hab ih =>
    have he : log.entries[b]? = some log.entries[b] := getElem?_eq_getElem hb
    have hno' : ¬Overwritten log r key a b := fun ⟨d, e, v, had, hdb, hop⟩ =>
      hno ⟨d, e, v, had, lt_succ_of_lt hdb, hop⟩
    rw [leaderCell_succ hlog hkey he]
    exact run_value hsome hcount (fun v hv => hno ⟨b, _, v, hab, lt_succ_self b, he, hv⟩)
      (ih (le_of_lt hb) hno')

end User

/-- An entry that does something to a cell carries a command. -/
theorem index_pos_of_opAt (he : log.entries[t]? = some e) (hop : e.opAt r key ≠ .keep) :
    0 < e.logId.index := by
  cases hp : e.payload with
  | blank | membership membership => exact absurd (by rw [LogEntry.opAt, hp]) hop
  | normal cmd => exact log.index_pos e (mem_of_getElem? he) cmd hp

/-- A sidecar the leader lacks makes no difference to an increment. -/
theorem SameCell.increment (h : SameCell codec log r key t c) (he : log.entries[t]? = some e)
    (hpos : 0 < e.logId.index) :
    c.increment e.logId.index = ((leaderAt codec log t).cell r key).increment e.logId.index := by
  obtain ⟨hvalue, hside | ⟨hnone, side, hside, hmark⟩⟩ := h
  · obtain ⟨v, s⟩ := c
    obtain rfl : v = _ := hvalue
    obtain rfl : s = _ := hside
    rfl
  · obtain ⟨n, hn, hdec⟩ := hmark.decode he
    rw [Cell.increment, Cell.increment, hvalue, hnone, hside, hdec]
    cases decodeU64Counter ((leaderAt codec log t).cell r key).value with
    | error err => rfl
    | ok current =>
      simp only [decodeU64Counter]
      rw [if_neg (not_le.2 hn), if_neg (not_le.2 hpos)]

section User

variable (hlog : ∀ e ∈ log.entries, e.NamesUserKeys) (hkey : isUserKey key = true)

include hlog hkey

section

variable (he : log.entries[t]? = some e)

include he

theorem same_step (h : SameCell codec log r key t c) :
    SameCell codec log r key (t + 1) ((e.opAt r key).run e.logId.index c) := by
  have hover : ∀ v, SameCell codec log r key t c → (leaderAt codec log (t + 1)).cell r key =
        ((leaderAt codec log t).cell r key).overwrite e.logId.index v →
      SameCell codec log r key (t + 1) (c.overwrite e.logId.index v) := by
    intro v h hlead
    rw [Cell.overwrite] at hlead ⊢
    refine ⟨by rw [hlead], ?_⟩
    rw [hlead]
    rcases h.sidecar with hside | ⟨hnone, side, hside, -⟩
    · exact .inl (by rw [hside])
    · exact .inr ⟨by rw [hnone]; rfl, _, by rw [hside]; rfl, t, e, lt_succ_self t, he, rfl⟩
  have hkeep : (leaderAt codec log (t + 1)).cell r key = (leaderAt codec log t).cell r key →
      SameCell codec log r key (t + 1) c := by
    intro hlead
    refine ⟨by rw [hlead]; exact h.value, ?_⟩
    rw [hlead]
    exact h.sidecar.imp_right fun ⟨hnone, side, hside, hmark⟩ =>
      ⟨hnone, side, hside, hmark.mono (le_succ t)⟩
  have hsucc : (leaderAt codec log (t + 1)).cell r key = _ := leaderCell_succ hlog hkey he
  cases hop : e.opAt r key with
  | keep =>
    rw [hop] at hsucc
    exact hkeep hsucc
  | write v =>
    rw [hop] at hsucc
    exact hover v h hsucc
  | putIfAbsent v =>
    rw [hop] at hsucc
    rw [run] at hsucc ⊢
    rw [h.value]
    split at hsucc
    · next hnone =>
      rw [if_pos hnone]
      exact hover _ h hsucc
    · next hnone =>
      rw [if_neg hnone]
      exact hkeep hsucc
  | increment =>
    have hne : e.opAt r key ≠ .keep := by rw [hop]; nofun
    have heq := h.increment he (index_pos_of_opAt he hne)
    rw [hop, run, ← heq] at hsucc
    rw [run, ← hsucc]
    exact ⟨rfl, .inl rfl⟩

/-- After an increment the leader's row is a counter and its sidecar the entry's index. -/
theorem leader_increment (hop : e.opAt r key = .increment) :
    ∃ n, (leaderAt codec log (t + 1)).cell r key = ⟨some (leBytes 8 n), some (leBytes 8 e.logId.index)⟩ := by
  have hne : e.opAt r key ≠ .keep := by rw [hop]; nofun
  have hpos : 0 < e.logId.index := index_pos_of_opAt he hne
  have ht : t ≤ log.entries.length := le_of_lt (List.getElem?_eq_some_iff.1 he).1
  -- the sidecar, if any, is of an earlier entry
  have hlast : ∃ n < e.logId.index,
      decodeU64Counter ((leaderAt codec log t).cell r key).sidecar = .ok n := by
    cases hside : ((leaderAt codec log t).cell r key).sidecar with
    | none => exact ⟨0, hpos, rfl⟩
    | some side => exact (leader_sidecar hlog hkey ht hside).decode he
  obtain ⟨n, hn, hdec⟩ := hlast
  rw [leaderCell_succ hlog hkey he, hop, run, Cell.increment, hdec]
  cases decodeU64Counter ((leaderAt codec log t).cell r key).value with
  | error err => exact ⟨_, rfl⟩
  | ok current =>
    simp only
    rw [if_neg (not_le.2 hn)]
    exact ⟨_, rfl⟩

theorem same_overwrite {v} (hop : e.opAt r key = .write v)
    (hside : ((leaderAt codec log t).cell r key).sidecar.isSome = true → c.sidecar.isSome = true) :
    SameCell codec log r key (t + 1) (c.overwrite e.logId.index v) := by
  have hsucc : (leaderAt codec log (t + 1)).cell r key = _ := leaderCell_succ hlog hkey he
  rw [hop, run, Cell.overwrite] at hsucc
  refine ⟨by rw [hsucc]; rfl, ?_⟩
  rw [hsucc, Cell.overwrite]
  cases hlead : ((leaderAt codec log t).cell r key).sidecar with
  | none =>
    cases hc : c.sidecar with
    | none => exact .inl rfl
    | some side => exact .inr ⟨rfl, _, rfl, t, e, lt_succ_self t, he, rfl⟩
  | some side =>
    obtain ⟨side', hc⟩ := isSome_iff_exists.1 (hside (by rw [hlead]; rfl))
    rw [hc]
    exact .inl rfl

/-- The leader's cell of `m` is left alone by an entry before `m`, or is overwritten before `m`, or
now. -/
theorem frozen_step (htm : t < m) (hm : m ≤ log.entries.length)
    (hop : ∀ v, e.opAt r key ≠ .write v) :
    (e.opAt r key).run e.logId.index ((leaderAt codec log m).cell r key) = (leaderAt codec log m).cell r key ∨
      Overwritten log r key (t + 1) m := by
  rw [or_iff_not_imp_right]
  intro hno
  cases hcase : e.opAt r key with
  | keep => rfl
  | write v => exact absurd hcase (hop v)
  | putIfAbsent v =>
    -- the leader has the row after this entry, and so it has it at `m`
    have hnow : ((leaderAt codec log (t + 1)).cell r key).value.isSome = true := by
      rw [leaderCell_succ hlog hkey he, hcase, run]
      split
      · rfl
      · next hnot => exact isSome_iff_ne_none.2 fun h => hnot (isNone_iff_eq_none.2 h)
    have hthen := leader_value_stays hlog hkey (fun _ h => h) (fun _ => rfl) htm hm hno hnow
    exact if_neg fun h => isSome_iff_ne_none.1 hthen (isNone_iff_eq_none.1 h)
  | increment =>
    obtain ⟨n, hnow⟩ : ∃ n, (leaderAt codec log (t + 1)).cell r key = _ :=
      leader_increment hlog hkey he hcase
    obtain ⟨current, hvalue⟩ := leader_value_stays (Q := fun v => ∃ n, v = some (leBytes 8 n)) hlog hkey
      (fun _ ⟨_, hv⟩ => hv ▸ rfl) (fun n => ⟨n, rfl⟩) htm hm hno ⟨n, by rw [hnow]⟩
    obtain ⟨q, e', hq, he', hside⟩ := leader_sidecar_mono hlog hkey htm hm he (lt_succ_self t)
      (by rw [hnow])
    have hle : e.logId.index ≤ e'.logId.index := by
      rcases lt_or_eq_of_le hq with hq | rfl
      · exact le_of_lt (CommittedLog.index_lt_index he he' hq).2
      · rw [some.inj (he.symm.trans he')]
    rw [run, Cell.increment, hvalue, hside,
      decodeU64Counter_leBytes (log.index_lt e' (mem_of_getElem? he'))]
    rw [decodeU64Counter, if_pos (length_leBytes 8 _)]
    simp only
    rw [if_pos hle]

theorem follows_step (hm : m ≤ log.entries.length) (h : Follows codec log r key m t c) :
    Follows codec log r key m (t + 1) ((e.opAt r key).run e.logId.index c) := by
  rcases h with hsame | ⟨htm, hside, hc⟩
  · exact .inl (same_step hlog hkey he hsame)
  · by_cases hop : ∃ v, e.opAt r key = .write v
    · obtain ⟨v, hop⟩ := hop
      rw [hop]
      exact .inl (same_overwrite hlog hkey he hop fun hs =>
        hside (leader_sidecar_isSome hlog hkey (le_of_lt htm) hm hs))
    · have hop' : ∀ v, e.opAt r key ≠ .write v := fun v hv => hop ⟨v, hv⟩
      have hpend : Overwritten log r key (t + 1) m → Follows codec log r key m (t + 1)
          ((e.opAt r key).run e.logId.index c) := by
        rintro ⟨d, ed, v, htd, hdm, hd⟩
        exact .inr ⟨lt_of_le_of_lt htd hdm, fun hs => run_sidecar_isSome (hside hs),
          .inr ⟨d, ed, v, htd, hdm, hd⟩⟩
      rcases hc with rfl | ⟨d, ed, v, htd, hdm, hd, hwrite⟩
      · have hfrozen : (e.opAt r key).run e.logId.index ((leaderAt codec log m).cell r key) = _ ∨ _ :=
          frozen_step hlog hkey he htm hm hop'
        rcases hfrozen with hsame | hover
        · rw [hsame]
          rcases Nat.lt_or_eq_of_le htm with hlt | heq
          · exact .inr ⟨hlt, fun hs => hs, .inl rfl⟩
          · have heq' : t + 1 = m := heq
            rw [heq']
            exact .inl ⟨rfl, .inl rfl⟩
        · exact hpend hover
      · rcases lt_or_eq_of_le htd with hlt | rfl
        · exact hpend ⟨d, ed, v, hlt, hdm, hd, hwrite⟩
        · rw [some.inj (hd.symm.trans he)] at hwrite
          exact absurd hwrite (hop' v)

end

end User

theorem incrementOnce_value (rows : Rows) (realm key) (i : Nat) (row) :
    (incrementOnce rows realm key i row).2.value = ((rows.cell realm key).increment i).2 := by
  rw [incrementOnce, Cell.increment, cell]
  cases decodeU64Counter (rows.get realm key) with
  | error err => rfl
  | ok current =>
    cases decodeU64Counter (rows.get realm (appliedIndexKey key)) with
    | error err => rfl
    | ok lastIndex =>
      simp only
      split <;> rfl

/-- A node whose cells are the leader's answers as the leader does. -/
theorem response_eq (hlog : ∀ e ∈ log.entries, e.NamesUserKeys) {rows}
    (he : log.entries[t]? = some e)
    (h : ∀ r key, isUserKey key = true → SameCell codec log r key t (rows.cell r key)) :
    (applyEntry codec rows e).2 = (applyEntry codec (leaderAt codec log t) e).2 := by
  have hmem := mem_of_getElem? he
  have hpos := log.index_pos e hmem
  have hnames := hlog e hmem
  rw [applyEntry, applyEntry]
  cases hp : e.payload with
  | blank | membership m => rfl
  | normal cmd =>
    have huser := (hnames cmd hp).1
    cases cmd with
    | put realm key value | delete realm key | batch realm entries
    | writeBatch realm puts deletes => rfl
    | putIfAbsent realm key value =>
      have hvalue : rows.get realm key = (leaderAt codec log t).get realm key :=
        (h _ key (huser key (mem_singleton.2 rfl))).value
      simp only [applyCommand, applyPutIfAbsent]
      rw [hvalue]
    | incrementU64 realm key =>
      have hsame := (h realm key (huser key (mem_singleton.2 rfl))).increment he (hpos _ hp)
      simp only [applyCommand, applyIncrement]
      rw [incrementOnce_value, incrementOnce_value, hsame]

end

end Hearth.Cluster
