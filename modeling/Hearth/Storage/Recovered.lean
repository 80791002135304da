import Hearth.Storage.Durability

/-!
# What survives a crash

Results:
1. `acknowledged_survive`: every acknowledged write is in the recovered state.
2. `write_batch_atomic`: a `write_batch` is recovered as a whole or not at all, as
   long as no flush swaps the memtable while the record of one is not yet synced.
3. `write_batch_torn`: otherwise a flush between the puts and the deletes leaves
   the puts without the deletes.
-/

namespace Hearth.Storage

open Prod (fst snd)

open Base Wal Engine List WalSys Sys

variable {k : CompositeKey} {ws : List Entry} {m : CompositeKey → Option Bytes}

theorem overwrite_of_none (h : valueAt ws.reverse k = none) : overwrite m ws k = m k := by
  rw [overwrite, h]
  rfl

/-- Writes to a key hide what was there. -/
theorem overwrite_of_some {m'}
    (h : valueAt ws.reverse k ≠ none) : overwrite m ws k = overwrite m' ws k := by
  cases hv : valueAt ws.reverse k with
  | none => exact absurd hv h
  | some v => rw [overwrite, overwrite, hv, Option.elim_some, Option.elim_some]

/-- The calls of a list, each with its ticket, as writes. -/
def callWrites (calls : List (WriteCall × Nat)) : List Entry := calls.flatMap fun p => p.1.writes

theorem callWrites_append (a b : List (WriteCall × Nat)) : callWrites (a ++ b) = callWrites a ++ callWrites b :=
  flatMap_append

theorem callWrites_none {a b} (hsub : ∀ p ∈ a, p ∈ b)
    (h : valueAt (callWrites b).reverse k = none) : valueAt (callWrites a).reverse k = none := by
  refine valueAt_eq_none.2 fun e he => valueAt_eq_none.1 h e ?_
  obtain ⟨p, hp, hin⟩ := mem_flatMap.1 (mem_reverse.1 he)
  exact mem_reverse.2 (mem_flatMap.2 ⟨p, hsub p hp, hin⟩)

/-- What the files up to a cut and then the replayed writes give for a key: either the calls that
left the log and the replayed ones, or the calls below the cut and the replayed ones above. -/
theorem overwrite_replayed {base N front high before kept} (hfront : N = 0 → front = [])
    (hhigh : ∀ p ∈ high, p ∈ kept)
    (hws : (before = [] ∧ ws = base ++ callWrites kept) ∨ (0 < N ∧ ws = callWrites kept))
    (k) :
    overwrite (overwrite m (if N = 0 then [] else base ++ callWrites front)) ws k =
        overwrite (overwrite m base) (callWrites (before ++ kept)) k ∨
      overwrite (overwrite m (if N = 0 then [] else base ++ callWrites front)) ws k =
        overwrite (overwrite m base) (callWrites (front ++ high)) k := by
  by_cases hk : valueAt ws.reverse k = none
  · right
    have hkept : valueAt (callWrites kept).reverse k = none := by
      rcases hws with ⟨-, rfl⟩ | ⟨-, rfl⟩
      · rw [reverse_append, valueAt_append, Option.or_eq_none_iff] at hk
        exact hk.1
      · exact hk
    rw [overwrite_of_none hk, callWrites_append, overwrite_append _ _,
      overwrite_of_none (callWrites_none hhigh hkept)]
    by_cases hN : N = 0
    · -- no call is in the files, and the log has the records found at the open
      rw [if_pos hN, hfront hN]
      rcases hws with ⟨-, rfl⟩ | ⟨h0, -⟩
      · rw [reverse_append, valueAt_append, Option.or_eq_none_iff] at hk
        exact (overwrite_of_none hk.2).symm
      · exact absurd hN (ne_of_gt h0)
    · rw [if_neg hN, overwrite_append]
  · left
    rw [callWrites_append]
    rcases hws with ⟨rfl, rfl⟩ | ⟨-, rfl⟩
    · show _ = overwrite (overwrite m base) (callWrites kept) k
      rw [← overwrite_append m base]
      exact overwrite_of_some hk
    · rw [overwrite_append _ _, overwrite_of_some hk]

namespace StoreSys

variable {T : Type} {C : Cipher} {crc32 : Bytes → Nat}

/-- The calls of a run in WAL order, each with its ticket. -/
def numbered (s : StoreSys T C crc32) : List (WriteCall × Nat) := s.calls.zipIdx 1

variable {s : StoreSys T C crc32} {m : CompositeKey → Option Bytes} {base : List Entry}
  {rs : List Record} {n top maxSize : Nat} {p : WriteCall × Nat} {i : Nat} {wal : Segment C}
  {log : Bytes} {s' : StoreSys T C crc32}

theorem ticket_of_take {c} (h : p ∈ s.numbered.take c) : 1 ≤ p.2 ∧ p.2 ≤ c := by
  obtain ⟨i, hi, rfl⟩ := mem_iff_getElem.1 h
  rw [length_take] at hi
  simp only [numbered, getElem_take, getElem_zipIdx]
  omega

theorem ticket_of_drop {c} (h : p ∈ s.numbered.drop c) : c < p.2 := by
  obtain ⟨i, hi, rfl⟩ := mem_iff_getElem.1 h
  simp only [numbered, getElem_drop, getElem_zipIdx]
  omega

theorem numbered_ticket_inj {q} (hp : p ∈ s.numbered) (hq : q ∈ s.numbered)
    (h : p.2 = q.2) : p = q := by
  obtain ⟨i, hi, rfl⟩ := mem_iff_getElem.1 hp
  obtain ⟨j, hj, rfl⟩ := mem_iff_getElem.1 hq
  simp only [numbered, getElem_zipIdx, add_left_cancel_iff] at h
  subst h
  rfl

/-- The blocks up to a cut are the records found at the open and the calls below the cut. -/
theorem upTo_blocks (N : Nat) :
    upTo (s.blocks base) N = if N = 0 then [] else base ++ callWrites (s.numbered.take (N - 1)) := by
  cases N with
  | zero => rfl
  | succ c =>
    rw [upTo, blocks, take_succ_cons, ← map_take]
    have hcalls : (s.numbered.take c).map fst = s.calls.take c := by
      rw [map_take, numbered, zipIdx_map_fst]
    rw [← hcalls, map_map]
    rfl

theorem calls_of_slots (h : s.ApplyingOk) (ht : TicketsOk s.wal.proto)
    {slots : List (GroupSlot Record)} (hsub : slots.Sublist s.wal.proto.issued) :
    ∃ calls : List (WriteCall × Nat), calls.Sublist s.numbered ∧
      calls.map snd = slots.map (·.ticket) ∧
      slots.map (fun x => recordWrites x.plaintext.entry) = calls.map fun p => .ok p.1.writes := by
  have hlen : s.wal.proto.issued.length ≤ s.calls.length := by
    rw [h.count]
    exact Nat.le_add_right _ _
  have hall : s.wal.proto.issued.map (fun x => (x.ticket, recordWrites x.plaintext.entry)) =
      (s.numbered.take s.wal.proto.issued.length).map fun p => (p.2, .ok p.1.writes) := by
    have hnum : (s.numbered.take s.wal.proto.issued.length).map snd =
        range' 1 s.wal.proto.issued.length := by
      rw [map_take, numbered, zipIdx_map_snd, take_range'_of_length_ge hlen]
    have hcalls : (s.numbered.take s.wal.proto.issued.length).map fst =
        s.calls.take s.wal.proto.issued.length := by
      rw [map_take, numbered, zipIdx_map_fst]
    rw [← zip_map', ← zip_map', ht.tickets, h.records, ← hnum, ← hcalls, map_map]
    rfl
  have hpairs := hsub.map fun x => (x.ticket, recordWrites x.plaintext.entry)
  rw [hall] at hpairs
  obtain ⟨calls, hcalls, heq⟩ := sublist_map_iff.1 hpairs
  refine ⟨calls, hcalls.trans (take_sublist _ _), ?_, ?_⟩
  · have := congrArg (map fst) heq
    rw [map_map, map_map] at this
    exact this.symm
  · have := congrArg (map snd) heq
    rw [map_map, map_map] at this
    exact this

variable [DecidableEq T] {x : GroupSlot Record} {old : List Record} {dir : List (Numbered crc32)}
  {R : StoreSys Unit tagCipher (fun _ => 0) → StoreSys Unit tagCipher (fun _ => 0) → Prop}

/-- A slot whose commit has ended is the one of a call. -/
theorem ticket_numbered (h : s.ApplyingOk) (hr : s.wal.Reached maxSize)
    (hx : x ∈ (s.wal.proto.committed.map fst).flatten) : ∃ p ∈ s.numbered, p.2 = x.ticket := by
  have hp := proto_reachable hr
  have hd := committed_subset (leaders_ok hp) (watermark_ok hp) hx
  obtain ⟨calls, hsub, htick, -⟩ := calls_of_slots h (tickets_ok hp)
    (singleton_sublist.2 (mem_append_left _ hd))
  obtain ⟨p, rfl, hticket⟩ := map_eq_singleton_iff.1 htick
  exact ⟨p, hsub.subset (mem_singleton_self _), hticket⟩

/-- The slots in the log, after those that left it, are in the order of the queue. -/
theorem order_issued (hr : s.wal.Reached maxSize)
    {before kept new} (h : Order rs s.wal old before kept new) :
    (before ++ (kept ++ new)).Sublist s.wal.proto.issued := by
  have hp := proto_reachable hr
  have hw := watermark_ok hp
  have hdrain : s.wal.proto.drained.flatten.Sublist s.wal.proto.issued :=
    sublist_append_left _ _
  have hcom : (s.wal.proto.committed.map fst).flatten.Sublist s.wal.proto.issued := by
    obtain ⟨⟨rest, hd⟩, -⟩ := hw.pipeline (leaders_ok hp)
    rw [hd, flatten_append] at hdrain
    exact (sublist_append_left _ _).trans hdrain
  have hidle : new = [] → (before ++ (kept ++ new)).Sublist s.wal.proto.issued := by
    rintro rfl
    rw [append_nil]
    exact h.queue.trans hcom
  have hbusy : s.wal.Committing new → (before ++ (kept ++ new)).Sublist s.wal.proto.issued := by
    rintro ⟨t, x, c, hpc⟩
    have hstage := hw.stageAt hpc
    rw [hstage.1, flatten_append, flatten_singleton] at hdrain
    rw [← append_assoc]
    exact (h.queue.append (.refl new)).trans hdrain
  have hnew := h.stage
  unfold NewStage at hnew
  split at hnew
  · exact hbusy hnew
  · exact hbusy hnew
  · exact hbusy hnew
  · exact hnew.elim hidle hbusy
  · exact hidle hnew

/-- Whatever an image of the log gives back: the calls of the current segment, after the records
found at the open if no rotation has moved them out, or nothing at all. -/
theorem replayed_calls (h : Inv m base rs n top s) (hr : s.wal.Reached maxSize)
    (hsurv : s.wal.file.Survives log) (hauth : s.wal.Authentic log)
    (hopen : openWithFs C i log = .ok wal) {entries : List WalEntry} {ws : List (List Entry)}
    (hread : wal.readAll = .ok entries) (hws : entries.map recordWrites = ws.map .ok) :
    (∃ before kept : List (WriteCall × Nat), (before ++ kept).Sublist s.numbered ∧
      (∀ p ∈ before, p.2 < n) ∧ (∀ x ∈ s.wal.proto.okSlots, ∃ p ∈ before ++ kept, p.2 = x.ticket) ∧
      ((before = [] ∧ ws.flatten = base ++ callWrites kept) ∨ (0 < n ∧ ws.flatten = callWrites kept))) ∨
    (0 < n ∧ ws.flatten = [] ∧ ∀ x ∈ s.wal.proto.okSlots, x.ticket < n) := by
  have hok := survive_ok hr
  have hinj : ∀ {a b : List (List Entry)}, 
      (a.map .ok : List (Except StorageError (List Entry))) = b.map .ok → a = b :=
    fun heq => map_injective_iff.2 (fun _ _ => Except.ok.inj) heq
  rcases image_replays hok.syncedLe (fun hl => hok.images hl log hsurv) hauth hopen with
    ⟨k, hk, hread'⟩ | ⟨hlost, hread'⟩
  · left
    obtain rfl : entries = _ := Except.ok.inj (hread.symm.trans hread')
    obtain ⟨old, before, kept, new, horder, hbef, hold⟩ := h.order
    obtain ⟨ws0, hws0, hbase⟩ := h.baseWrites
    -- the replayed slots follow those that left the log in the order of the queue
    have hsub : (before ++ (kept ++ new).take (k - old.length)).Sublist s.wal.proto.issued :=
      ((List.Sublist.refl _).append (take_sublist _ _)).trans (order_issued hr horder)
    obtain ⟨calls, hcalls, htick, hwrite⟩ :=
      calls_of_slots h.applying (tickets_ok (proto_reachable hr)) hsub
    have hshape : (old = rs ∧ before = []) ∨ (old = [] ∧ 0 < n) := by
      rcases horder.head with hhead | hnil
      · exact .inl hhead
      · rcases hold with hrs | h0
        · cases before with
          | nil => exact .inl ⟨hrs, rfl⟩
          | cons x _ => exact .inr ⟨hnil, Nat.zero_lt_of_lt (hbef x mem_cons_self)⟩
        · exact .inr ⟨hnil, h0⟩
    have hacked : ∀ x ∈ s.wal.proto.okSlots, ∃ p ∈ calls, p.2 = x.ticket := by
      intro x hx
      have hin : x ∈ before ++ (kept ++ new).take (k - old.length) := by
        rcases horder.ok x hx with hb | hs
        · exact mem_append_left _ hb
        · exact mem_append_right _ ((take_subset_take_left _ (Nat.sub_le_sub_right hk _)) hs)
      have hmem := mem_map_of_mem (f := (·.ticket)) hin
      rw [← htick] at hmem
      exact mem_map.1 hmem
    rw [map_append] at htick hwrite
    obtain ⟨cb, ck, rfl, hcb, hck⟩ := map_eq_append_iff.1 htick
    have hlen := congrArg length hcb
    rw [length_map, length_map] at hlen
    rw [map_append] at hwrite
    obtain ⟨-, hkept⟩ := append_inj hwrite (by rw [length_map, length_map, hlen])
    have hents : old.map (fun r => recordWrites r.entry) ++ ck.map (fun p => .ok p.1.writes) =
        ws.map .ok := by
      have hold : ∀ l : List Record, (old ++ l).take k = old ++ l.take (k - old.length) := fun l => by
        rw [take_append, take_of_length_le (le_trans horder.base hk)]
      rw [← hws, ← hkept, horder.placed, hold, records, ← map_take, map_append, map_append, map_map,
        map_map, map_map]
      rfl
    refine ⟨cb, ck, hcalls, fun p hp => ?_, hacked, ?_⟩
    · have hmem := mem_map_of_mem (f := snd) hp
      rw [hcb] at hmem
      obtain ⟨x, hx, heq⟩ := mem_map.1 hmem
      exact heq ▸ hbef x hx
    · rcases hshape with ⟨rfl, rfl⟩ | ⟨rfl, h0⟩
      · refine .inl ⟨length_eq_zero_iff.1 hlen, ?_⟩
        have heq : ws0 ++ ck.map (fun p => p.1.writes) = ws := hinj (by
          rw [map_append, ← hws0, map_map]
          exact hents)
        rw [← heq, flatten_append, hbase]
        rfl
      · refine .inr ⟨h0, ?_⟩
        have heq : ck.map (fun p => p.1.writes) = ws := hinj (by
          rw [map_map]
          exact hents)
        rw [← heq]
        rfl
  · right
    obtain rfl : entries = [] := Except.ok.inj (hread.symm.trans hread')
    obtain ⟨h0, hall⟩ := h.rotation.lost hlost
    obtain rfl : ws = [] := hinj hws.symm
    exact ⟨h0, rfl, hall⟩

omit [DecidableEq T] in
/-- Whichever of the files survive, they hold the calls up to some cut. -/
theorem survivors_cut (h : Inv m base rs n top s)
    (hcrash : s.Crash log dir) : ∃ N, n ≤ N ∧ N ≤ top ∧ CutAt m (s.blocks base) N (lookup dir) := by
  obtain ⟨kept, hkept, rfl⟩ := hcrash.dir
  have hnewer : Newer (s.blocks base) n top s.unsynced := by
    have hmem := h.memory
    unfold MemoryOk at hmem
    split at hmem
    · exact hmem.1
    · exact hmem.2
    · obtain ⟨-, r, older, b, hu, hb, hs, hnew⟩ := hmem
      rw [hu]
      exact ⟨b, top, hb, h.bounds.1, le_rfl, hs, hnew⟩
    · rw [hmem.2.2]
      trivial
  exact hnewer.cut h.bounds.1 hkept h.cut

/-- The recovered value of the key is the one the store was opened with, overwritten by these
calls. -/
def Explains (s : StoreSys T C crc32) (e : Engine crc32) (calls : List (WriteCall × Nat))
    (realmId : RealmId) (key : Bytes) : Prop :=
  (e.get realmId key).1 = overwrite s.opened (callWrites calls) ⟨realmId, key⟩

/-- Every key is recovered by one of two lists of calls: those in the log, or those and the ones
in the files. Both have all that may be acknowledged, and they differ only below the last swap. -/
theorem recovered_calls (h : Inv m base rs n top s) (hr : s.wal.Reached maxSize)
    (hcrash : s.Crash log dir) (hauth : s.wal.Authentic log)
    {config : StorageConfig} {e : Engine crc32}
    (hopen : openStore C config i log dir = .ok (wal, e)) :
    ∃ replayed all : List (WriteCall × Nat), replayed.Sublist s.numbered ∧ all.Sublist s.numbered ∧
      (∀ p ∈ replayed, p ∈ all) ∧ (∀ p ∈ all, p ∈ replayed ∨ p.2 < top) ∧
      (∀ x ∈ s.wal.proto.okSlots, ∃ p ∈ replayed, p.2 = x.ticket) ∧
      ∀ realmId key, s.Explains e replayed realmId key ∨ s.Explains e all realmId key := by
  obtain ⟨hlog, -, -, -, -, entries, ws, hread, hws, -, hrep⟩ := openStore_spec hopen
  obtain ⟨N, hnN, hNtop, hcut⟩ := survivors_cut h hcrash
  have hget : ∀ realmId key, (e.get realmId key).1 =
      overwrite (overwrite m (upTo (s.blocks base) N)) ws.flatten ⟨realmId, key⟩ := by
    intro realmId key
    rw [hrep.get_eq, overwrite, overwrite, hcut _]
  have hopened : s.opened = overwrite m base := funext h.opened
  have htake : ∀ p ∈ s.numbered.take (N - 1), p.2 < top := by
    intro p hp
    obtain ⟨h1, hle⟩ := ticket_of_take hp
    omega
  rcases replayed_calls h hr hcrash.log hauth hlog hread hws with
    ⟨before, kept, hsub, hbef, hacked, hwrite⟩ | ⟨h0, hnil, hacked⟩
  · -- behind the cut, only what was replayed
    have hsplit := hsub
    rw [← take_append_drop (N - 1) s.numbered] at hsplit
    obtain ⟨low, high, hlh, hlow, hhigh⟩ := sublist_append_iff.1 hsplit
    have hhighkept : ∀ p ∈ high, p ∈ kept := by
      intro p hp
      have hin : p ∈ before ++ kept := hlh ▸ mem_append_right low hp
      rcases mem_append.1 hin with hb | hk
      · have h1 := hbef p hb
        have h2 := ticket_of_drop (hhigh.subset hp)
        omega
      · exact hk
    refine ⟨before ++ kept, s.numbered.take (N - 1) ++ high, hsub, ?_, fun p hp => ?_, fun p hp => ?_, hacked,
      fun realmId key => ?_⟩
    · have := (List.Sublist.refl (s.numbered.take (N - 1))).append hhigh
      rwa [take_append_drop] at this
    · rw [hlh] at hp
      exact mem_append.2 ((mem_append.1 hp).imp_left (hlow.subset ·))
    · rcases mem_append.1 hp with hp | hp
      · exact .inr (htake p hp)
      · exact .inl (hlh ▸ mem_append_right low hp)
    · rw [Explains, Explains, hget, hopened, upTo_blocks]
      refine overwrite_replayed (fun hN => ?_) hhighkept (hwrite.imp_right fun hw => ⟨?_, hw.2⟩) _
      · rw [hN]
        rfl
      · exact lt_of_lt_of_le hw.1 hnN
  · -- nothing was replayed, and the files have all that may be acknowledged
    refine ⟨s.numbered.take _, s.numbered.take (N - 1), take_sublist _ _, take_sublist _ _,
      fun p hp => hp, fun p => .inl, fun x hx => ?_, fun realmId key => .inl ?_⟩
    · obtain ⟨p, hp, htick⟩ := ticket_numbered h.applying hr (okSlots_subset hx)
      refine ⟨p, ?_, htick⟩
      have hlt := hacked x hx
      rw [← take_append_drop _ s.numbered] at hp
      rcases mem_append.1 hp with hp | hp
      · exact hp
      · have := ticket_of_drop hp
        omega
    · have hN : N ≠ 0 := ne_of_gt (lt_of_lt_of_le h0 hnN)
      rw [Explains, hget, hnil, hopened, upTo_blocks, if_neg hN, overwrite_append]
      rfl

/-! ## Runs -/

section

variable (hst : Step maxSize s s')

include hst

theorem calls_step : s.calls <+: s'.calls := by
  cases hst with
  | begin => exact prefix_append _ _
  | _ => exact prefix_rfl

theorem numbered_step (hp : p ∈ s'.numbered) (hlt : p.2 < s.calls.length + 1) : p ∈ s.numbered := by
  obtain ⟨new, hnew⟩ := calls_step hst
  rw [numbered, ← hnew, zipIdx_append, mem_append] at hp
  refine hp.resolve_right fun hin => ?_
  obtain ⟨i, hi, rfl⟩ := mem_iff_getElem.1 hin
  rw [getElem_zipIdx] at hlt
  omega

/-- What may be acknowledged stays so. -/
theorem okSlots_step (hx : x ∈ s.wal.proto.okSlots) : x ∈ s'.wal.proto.okSlots := by
  rcases step_wal hst with heq | hst
  · rwa [heq]
  · rcases step_proto hst with heq | hst
    · rwa [heq]
    · exact okSlots_grow hst hx

end

omit [DecidableEq T] in
/-- A call other than a `write_batch` is applied in one hold of the lock. -/
theorem applied_at_once (h : s.ApplyingOk) {a} (ha : s.applying = some a)
    (hcall : a.call.isWriteBatch = false) : a.todo = [] ∨ a.todo = a.call.sections := by
  obtain ⟨-, -, hsuf⟩ := h.call a ha
  have hone : ∃ sec, a.call.sections = [sec] := by
    cases hc : a.call with
    | writeBatch => rw [hc] at hcall; cases hcall
    | _ => exact ⟨_, rfl⟩
  obtain ⟨sec, hsec⟩ := hone
  rw [hsec] at hsuf ⊢
  exact (suffix_cons_iff.1 hsuf).symm.imp_left suffix_nil.1

/-- The calls of the run so far are none of them `write_batch`. -/
def NoWriteBatch (_ t : StoreSys T C crc32) : Prop := ∀ call ∈ t.calls, call.isWriteBatch = false

/-- A flush swaps the memtable only when the record of every `write_batch` so far has been synced,
by a commit before which none failed. -/
def ParksSynced (s t : StoreSys T C crc32) : Prop :=
  s.flush = .idle → t.flush = .parked → ∀ p ∈ s.numbered, p.1.isWriteBatch = true →
    ∃ x ∈ s.wal.proto.okSlots, x.ticket = p.2

theorem parksWhole_of_noWriteBatch (h : s.ApplyingOk)
    (hst : Step maxSize s s') (hno : NoWriteBatch s s') : ParksWhole s s' := by
  intro _ _ a ha
  refine applied_at_once h ha (hno _ ((calls_step hst).subset ?_))
  exact mem_of_getLast? (h.call a ha).1

theorem parksWhole_of_synced (h : s.ApplyingOk)
    (hr : s.wal.Reached maxSize) (hsync : ParksSynced s s') : ParksWhole s s' := by
  intro hidle hpark a ha
  refine applied_at_once h ha (Bool.eq_false_iff.2 fun hbatch => ?_)
  obtain ⟨front, hfront⟩ := getLast?_eq_some_iff.1 (h.call a ha).1
  have hmem : (a.call, front.length + 1) ∈ s.numbered := by
    rw [numbered, hfront, zipIdx_append]
    exact mem_append_right _ (by rw [add_comm]; exact mem_singleton_self _)
  -- its record has not been pushed, so no slot has its ticket
  obtain ⟨x, hx, htick⟩ := hsync hidle hpark _ hmem hbatch
  have hp := proto_reachable hr
  have hd := committed_subset (leaders_ok hp) (watermark_ok hp) (okSlots_subset hx)
  have hlt := (tickets_ok hp).ticket (mem_append_left _ hd)
  have hcount := h.count
  rw [hfront, ha, length_append] at hcount
  have hone : front.length + 1 = s.wal.proto.issued.length + 1 := hcount
  omega

theorem noWriteBatch_inv (h : Reachable Opened (Guarded (Step maxSize) NoWriteBatch) s) :
    ∃ m base rs n top, Inv m base rs n top s := by
  refine h.invariant (I := fun s => ∃ m base rs n top, Inv m base rs n top s) (fun s hs => ?_)
    fun s s' hr ⟨m, base, rs, n, top, hinv⟩ hst => ?_
  · obtain ⟨m, base, rs, hinv⟩ := inv_opened hs
    exact ⟨m, base, rs, 0, 0, hinv⟩
  · obtain ⟨n', top', -, hinv', -⟩ := inv_step hinv (wal_reachable hr.of_guarded) hst.1
      (parksWhole_of_noWriteBatch hinv.applying hst.1 hst.2)
    exact ⟨m, base, rs, n', top', hinv'⟩

/-- Every `write_batch` below the last swap has its record synced. -/
def SyncedBelow (top : Nat) (s : StoreSys T C crc32) : Prop :=
  ∀ p ∈ s.numbered, p.1.isWriteBatch = true → p.2 < top → ∃ x ∈ s.wal.proto.okSlots, x.ticket = p.2

theorem parksSynced_inv (h : Reachable Opened (Guarded (Step maxSize) ParksSynced) s) :
    ∃ m base rs n top, Inv m base rs n top s ∧ SyncedBelow top s := by
  refine h.invariant (I := fun s => ∃ m base rs n top, Inv m base rs n top s ∧ SyncedBelow top s)
    (fun s hs => ?_) fun s s' hr ⟨m, base, rs, n, top, hinv, hsync⟩ hst => ?_
  · obtain ⟨m, base, rs, hinv⟩ := inv_opened hs
    exact ⟨m, base, rs, 0, 0, hinv, fun _ _ _ hlt => absurd hlt (Nat.not_lt_zero _)⟩
  · have hwal := wal_reachable hr.of_guarded
    obtain ⟨n', top', -, hinv', htop⟩ := inv_step hinv hwal hst.1
      (parksWhole_of_synced hinv.applying hwal hst.2)
    refine ⟨m, base, rs, n', top', hinv', fun p hp hbatch hlt => ?_⟩
    have hle : s.whole ≤ (s.blocks base).length := whole_le
    rw [length_blocks] at hle
    have hstay : ∀ {x}, x ∈ s.wal.proto.okSlots ∧ x.ticket = p.2 →
        ∃ x ∈ s'.wal.proto.okSlots, x.ticket = p.2 := fun hx => ⟨_, okSlots_step hst.1 hx.1, hx.2⟩
    rcases htop with rfl | ⟨hidle, hpark, rfl⟩
    · have hin := numbered_step hst.1 hp (by have := hinv.bounds.2; omega)
      obtain ⟨x, hx⟩ := hsync p hin hbatch hlt
      exact hstay hx
    · have hin := numbered_step hst.1 hp (by omega)
      obtain ⟨x, hx⟩ := hst.2 hidle hpark p hin hbatch
      exact hstay hx

/-! ## A small store

For concrete runs: one file in which a key has a value, a fresh log and one writer. -/

def emptyEngine (config : StorageConfig) (dir : List (Numbered crc32)) : Engine crc32 where
  activeMemtable := .new
  dir := dir
  sstReaders := dir
  sstCounter := nextNumber dir
  hotTier := .new config.tiered config.hashBuilder

theorem openStore_empty (config : StorageConfig)
    (dir : List (Numbered crc32)) (hopen : openWithFs C i log = .ok wal)
    (hheld : Wal.Holds C wal.content wal.dek []) :
    openStore C config i log dir = .ok (wal, emptyEngine config dir) := by
  rw [openStore, hopen]
  dsimp only
  rw [hheld.readAll]
  rfl

def demoConfig : StorageConfig := ⟨⟨16, 1⟩, .inOrder⟩

def zeroRealm : RealmId := .nil

def demoDir : List (Numbered fun _ => 0) :=
  [(1, .ofV1 _ [(⟨zeroRealm, [7]⟩, .data [1])] (pairwise_singleton _ _))]

def demoEngine : Engine fun _ => 0 := emptyEngine demoConfig demoDir

def demoStore : StoreSys Unit tagCipher fun _ => 0 := ofOpen 0 (writeFreshHeader tagCipher 0) [] demoEngine

theorem demoStore_opened : demoStore.Opened :=
  ⟨demoConfig, 0, [], demoDir, _, [], _, openStore_empty _ _ rfl (holds_fresh 0 _),
    holds_fresh 0 _, rfl, rfl⟩

theorem apply_sections {R a}
    (hR : ∀ u v, Step 0 u v → v.flush = s.flush → v.calls = s.calls → R u v)
    (h : Reachable Opened R s) (ha : s.applying = some a) :
    ∃ mt, Reachable Opened R { s with memtable := mt, applying := some { a with todo := [] } } := by
  obtain ⟨t, call, record, todo⟩ := a
  induction todo generalizing s with
  | nil =>
    refine ⟨s.memtable, ?_⟩
    rw [← ha]
    exact h
  | cons sec rest ih =>
    exact ih (s := { s with
        memtable := sec.apply _, applying := some _ }) hR
      (h.next (hR _ _ (.lockSection ha rfl) rfl rfl)) rfl

/-- The memtable between the puts and the deletes of a `write_batch`. -/
def tornMemtable : Memtable := Memtable.new.putBatch zeroRealm [([9], [4])]

theorem torn_file : ∃ file, Sst.write (fun _ => 0) tornMemtable.data.toList
    (keySorted_toList tornMemtable.data) = .ok file :=
  exists_ok_of_isOk (by decide +kernel)

theorem header_data (region) : versioned (repairPartialHeader (newHeader tagCipher 0 ++ region)) =
      .ok (newHeader tagCipher 0 ++ region) := by
  exact versioned_versioned (tagCipher.length_wrap _ _) le_rfl

/-- The log with one record. -/
def loneImage (r : Record) : Bytes :=
  newHeader tagCipher 0 ++ frames tagCipher (0 : UInt8) 0 [r.payload]

/-- Every window of the data that looks like a record is one of the payloads. -/
abbrev RecordsOf (dek : UInt8) (payloads : List Bytes) (data : Bytes) : Prop :=
  ∀ pos < data.length, 16 ≤ (payloadAt data pos).length → let c := payloadAt data pos
    (c.drop (c.length - 16)).head? = some 0xa5 → (c.drop (c.length - 16))[1]? = some dek ∧
      payloads[leNat ((c.drop (c.length - 16)).drop 2)]? = some (c.take (c.length - 16))

/-- With `tagCipher` an image is authentic if the windows of its data are records. -/
theorem tagCipher_authentic {w : WalSys Unit tagCipher} {img allData : Bytes} (hlost : w.lost = false)
    (hdata : versioned (repairPartialHeader img) = .ok allData) (hplace : w.placed.length ≤ 2 ^ 64)
    (h : RecordsOf w.dek (w.placed.map Record.payload) (allData.drop recordOffset)) : w.Authentic img := by
  refine ⟨fun hl => absurd (hlost.symm.trans hl) (by decide), fun all (dek : UInt8) pos n p hv hd => ?_⟩
  obtain rfl : allData = all := Except.ok.inj (hdata.symm.trans hv)
  obtain ⟨hpos, hwin⟩ := tagCipher_window hd
  have hrec := h pos hpos
  dsimp only at hrec
  rw [hwin, length_append, length_recordTag, Nat.add_sub_cancel, drop_left, take_left,
    leNat_recordTag] at hrec
  obtain ⟨hdek, hat⟩ := hrec (Nat.le_add_left _ _) rfl
  have hlt : min n (2 ^ 64) < w.placed.length := by
    have := (List.getElem?_eq_some_iff.1 hat).1
    rwa [length_map] at this
  rw [show min n (2 ^ 64) = n by omega] at hat
  exact ⟨Option.some.inj hdek, hat⟩

section

variable (call : WriteCall) (hR : ∀ u v, Step 0 u v → v.flush = .idle → v.calls = [] ∨ v.calls = [call] → R u v)
  {e : WalEntry} (hfits : e.serialize.length + 16 < 2 ^ 32) (hne : call.writes ≠ [])
  (hentry : call.walEntry 0 = .ok e)

include hR hne hentry

theorem lone_call : ∃ s, Reachable Opened R s ∧ s.calls = [call] ∧ s.opened = demoEngine.value ∧
      s.durableDir = demoDir ∧
      s.wal.proto.pc () = .returned (some ⟨.ofEntry e hfits, 1⟩) (.ok ()) ∧
      s.wal.file = .stable (loneImage (.ofEntry e hfits)) ∧
      s.wal.placed = [.ofEntry e hfits] ∧ s.wal.dek = (0 : UInt8) ∧ s.wal.lost = false := by
  have h0 : Reachable Opened R demoStore := .start demoStore_opened
  have h1 := h0.next (hR _ _ (.wal (.thread (.passFence (t := ()) rfl rfl) rfl) rfl nofun
    fun _ => absurd rfl) rfl (.inl rfl))
  have h2 := h1.next (hR _ _ (.begin (t := ()) hfits rfl rfl hne hentry) rfl (.inr rfl))
  obtain ⟨mt, h3⟩ := apply_sections (fun u v hst hf hc => hR u v hst hf (.inr hc)) h2 rfl
  have h4 := h3.next (hR _ _ (.push rfl rfl rfl) rfl (.inr rfl))
  have h5 := h4.next (hR _ _ (.wal (.thread (.drain (t := ()) rfl) rfl) rfl nofun
    fun _ => absurd rfl) rfl (.inr rfl))
  have h6 := h5.next (hR _ _ (.wal (.reserve (t := ()) rfl rfl rfl)
    rfl nofun fun _ _ => ⟨rfl, nofun⟩) rfl (.inr rfl))
  have h7 := h6.next (hR _ _ (.wal (.write rfl) rfl nofun nofun) rfl (.inr rfl))
  have h8 := h7.next (hR _ _ (.wal (.sync rfl) rfl nofun nofun) rfl (.inr rfl))
  have h9 := h8.next (hR _ _ (.wal (.finish (t := ()) rfl rfl) rfl nofun nofun) rfl (.inr rfl))
  have h10 := h9.next (hR _ _ (.wal (.thread (.publish (t := ())
    rfl) rfl) rfl nofun fun _ => absurd rfl) rfl (.inr rfl))
  have h11 := h10.next (hR _ _ (.wal (.thread (.drain (t := ()) rfl) rfl) rfl nofun
    fun _ => absurd rfl) rfl (.inr rfl))
  have h12 := h11.next (hR _ _ (.wal (.thread (.observe (t := ()) rfl
    (.inl le_rfl)) rfl) rfl nofun fun _ => absurd rfl) rfl (.inr rfl))
  exact ⟨_, h12, rfl, rfl, rfl, rfl, rfl, rfl, rfl, rfl⟩

theorem lone_call_crash (hwin : RecordsOf 0 [(Record.ofEntry e hfits).payload]
      ((loneImage (.ofEntry e hfits)).drop recordOffset))
    (hopens : (openStore tagCipher demoConfig 1 (loneImage (.ofEntry e hfits)) demoDir).isOk = true) :
    ∃ s, Reachable Opened R s ∧ s.calls = [call] ∧ s.opened = demoEngine.value ∧
      s.wal.proto.pc () = .returned (some ⟨.ofEntry e hfits, 1⟩) (.ok ()) ∧
      s.Crash s.wal.file.content demoDir ∧ s.wal.Authentic s.wal.file.content ∧
      ∃ wal eng, openStore tagCipher demoConfig 1 s.wal.file.content demoDir = .ok (wal, eng) := by
  obtain ⟨s, h, hcalls, hopen, hdir, hpc, hfile, hplace, hdek, hlost⟩ :=
    lone_call call hR _ hne hentry
  have himg : s.wal.file.content = loneImage (.ofEntry e hfits) := by rw [hfile]; rfl
  refine ⟨s, h, hcalls, hopen, hpc, ⟨?_, [], nil_sublist _, hdir.symm⟩, ?_, ?_⟩
  · rw [hfile]
    exact DurableFile.survives_stable.2 rfl
  · rw [himg]
    refine tagCipher_authentic hlost (header_data _) (by rw [hplace]; exact Nat.one_le_two_pow) ?_
    rw [hdek, hplace]
    exact hwin
  · rw [himg]
    obtain ⟨r, hr⟩ := exists_ok_of_isOk hopens
    exact ⟨r.1, r.2, hr⟩

end

/-! ## Results -/

/-- A crash at any point of a run of puts, deletes and `put_batch` calls, with group commits,
flushes and rotations: if the store opens again, the value of each key is the one left by the last
write to it, in WAL order, among calls that include every acknowledged one. -/
theorem acknowledged_survive (h : Reachable Opened (Guarded (Step maxSize) NoWriteBatch) s)
    {log : Bytes} {dir : List (Numbered crc32)} (hcrash : s.Crash log dir)
    (hauth : s.wal.Authentic log) {config : StorageConfig} {i : Nat} {wal : Segment C}
    {e : Engine crc32} (hopen : openStore C config i log dir = .ok (wal, e)) (realmId : RealmId)
    (key : Bytes) :
    ∃ calls : List (WriteCall × Nat), calls.Sublist s.numbered ∧
      (∀ t o, s.wal.proto.pc t = .returned o (.ok ()) → ∃ x, o = some x ∧ ∃ p ∈ calls, p.2 = x.ticket) ∧
      s.Explains e calls realmId key := by
  obtain ⟨m, base, rs, n, top, hinv⟩ := noWriteBatch_inv h
  have hr := wal_reachable h.of_guarded
  have hp := proto_reachable hr
  obtain ⟨replayed, all, hrs, has, hsub, -, hok, hexp⟩ := recovered_calls hinv hr hcrash hauth hopen
  have hacked : ∀ t o, s.wal.proto.pc t = .returned o (.ok ()) →
      ∃ x, o = some x ∧ ∃ p ∈ replayed, p.2 = x.ticket := by
    intro t o hpc
    obtain ⟨x, ho, hx⟩ := acked_ok (leaders_ok hp) (tickets_ok hp) (watermark_ok hp) hpc
    exact ⟨x, ho, hok x hx⟩
  rcases hexp _ key with hexp | hexp
  · exact ⟨replayed, hrs, hacked, hexp⟩
  · refine ⟨all, has, fun t o hpc => ?_, hexp⟩
    obtain ⟨x, ho, p, hmem, htick⟩ := hacked t o hpc
    exact ⟨x, ho, p, hsub p hmem, htick⟩

theorem acknowledged_survive_put : ∃ (s : StoreSys Unit tagCipher fun _ => 0) (wal : Segment tagCipher)
    (e : Engine fun _ => 0) (x : GroupSlot Record), s.wal.proto.pc () = .returned (some x) (.ok ()) ∧
    openStore tagCipher demoConfig 1 s.wal.file.content demoDir = .ok (wal, e) ∧
    (e.get zeroRealm [7]).1 = some [5] := by
  obtain ⟨s, h, hcalls, -, hpc, hcrash, hauth, wal, e, hopen⟩ :=
    lone_call_crash (R := Guarded (Step 0) NoWriteBatch) (.put zeroRealm [7] [5])
      (fun u v hst _ hc => ⟨hst, fun call hin => by
        rcases hc with hc | hc <;> rw [hc] at hin
        · cases hin
        · rw [mem_singleton.1 hin]
          rfl⟩)
      (by decide) nofun rfl (by decide +kernel) (by decide +kernel)
  refine ⟨s, wal, e, _, hpc, hopen, ?_⟩
  obtain ⟨calls, hsub, hacked, hexp⟩ := acknowledged_survive h hcrash hauth hopen _ [7]
  rw [numbered, hcalls] at hsub
  rcases sublist_singleton.1 hsub with rfl | rfl
  · obtain ⟨x, -, p, hp, -⟩ := hacked () _ hpc
    cases hp
  · exact hexp.trans rfl

/-- In every run whose flushes wait for the records of the `write_batch` calls, a crash leaves each
of these calls as a whole or not at all: all keys are explained by calls that include it, or all by
calls that do not. -/
theorem write_batch_atomic (h : Reachable Opened (Guarded (Step maxSize) ParksSynced) s)
    {log : Bytes} {dir : List (Numbered crc32)} (hcrash : s.Crash log dir)
    (hauth : s.wal.Authentic log) {config : StorageConfig} {i : Nat} {wal : Segment C}
    {e : Engine crc32} (hopen : openStore C config i log dir = .ok (wal, e))
    {p : WriteCall × Nat} (hp : p ∈ s.numbered) (hbatch : p.1.isWriteBatch = true) :
    (∀ realmId key, ∃ calls : List (WriteCall × Nat), calls.Sublist s.numbered ∧ p ∈ calls ∧
      s.Explains e calls realmId key) ∨
    ∀ realmId key, ∃ calls : List (WriteCall × Nat), calls.Sublist s.numbered ∧ p ∉ calls ∧
      s.Explains e calls realmId key := by
  obtain ⟨m, base, rs, n, top, hinv, hsync⟩ := parksSynced_inv h
  obtain ⟨replayed, all, hrs, has, hsub, hlow, hok, hexp⟩ :=
    recovered_calls hinv (wal_reachable h.of_guarded) hcrash hauth hopen
  by_cases hin : p ∈ replayed
  · left
    intro realmId key
    rcases hexp _ key with hexp | hexp
    · exact ⟨replayed, hrs, hin, hexp⟩
    · exact ⟨all, has, hsub p hin, hexp⟩
  · right
    -- below the last swap its record would have been synced, and replayed
    have hnot : p ∉ all := by
      intro hall
      obtain ⟨x, hx, htick⟩ := hsync p hp hbatch ((hlow p hall).resolve_left hin)
      obtain ⟨q, hq, hqt⟩ := hok x hx
      exact hin (numbered_ticket_inj (hrs.subset hq) hp (hqt.trans htick) ▸ hq)
    intro realmId key
    rcases hexp _ key with hexp | hexp
    · exact ⟨replayed, hrs, hin, hexp⟩
    · exact ⟨all, has, hnot, hexp⟩

theorem write_batch_atomic_one : ∃ (s : StoreSys Unit tagCipher fun _ => 0) (wal : Segment tagCipher)
    (e : Engine fun _ => 0), s.calls = [.writeBatch zeroRealm [([9], [4])] [[7]]] ∧
    openStore tagCipher demoConfig 1 s.wal.file.content demoDir = .ok (wal, e) ∧
    (((e.get zeroRealm [9]).1 = some [4] ∧ (e.get zeroRealm [7]).1 = none) ∨
      ((e.get zeroRealm [9]).1 = none ∧ (e.get zeroRealm [7]).1 = some [1])) := by
  obtain ⟨s, h, hcalls, hopened, -, hcrash, hauth, wal, e, hopen⟩ :=
    lone_call_crash (R := Guarded (Step 0) ParksSynced)
      (.writeBatch zeroRealm [([9], [4])] [[7]])
      (fun u v hst hidle _ => ⟨hst, fun _ hpark => absurd (hidle.symm.trans hpark) (by decide)⟩)
      (by decide +kernel) nofun rfl (by decide +kernel) (by decide +kernel)
  refine ⟨s, wal, e, hcalls, hopen, ?_⟩
  have hnum : s.numbered = [(.writeBatch zeroRealm [([9], [4])] [[7]], 1)] := by rw [numbered, hcalls]; rfl
  have hold : demoEngine.value ⟨zeroRealm, [9]⟩ = none ∧ demoEngine.value ⟨zeroRealm, [7]⟩ = some [1] := by
    decide +kernel
  rcases write_batch_atomic h hcrash hauth hopen (by rw [hnum]; exact mem_singleton_self _) rfl with
    hall | hnone
  · left
    have hone : ∀ key, s.Explains e [(.writeBatch zeroRealm [([9], [4])] [[7]], 1)] zeroRealm key := by
      intro key
      obtain ⟨calls, hsub, hin, hexp⟩ := hall _ key
      rw [hnum] at hsub
      rcases sublist_singleton.1 hsub with rfl | rfl
      · cases hin
      · exact hexp
    exact ⟨(hone [9]).trans rfl, (hone [7]).trans rfl⟩
  · right
    have hzero : ∀ key, (e.get zeroRealm key).1 = demoEngine.value ⟨zeroRealm, key⟩ := by
      intro key
      obtain ⟨calls, hsub, hnot, hexp⟩ := hnone _ key
      rw [hnum] at hsub
      rcases sublist_singleton.1 hsub with rfl | rfl
      · rw [hexp, hopened]
        rfl
      · exact absurd (mem_singleton_self _) hnot
    exact ⟨(hzero [9]).trans hold.1, (hzero [7]).trans hold.2⟩

/-- A flush that starts between the puts and the deletes of a `write_batch` puts the first into a
file. After a crash the new value is there and the key that was to be deleted still is. -/
theorem write_batch_torn : ∃ (s : StoreSys Unit tagCipher fun _ => 0) (log : Bytes)
    (dir : List (Numbered fun _ => 0)) (wal : Segment tagCipher) (e : Engine fun _ => 0)
    (p : WriteCall × Nat),
    Reachable Opened (Step 0) s ∧ s.Crash log dir ∧ s.wal.Authentic log ∧
    openStore tagCipher demoConfig 1 log dir = .ok (wal, e) ∧ p ∈ s.numbered ∧
    p.1.isWriteBatch = true ∧
    ¬((∀ realmId key, ∃ calls : List (WriteCall × Nat), calls.Sublist s.numbered ∧ p ∈ calls ∧
        s.Explains e calls realmId key) ∨
      ∀ realmId key, ∃ calls : List (WriteCall × Nat), calls.Sublist s.numbered ∧ p ∉ calls ∧
        s.Explains e calls realmId key) := by
  obtain ⟨file, hfile⟩ := torn_file
  have h0 : Reachable Opened (Step 0) demoStore := .start demoStore_opened
  have h1 := h0.next (.wal (.thread (.passFence (t := ()) rfl rfl) rfl) rfl nofun
    fun _ => absurd rfl)
  have hentry : (WriteCall.writeBatch zeroRealm [([9], [4])] [[7]]).walEntry 0 = .ok _ := rfl
  have hne : (WriteCall.writeBatch zeroRealm [([9], [4])] [[7]]).writes ≠ [] := nofun
  have h2 := h1.next (.begin (t := ()) (by decide +kernel) rfl rfl hne hentry)
  have h3 := h2.next (.lockSection rfl rfl)
  have h4 := h3.next (.park rfl (by decide +kernel))
  have h5 := h4.next (.publish rfl rfl hfile)
  have h6 := h5.next (.syncDir rfl)
  let log := newHeader tagCipher 0
  have hheld : Wal.Holds tagCipher log (0 : UInt8) [] := holds_fresh 0 _
  obtain ⟨encHeader, hrec⟩ := hheld.recover_eq
  have hwal : openWithFs tagCipher 1 log = .ok ⟨log, (0 : UInt8), encHeader, 0⟩ := by
    unfold openWithFs
    rw [hrec]
    rfl
  have hopen := openStore_empty demoConfig ([(2, file)] ++ demoDir) hwal hheld
  have hget : ∀ key, ((emptyEngine demoConfig ([(2, file)] ++ demoDir)).get zeroRealm key).1 =
      (tornMemtable.data[(⟨zeroRealm, key⟩ : CompositeKey)]?).elim (lookup demoDir ⟨zeroRealm, key⟩)
        MemtableValue.live := by
    intro key
    have hlook := lookup_cons (2, file) demoDir ⟨zeroRealm, key⟩
    rw [← valueAt_toList, ← Sst.entries_write hfile, ← hlook]
    exact Represents.get_eq ⟨fun _ => rfl, HotTier.coherent_new _ _ _⟩
  have hold : (tornMemtable.data[(⟨zeroRealm, [7]⟩ : CompositeKey)]?).elim
      (lookup demoDir ⟨zeroRealm, [7]⟩) MemtableValue.live = some [1] := by decide +kernel
  have hnew : (tornMemtable.data[(⟨zeroRealm, [9]⟩ : CompositeKey)]?).elim
      (lookup demoDir ⟨zeroRealm, [9]⟩) MemtableValue.live = some [4] := by decide +kernel
  have habs : demoEngine.value ⟨zeroRealm, [9]⟩ = none := by decide +kernel
  refine ⟨_, log, [(2, file)] ++ demoDir, _, _, (.writeBatch zeroRealm [([9], [4])] [[7]], 1), h6,
    ⟨DurableFile.survives_stable.2 rfl, [], nil_sublist _, rfl⟩, ?_, hopen, mem_singleton_self _,
    rfl, ?_⟩
  · refine tagCipher_authentic rfl (header_data []) (Nat.zero_le _) fun pos hpos => absurd hpos ?_
    exact Nat.not_lt_zero pos
  · rintro (hall | hnone)
    · -- with the call, the key is deleted
      obtain ⟨calls, hsub, hin, hexp⟩ := hall _ [7]
      rcases sublist_singleton.1 hsub with rfl | rfl
      · cases hin
      · have hkept : (some [1] : Option Bytes) = none := (hold.symm.trans (hget [7]).symm).trans hexp
        cases hkept
    · -- without it, the other key has no value
      obtain ⟨calls, hsub, hnot, hexp⟩ := hnone _ [9]
      rcases sublist_singleton.1 hsub with rfl | rfl
      · have hput : (some [4] : Option Bytes) = none :=
          ((hnew.symm.trans (hget [9]).symm).trans hexp).trans habs
        cases hput
      · exact hnot (mem_singleton_self _)

end StoreSys

end Hearth.Storage
