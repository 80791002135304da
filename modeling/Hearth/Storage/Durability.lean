import Hearth.Storage.Store

/-!
# A running store and its files

The calls are a sequence of blocks, and each part of the store holds a cut of
it: the durable files the blocks up to `n`, the memtable those behind the last
swap at `top`, the log the records that no rotation has moved into the files.

Results:
1. `inv_step`: each step keeps this, if no flush swaps the memtable while a call
   is applied in part.
2. `inv_opened`: a store that has just been opened starts with it.
-/

namespace Hearth.Wal.Sys

open Base List

variable {T P : Type} {s : Sys T P} {x : GroupSlot P}

theorem committed_subset (hl : LeadersOk s) (h : WatermarkOk s)
    (hx : x ∈ (s.committed.map Prod.fst).flatten) : x ∈ s.drained.flatten := by
  obtain ⟨⟨new, hd⟩, -⟩ := h.pipeline hl
  rw [hd, flatten_append]
  exact mem_append_left _ hx

/-- The ticket of a slot is its place in the queue. -/
theorem TicketsOk.ticket (h : TicketsOk s) (hx : x ∈ s.issued) :
    1 ≤ x.ticket ∧ x.ticket < s.issued.length + 1 := by
  have hmem : x.ticket ∈ s.issued.map (·.ticket) := mem_map_of_mem hx
  rw [h.tickets, mem_range'_1] at hmem
  omega

variable [DecidableEq T]

/-- Only an enqueue issues a slot. -/
theorem issued_stays {s'} (hst : Step s s')
    (hn : s'.group.nextTicket = s.group.nextTicket) : s'.issued = s.issued := by
  cases hst with
  | enqueue p _ =>
    have : s.group.nextTicket + 1 = s.group.nextTicket := hn
    omega
  | @drain t x c _ =>
    rcases s.drain_cases t x c with ⟨_, hd⟩ | hd | ⟨_, hd⟩ <;> rw [hd]
    · rfl
    · rfl
    · simp [issued]
  | observe _ _ =>
    unfold observe
    split_ifs <;> rfl
  | @claim t x _ => rcases s.claim_cases t x with ⟨_, hd⟩ | ⟨_, hd⟩ <;> rw [hd] <;> rfl
  | _ => rfl

/-- While a batch is being committed no other is drained. -/
theorem drained_stays {s'} (hst : Step s s') (hl : LeadersOk s) {t : T}
    {c b} (ht : s.pc t = .committing x c b) : s'.drained = s.drained := by
  cases hst with
  | @drain u y d hpc =>
    have hut : u = t := hl.unique u t (by rw [hpc]; rfl) (by rw [ht]; rfl)
    rw [hut, ht] at hpc
    cases hpc
  | observe _ _ =>
    unfold observe
    split_ifs <;> rfl
  | @claim u y _ => rcases s.claim_cases u y with ⟨_, hd⟩ | ⟨_, hd⟩ <;> rw [hd] <;> rfl
  | _ => rfl

end Hearth.Wal.Sys

namespace Hearth.Storage.StoreSys

open LockSection (writes)

open Base Wal Engine List

variable {T : Type} {C : Cipher} {crc32 : Bytes → Nat}

/-! ## The invariant -/

variable (base : List Entry)

/-- The writes of the records found at the open, then those of each call. A call's block stands
at the number of its ticket. -/
def blocks (s : StoreSys T C crc32) : List (List Entry) := base :: s.calls.map WriteCall.writes

variable (s : StoreSys T C crc32)

/-- How many blocks are applied as a whole. -/
def whole : Nat :=
  match s.applying with
  | some a => if a.todo.isEmpty then s.calls.length + 1 else s.calls.length
  | none => s.calls.length + 1

/-- What is applied of a call that is not applied as a whole. -/
def part : List Entry :=
  match s.applying with
  | some a => if a.todo.isEmpty then []
    else (a.call.sections.take (a.call.sections.length - a.todo.length)).flatMap writes
  | none => []

/-- Everything applied to the memtable since the start. -/
def applied : List Entry := upTo (s.blocks base) s.whole ++ s.part

/-- The parked map holds the blocks up to `top`, the active one what came after. -/
def ParkedOk (n top : Nat) (s : StoreSys T C crc32) : Prop :=
  ∃ (parked : MemtableMap) (b : Nat) (rest : List Entry), s.memtable.flushing = some parked ∧ b ≤ n ∧
    Spans (s.blocks base) b top (parked[·]?) ∧ s.applied base = upTo (s.blocks base) top ++ rest ∧
    StandsFor rest (s.memtable.data[·]?)

/-- The memtable and the new files, for files cut at `n` and a memtable last swapped at `top`. -/
def MemoryOk (n top : Nat) (s : StoreSys T C crc32) : Prop :=
  match s.flush with
  | .idle => Newer (s.blocks base) n top s.unsynced ∧ s.memtable.flushing = none ∧
      ∃ b rest, b ≤ n ∧ s.applied base = upTo (s.blocks base) b ++ rest ∧
        StandsFor rest (s.memtable.data[·]?)
  | .parked => s.ParkedOk base n top ∧ Newer (s.blocks base) n top s.unsynced
  | .published => s.ParkedOk base n top ∧ ∃ r older b, s.unsynced = r :: older ∧ b ≤ n ∧
      Spans (s.blocks base) b top (valueAt r.2.entries) ∧ Newer (s.blocks base) n top older
  | .synced => s.ParkedOk base n top ∧ n = top ∧ s.unsynced = []

def DrainedBelow (n : Nat) (s : StoreSys T C crc32) : Prop :=
  0 < n ∧ ∀ x ∈ s.wal.proto.drained.flatten, x.ticket < n

/-- A rotation under way has flushed, or is flushing, all that was drained. -/
structure RotationOk (n top : Nat) (s : StoreSys T C crc32) : Prop where
  parked : s.rotation = .parked → s.flush ≠ .idle ∧ s.DrainedBelow top
  flushed : s.rotation = .flushed → s.DrainedBelow n
  leader : s.rotation ≠ .none → s.wal.io = .idle ∧ ∃ t x c b, s.wal.proto.pc t = .committing x c b
  rotating : ∀ k, s.wal.io = .flushed k ∨ s.wal.io = .truncated k ∨ s.wal.io = .headed k →
    s.DrainedBelow n
  lost : s.wal.lost = true → 0 < n ∧ ∀ x ∈ s.wal.proto.okSlots, x.ticket < n

/-- The call inside its `apply` is the last one, and its record is the one it will push. -/
structure ApplyingOk (s : StoreSys T C crc32) : Prop where
  count : s.calls.length = s.wal.proto.issued.length + s.applying.toList.length
  call : ∀ a, s.applying = some a → s.calls.getLast? = some a.call ∧
    recordWrites a.record.entry = .ok a.call.writes ∧ a.todo <:+ a.call.sections
  records : s.wal.proto.issued.map (fun x => recordWrites x.plaintext.entry) =
    (s.calls.take s.wal.proto.issued.length).map fun c => .ok c.writes
  nonempty : ∀ c ∈ s.calls, c.writes ≠ []

/-- The records of the log, by the segments they are in. -/
def OrderOk (rs : List Record) (n : Nat) (s : StoreSys T C crc32) : Prop :=
  ∃ old before kept new, WalSys.Order rs s.wal old before kept new ∧
    (∀ x ∈ before, x.ticket < n) ∧ (old = rs ∨ 0 < n)

/-- The state of a store whose files are cut at `n` and whose memtable was last swapped at `top`,
over files that hold `m` and a log that held the records `rs` with the writes `base`. -/
structure Inv (m : CompositeKey → Option Bytes) (base : List Entry) (rs : List Record) (n top : Nat)
    (s : StoreSys T C crc32) : Prop where
  opened : ∀ k, s.opened k = overwrite m base k
  baseWrites : ∃ ws : List (List Entry), rs.map (fun r => recordWrites r.entry) = ws.map .ok ∧
    ws.flatten = base
  cut : CutAt m (s.blocks base) n (lookup s.durableDir)
  bounds : n ≤ top ∧ top ≤ s.whole
  memory : s.MemoryOk base n top
  applying : s.ApplyingOk
  order : s.OrderOk rs n
  rotation : s.RotationOk n top

/-! ## What is applied -/

section

variable {base : List Entry} {s : StoreSys T C crc32}

theorem length_blocks : (s.blocks base).length = s.calls.length + 1 := by
  rw [blocks, length_cons, length_map]

theorem whole_le : s.whole ≤ (s.blocks base).length := by
  rw [length_blocks, whole]
  split
  · split
    · exact le_rfl
    · exact Nat.le_succ _
  · exact le_rfl

/-- A call that is whole, or has not begun to write, leaves nothing between the blocks. -/
theorem part_eq_nil (h : ∀ a, s.applying = some a → a.todo = [] ∨ a.todo = a.call.sections) :
    s.part = [] := by
  unfold part
  split
  · next a ha =>
    rcases h a ha with hnil | hall
    · rw [hnil]
      rfl
    · rw [hall, Nat.sub_self, take_zero, flatMap_nil, ite_self]
  · rfl

/-- The blocks of the calls pushed so far are applied. -/
theorem ApplyingOk.issued_lt (h : s.ApplyingOk) : s.wal.proto.issued.length < s.whole := by
  have hcount := h.count
  unfold whole
  split
  · next a ha =>
    rw [ha] at hcount
    split
    · rw [hcount]
      exact Nat.lt_succ_of_le (Nat.le_add_right _ _)
    · rw [hcount]
      exact Nat.lt_succ_self _
  · rw [hcount]
    exact Nat.lt_succ_of_le (Nat.le_add_right _ _)

theorem applied_lockSection (base) (h : s.ApplyingOk) {a sec rest} (ha : s.applying = some a) (htodo : a.todo = sec :: rest) (mt : Memtable) :
    applied base { s with memtable := mt, applying := some { a with todo := rest } } =
      s.applied base ++ sec.writes ∧
    s.whole ≤ whole { s with memtable := mt, applying := some { a with todo := rest } } := by
  obtain ⟨hlast, -, done, hdone⟩ := h.call a ha
  rw [htodo] at hdone
  have hold : s.whole = s.calls.length ∧ s.part = done.flatMap writes := by
    unfold whole part
    rw [ha]
    dsimp only
    rw [htodo, ← hdone, length_append, Nat.add_sub_cancel_right, take_left]
    exact ⟨rfl, rfl⟩
  have happ : s.applied base ++ sec.writes =
      upTo (s.blocks base) s.calls.length ++ (done ++ [sec]).flatMap writes := by
    rw [applied, hold.1, hold.2, append_assoc, flatMap_append, flatMap_singleton]
  rw [happ]
  cases rest with
  | nil =>
    have hblock : upTo (s.blocks base) (s.calls.length + 1) =
        upTo (s.blocks base) s.calls.length ++ a.call.writes := by
      rw [upTo_succ (by rw [length_blocks]; exact Nat.lt_succ_self _)]
      obtain ⟨front, hfront⟩ := getLast?_eq_some_iff.1 hlast
      simp [blocks, hfront]
    refine ⟨?_, by rw [hold.1]; exact Nat.le_succ _⟩
    show upTo (s.blocks base) (s.calls.length + 1) ++ [] = _
    rw [hblock, WriteCall.writes, ← hdone, append_nil]
  | cons sec' rest =>
    refine ⟨?_, by rw [hold.1]; exact le_rfl⟩
    show upTo (s.blocks base) s.calls.length ++ flatMap writes
      (a.call.sections.take (a.call.sections.length - (sec' :: rest).length)) = _
    rw [← hdone, append_cons, length_append, Nat.add_sub_cancel_right, take_left]

theorem standsFor_insertAll {l ws map} (h : StandsFor l (map[·]?)) :
    StandsFor (l ++ ws) ((insertAll map ws)[·]?) := by
  intro k
  have hk : map[k]? = valueAt l.reverse k := h k
  dsimp only
  rw [getElem?_insertAll, hk, reverse_append, valueAt_append]

end

/-! ## The flush -/

section

variable {base : List Entry} {s s' : StoreSys T C crc32} {m : CompositeKey → Option Bytes} {n top : Nat}

section

variable (h : s.MemoryOk base n top)

include h

theorem MemoryOk.grow (hn : n ≤ top) (htop : top ≤ (s.blocks base).length)
    {cs ws} (hblock : s'.blocks base = s.blocks base ++ cs)
    (happ : s'.applied base = s.applied base ++ ws)
    (hdata : s'.memtable.data = insertAll s.memtable.data ws)
    (hflushing : s'.memtable.flushing = s.memtable.flushing) (hunsync : s'.unsynced = s.unsynced)
    (hflush : s'.flush = s.flush) : s'.MemoryOk base n top := by
  have hnl := le_trans hn htop
  have hpark : s.ParkedOk base n top → s'.ParkedOk base n top := by
    rintro ⟨parked, b, rest, hp, hb, hs, ha, hd⟩
    refine ⟨parked, b, rest ++ ws, hflushing.trans hp, hb, ?_, ?_, ?_⟩
    · rw [hblock]
      exact hs.append htop (le_trans hb hnl)
    · rw [happ, ha, hblock, upTo_append htop, append_assoc]
    · rw [hdata]
      exact standsFor_insertAll hd
  unfold MemoryOk at h ⊢
  rw [hflush, hunsync]
  split
  · next hidle =>
    rw [hidle] at h
    obtain ⟨hnew, hfl, b, rest, hb, ha, hd⟩ := h
    refine ⟨by rw [hblock]; exact hnew.append htop, hflushing.trans hfl, b, rest ++ ws, hb, ?_, ?_⟩
    · rw [happ, ha, hblock, upTo_append (le_trans hb hnl), append_assoc]
    · rw [hdata]
      exact standsFor_insertAll hd
  · next hst =>
    rw [hst] at h
    exact ⟨hpark h.1, by rw [hblock]; exact h.2.append htop⟩
  · next hst =>
    rw [hst] at h
    obtain ⟨hp, r, older, b, hu, hb, hs, hnew⟩ := h
    refine ⟨hpark hp, r, older, b, hu, hb, ?_, ?_⟩
    · rw [hblock]
      exact hs.append htop (le_trans hb hnl)
    · rw [hblock]
      exact hnew.append htop
  · next hst =>
    rw [hst] at h
    exact ⟨hpark h.1, h.2⟩

/-- The swap of a flush that cuts no call in two. -/
theorem MemoryOk.park (htop : top ≤ s.whole) (hidle : s.flush = .idle) (hpart : s.part = []) (r) :
    MemoryOk base n s.whole
      { s with memtable := s.memtable.park, flush := .parked, rotation := r } := by
  unfold MemoryOk at h
  rw [hidle] at h
  obtain ⟨hnew, -, b, rest, hb, ha, hd⟩ := h
  rw [applied, hpart, append_nil] at ha
  refine ⟨⟨s.memtable.data, b, [], rfl, hb, ⟨rest, ha, hd⟩, ?_, fun k => ?_⟩, hnew.mono htop⟩
  · show upTo (s.blocks base) s.whole ++ s.part = _
    rw [hpart]
    rfl
  · exact Std.ExtTreeMap.getElem?_empty

theorem MemoryOk.publish (hpark : s.flush = .parked)
    {parked file} (hfl : s.memtable.flushing = some parked)
    (hfile : Sst.write crc32 parked.toList (keySorted_toList parked) = .ok file) (number : Nat) :
    MemoryOk base n top { s with
      unsynced := (s.sstCounter, file) :: s.unsynced, sstCounter := number, flush := .published } := by
  unfold MemoryOk at h
  rw [hpark] at h
  obtain ⟨⟨parked', b, rest, hp, hb, hs, ha, hd⟩, hnew⟩ := h
  obtain rfl : parked = parked' := Option.some.inj (hfl.symm.trans hp)
  refine ⟨⟨parked, b, rest, hp, hb, hs, ha, hd⟩, _, _, b, rfl, hb, ?_, hnew⟩
  obtain ⟨mid, hmid, hstands⟩ := hs
  refine ⟨mid, hmid, fun k => ?_⟩
  rw [Sst.entries_write hfile, valueAt_toList]
  exact hstands k

/-- Once the directory is synced the files are cut at the swap. -/
theorem MemoryOk.syncDir (hn : n ≤ top) (hpub : s.flush = .published)
    (hcut : CutAt m (s.blocks base) n (lookup s.durableDir)) :
    MemoryOk base top top { s with
      unsynced := [], durableDir := s.unsynced ++ s.durableDir, flush := .synced } ∧
    CutAt m (s.blocks base) top (lookup (s.unsynced ++ s.durableDir)) := by
  unfold MemoryOk at h
  rw [hpub] at h
  obtain ⟨⟨parked, b, rest, hp, hb, hs, ha, hd⟩, r, older, b', hu, hb', hr, hnew⟩ := h
  refine ⟨⟨⟨parked, b, rest, hp, le_trans hb hn, hs, ha, hd⟩, rfl, rfl⟩, ?_⟩
  obtain ⟨a, hna, hat, hcut'⟩ := hnew.cut hn (.refl _) hcut
  intro k
  rw [hu, cons_append, lookup_cons]
  exact hcut'.add hr (le_trans hb' hna) hat k

theorem MemoryOk.dropParked (hsync : s.flush = .synced) (r) : n = top ∧ MemoryOk base n top
      { s with memtable := s.memtable.dropParked, flush := .idle, rotation := r } := by
  unfold MemoryOk at h
  rw [hsync] at h
  obtain ⟨⟨parked, b, rest, -, -, -, ha, hd⟩, hnt, hu⟩ := h
  refine ⟨hnt, ?_, rfl, top, rest, le_of_eq hnt.symm, ha, hd⟩
  rw [hu]
  trivial

/-- A failed flush folds the parked map back. -/
theorem MemoryOk.flushFail (hn : n ≤ top) (hbusy : s.flush ≠ .idle) (number : Nat) (r) :
    MemoryOk base n top { s with
      memtable := s.memtable.reabsorb, sstCounter := number, flush := .idle, rotation := r } := by
  have hback : s.ParkedOk base n top → s.memtable.reabsorb.flushing = none ∧
      ∃ b rest, b ≤ n ∧ s.applied base = upTo (s.blocks base) b ++ rest ∧
        StandsFor rest (s.memtable.reabsorb.data[·]?) := by
    rintro ⟨parked, b, rest, hp, hb, ⟨mid, hmid, hstands⟩, ha, hd⟩
    have hre : s.memtable.reabsorb.flushing = none ∧ ∀ k : CompositeKey,
        s.memtable.reabsorb.data[k]? = (s.memtable.data[k]?).or parked[k]? := by
      unfold Memtable.reabsorb
      rw [hp]
      refine ⟨rfl, fun k => ?_⟩
      rw [Memtable.reabsorbLoop_map, valueAt_toList]
    refine ⟨hre.1, b, mid ++ rest, hb, by rw [ha, hmid, append_assoc], fun k => ?_⟩
    have hk : s.memtable.data[k]? = valueAt rest.reverse k := hd k
    have hk' : parked[k]? = valueAt mid.reverse k := hstands k
    dsimp only
    rw [hre.2, hk, hk', reverse_append, valueAt_append]
  unfold MemoryOk at h
  split at h
  · next hidle => exact absurd hidle hbusy
  · exact ⟨h.2, hback h.1⟩
  · obtain ⟨hp, r', older, b, hu, hb, hs, hnew⟩ := h
    refine ⟨?_, hback hp⟩
    rw [hu]
    exact ⟨b, top, hb, hn, le_rfl, hs, hnew⟩
  · refine ⟨?_, hback h.1⟩
    rw [h.2.2]
    trivial

end

end

/-! ## The WAL inside -/

section

variable {base : List Entry} {rs : List Record} {s : StoreSys T C crc32} {w : WalSys T C}
  {n top maxSize : Nat} [DecidableEq T]

theorem step_wal {s'} (h : Step maxSize s s') : s'.wal = s.wal ∨ WalSys.Step maxSize s.wal s'.wal := by
  cases h with
  | wal hst _ _ _ | rotate hst _ _ _ => exact .inr hst
  | push _ _ hpc => exact .inr (.thread (.enqueue _ hpc) rfl)
  | _ => exact .inl rfl

theorem wal_reachable (h : Reachable Opened (Step maxSize) s) : s.wal.Reached maxSize := by
  refine h.project _ (fun s hs => ?_) fun _ _ => step_wal
  obtain ⟨config, i, log, dir, wal, rs, e, hopen, hheld, hcount, rfl⟩ := hs
  exact ⟨i, log, wal, rs, (openStore_spec hopen).1, hheld, hcount, rfl⟩

/-- While a batch is being committed, a step of the WAL drains nothing. -/
theorem drainedBelow_wal (hr : s.wal.Reached maxSize) (hst : WalSys.Step maxSize s.wal w)
    (hbusy : ∃ t x c b, s.wal.proto.pc t = .committing x c b) (h : s.DrainedBelow n) (r) :
    DrainedBelow n { s with wal := w, rotation := r } := by
  obtain ⟨t, x, c, b, ht⟩ := hbusy
  have hd : w.proto.drained = s.wal.proto.drained := by
    rcases WalSys.step_proto hst with heq | hp
    · rw [heq]
    · exact Sys.drained_stays hp (Sys.leaders_ok (WalSys.proto_reachable hr)) ht
  refine ⟨h.1, fun y hy => h.2 y ?_⟩
  rw [← hd]
  exact hy

/-- What may be acknowledged has been drained. -/
theorem DrainedBelow.okSlots (h : s.DrainedBelow n) (hr : s.wal.Reached maxSize) :
    0 < n ∧ ∀ x ∈ s.wal.proto.okSlots, x.ticket < n := by
  have hp := WalSys.proto_reachable hr
  exact ⟨h.1, fun x hx => h.2 x (Sys.committed_subset (Sys.leaders_ok hp) (Sys.watermark_ok hp)
    (Sys.okSlots_subset hx))⟩

section

variable (h : s.RotationOk n top)

include h

section

variable (hr : s.wal.Reached maxSize)

include hr

section

variable (hst : WalSys.Step maxSize s.wal w)

include hst

/-- Steps of the WAL keep what is known about a rotation. -/
theorem lost_wal (hlost : w.lost = true) : 0 < n ∧ ∀ x ∈ w.proto.okSlots, x.ticket < n := by
  cases hst with
  | @thread p hst hc =>
    have hok : p.okSlots = s.wal.proto.okSlots := by rw [Sys.okSlots, hc, Sys.okSlots]
    obtain ⟨h0, hall⟩ := h.lost hlost
    exact ⟨h0, fun x hx => hall x (hok ▸ hx)⟩
  | truncate hio => exact (h.rotating _ (.inl hio)).okSlots hr
  | syncHeader => cases hlost
  | @finish t x c b err hpc hio =>
    obtain ⟨h0, hall⟩ := h.lost hlost
    refine ⟨h0, fun y hy => ?_⟩
    have hy' : y ∈ (s.wal.proto.commit t x c b err).okSlots := hy
    rw [Sys.okSlots_commit, mem_append] at hy'
    rcases hy' with hy' | hy'
    · exact hall y hy'
    · -- the truncation was followed by a failed commit, so nothing is added
      split at hy'
      · next hclean =>
        rw [Bool.and_eq_true, all_eq_true] at hclean
        have hf := (WalSys.survive_ok hr).fenced_of (.inl hlost) hio fun msg hmsg => by
          cases hmsg
          cases hclean.2
        rw [Sys.fenced_eq (WalSys.proto_reachable hr), any_eq_true] at hf
        obtain ⟨o, ho, hsome⟩ := hf
        have hnone := hclean.1 o ho
        rw [Option.isNone_iff_eq_none] at hnone
        rw [hnone] at hsome
        cases hsome
      · cases hy'
  | _ => exact h.lost hlost

theorem rotating_wal (hstart : ∀ k, s.wal.io = .idle → w.io = .flushed k → s.DrainedBelow n) (r) {k}
    (hio : w.io = .flushed k ∨ w.io = .truncated k ∨ w.io = .headed k) :
    DrainedBelow n { s with wal := w, rotation := r } := by
  cases hst with
  | @thread p hst hc =>
    have hbusy := WalSys.io_busy hr (by rcases hio with hio | hio | hio <;> exact fun hi => nomatch hio.symm.trans hi)
    exact drainedBelow_wal hr (.thread hst hc) hbusy (h.rotating k hio) r
  | flushed _ hidle _ =>
    rcases hio with hio | hio | hio
    · exact hstart k hidle hio
    · cases hio
    · cases hio
  | truncate hfl => exact h.rotating _ (.inl hfl)
  | writeHeader htr => exact h.rotating _ (.inr (.inl htr))
  | _ => rcases hio with hio | hio | hio <;> cases hio

theorem rotationOk_wal

    (hguard : s.wal.io = .idle → w.io ≠ .idle → s.rotation = .none ∧ ∀ k, w.io ≠ .flushed k) :
    RotationOk n top { s with wal := w } := by
  refine ⟨fun hp => ?_, fun hp => ?_, fun hne => ?_, fun k hio => ?_, lost_wal h hr hst⟩
  · obtain ⟨hf, hd⟩ := h.parked hp
    have hbusy := (h.leader (by rw [show s.rotation = .parked from hp]; decide)).2
    exact ⟨hf, drainedBelow_wal hr hst hbusy hd _⟩
  · have hbusy := (h.leader (by rw [show s.rotation = .flushed from hp]; decide)).2
    exact drainedBelow_wal hr hst hbusy (h.flushed hp) _
  · obtain ⟨hio, t, x, c, b, ht⟩ := h.leader hne
    have hio' : w.io = .idle := by
      by_contra hne'
      exact hne (hguard hio hne').1
    refine ⟨hio', t, x, c, b, ?_⟩
    cases hst with
    | thread hst hc => exact Sys.committing_stays hst hc ht
    | finish _ hfin =>
      rw [hio] at hfin
      cases hfin
    | _ => cases hio'
  · refine rotating_wal h hr hst (fun k' hidle hfl => ?_) _ hio
    exact absurd hfl ((hguard hidle (by rw [hfl]; nofun)).2 k')

end

end

omit [DecidableEq T] in
theorem RotationOk.mono {n'} (hle : n ≤ n') : s.RotationOk n' top := by
  have hd : s.DrainedBelow n → s.DrainedBelow n' := fun ⟨h0, hall⟩ =>
    ⟨lt_of_lt_of_le h0 hle, fun x hx => lt_of_lt_of_le (hall x hx) hle⟩
  refine ⟨h.parked, fun hp => hd (h.flushed hp), h.leader, fun k hio => hd (h.rotating k hio),
    fun hl => ?_⟩
  obtain ⟨h0, hall⟩ := h.lost hl
  exact ⟨lt_of_lt_of_le h0 hle, fun x hx => lt_of_lt_of_le (hall x hx) hle⟩

end

theorem orderOk_wal (h : s.OrderOk rs n) (hrot : s.RotationOk n top)
    (hr : s.wal.Reached maxSize) (hst : WalSys.Step maxSize s.wal w)
    (r) : OrderOk rs n { s with wal := w, rotation := r } := by
  obtain ⟨old, before, kept, new, horder, hbef, hold⟩ := h
  have hp := WalSys.proto_reachable hr
  rcases horder.step (WalSys.survive_ok hr) hp hst with ⟨kept', new', ho⟩ | ⟨k, new', hio, -, ho⟩
  · exact ⟨old, before, kept', new', ho, hbef, hold⟩
  · -- the slots that leave with the old key were drained before the rotation's flush
    have hd := hrot.rotating k (.inr (.inr hio))
    refine ⟨[], before ++ kept, [], new', ho, fun x hx => ?_, .inr hd.1⟩
    rcases mem_append.1 hx with hx | hx
    · exact hbef x hx
    · refine hd.2 x (Sys.committed_subset (Sys.leaders_ok hp) (Sys.watermark_ok hp) ?_)
      exact horder.queue.subset (mem_append_right _ hx)

omit [DecidableEq T] in
theorem OrderOk.mono {n'} (h : s.OrderOk rs n) (hle : n ≤ n') : s.OrderOk rs n' := by
  obtain ⟨old, before, kept, new, horder, hbef, hold⟩ := h
  exact ⟨old, before, kept, new, horder, fun x hx => lt_of_lt_of_le (hbef x hx) hle,
    hold.imp_right fun h0 => lt_of_lt_of_le h0 hle⟩

theorem applyingOk_wal (h : s.ApplyingOk) (hst : WalSys.Step maxSize s.wal w)
    (hn : w.proto.group.nextTicket = s.wal.proto.group.nextTicket) (r) :
    ApplyingOk { s with wal := w, rotation := r } := by
  have hiss : w.proto.issued = s.wal.proto.issued := by
    rcases WalSys.step_proto hst with heq | hp
    · rw [heq]
    · exact Sys.issued_stays hp hn
  refine ⟨?_, h.call, ?_, h.nonempty⟩
  · show s.calls.length = w.proto.issued.length + _
    rw [hiss]
    exact h.count
  · show w.proto.issued.map _ = (s.calls.take w.proto.issued.length).map _
    rw [hiss]
    exact h.records

omit [DecidableEq T] in
theorem applyingOk_begin (h : s.ApplyingOk) (hnone : s.applying = none) {t : T} {call timestamp e} (hfits : e.serialize.length + 16 < 2 ^ 32)
    (hne : call.writes ≠ []) (hentry : call.walEntry timestamp = .ok e) :
    ApplyingOk { s with
      applying := some ⟨t, call, .ofEntry e hfits, call.sections⟩, calls := s.calls ++ [call] } := by
  have hcount := h.count
  rw [hnone] at hcount
  refine ⟨?_, fun a ha => ?_, ?_, forall_mem_concat h.nonempty hne⟩
  · show (s.calls ++ [call]).length = _
    rw [length_append, hcount]
    rfl
  · cases ha
    exact ⟨getLast?_concat, WriteCall.recordWrites_record hentry hfits, suffix_rfl⟩
  · show _ = ((s.calls ++ [call]).take s.wal.proto.issued.length).map _
    rw [take_append_of_le_length (by rw [hcount]; exact le_rfl)]
    exact h.records

theorem applyingOk_push (h : s.ApplyingOk) {a} (ha : s.applying = some a) : ApplyingOk { s with
      wal := { s.wal with proto := s.wal.proto.enqueue a.thread a.record }, applying := none } := by
  have hcount := h.count
  rw [ha] at hcount
  obtain ⟨hlast, hrec, -⟩ := h.call a ha
  have hiss : (s.wal.proto.enqueue a.thread a.record).issued =
      s.wal.proto.issued ++ [s.wal.proto.group.nextSlot a.record] := by
    simp [Sys.issued, Sys.enqueue, GroupState.enqueueSlot]
  have hlen : (s.wal.proto.enqueue a.thread a.record).issued.length = s.calls.length := by
    rw [hiss, length_append, hcount]
    rfl
  refine ⟨hlen.symm, (by rintro _ ⟨⟩), ?_, h.nonempty⟩
  obtain ⟨front, hfront⟩ := getLast?_eq_some_iff.1 hlast
  have hflen : front.length = s.wal.proto.issued.length := by
    rw [hfront, length_append] at hcount
    exact add_right_cancel hcount
  have hold := h.records
  rw [hfront, ← hflen, take_left] at hold
  rw [hlen, take_length, hiss, hfront, map_append, map_append, hold]
  exact congrArg (_ ++ [·]) hrec

end

/-! ## Steps -/

section

variable {m : CompositeKey → Option Bytes} {base : List Entry} {rs : List Record}
  {s s' : StoreSys T C crc32} {n top maxSize : Nat}

/-- New blocks and new writes, and whatever the WAL has done. -/
theorem Inv.grow (h : Inv m base rs n top s) (cs ws)
    (hopen : s'.opened = s.opened) (hblock : s'.blocks base = s.blocks base ++ cs)
    (happ : s'.applied base = s.applied base ++ ws) (hwhole : s.whole ≤ s'.whole)
    (hdata : s'.memtable.data = insertAll s.memtable.data ws)
    (hflushing : s'.memtable.flushing = s.memtable.flushing) (hunsync : s'.unsynced = s.unsynced)
    (hdir : s'.durableDir = s.durableDir) (hflush : s'.flush = s.flush) (happlying : s'.ApplyingOk)
    (horder : s'.OrderOk rs n) (hrot : s'.RotationOk n top) : Inv m base rs n top s' := by
  have hlen : top ≤ (s.blocks base).length := le_trans h.bounds.2 whole_le
  refine ⟨by rw [hopen]; exact h.opened, h.baseWrites, ?_, ⟨h.bounds.1, le_trans h.bounds.2 hwhole⟩,
    h.memory.grow h.bounds.1 hlen hblock happ hdata hflushing hunsync hflush, happlying, horder,
    hrot⟩
  rw [hblock, hdir]
  exact h.cut.append (le_trans h.bounds.1 hlen)

section

variable (h : Inv m base rs n top s)

include h

theorem inv_begin (hnone : s.applying = none) {t : T} {call timestamp e} (hfits : e.serialize.length + 16 < 2 ^ 32)
    (hne : call.writes ≠ []) (hentry : call.walEntry timestamp = .ok e) :
    Inv m base rs n top { s with
      applying := some ⟨t, call, .ofEntry e hfits, call.sections⟩, calls := s.calls ++ [call] } := by
  have hsec : call.sections.isEmpty = false := by
    cases hs : call.sections with
    | nil => exact absurd (by rw [WriteCall.writes, hs]; rfl) hne
    | cons => rfl
  have hold : s.whole = s.calls.length + 1 ∧ s.part = [] := by
    unfold whole part
    rw [hnone]
    exact ⟨rfl, rfl⟩
  have hwhole : whole { s with
      applying := some ⟨t, call, .ofEntry e hfits, call.sections⟩, calls := s.calls ++ [call] } =
      s.whole := by
    rw [hold.1]
    show (if call.sections.isEmpty then _ else (s.calls ++ [call]).length) = _
    rw [hsec, if_neg (by decide), length_append]
    rfl
  have hblock : blocks base { s with
      applying := some ⟨t, call, .ofEntry e hfits, call.sections⟩, calls := s.calls ++ [call] } =
      s.blocks base ++ [call.writes] := by
    rw [blocks, blocks, map_append, cons_append]
    rfl
  refine h.grow [call.writes] [] rfl hblock ?_ (le_of_eq hwhole.symm) rfl rfl rfl rfl rfl
    (applyingOk_begin h.applying hnone hfits hne hentry) h.order
    { h.rotation with }
  rw [applied, applied, hwhole, hblock, upTo_append whole_le, hold.2, append_nil, append_nil,
    part_eq_nil fun a ha => .inr (by cases ha; rfl), append_nil]

theorem inv_lockSection {a sec rest} (ha : s.applying = some a) (htodo : a.todo = sec :: rest) :
    Inv m base rs n top { s with
      memtable := sec.apply s.memtable, applying := some { a with todo := rest } } := by
  obtain ⟨happ, hwhole⟩ := applied_lockSection base h.applying ha htodo (sec.apply s.memtable)
  obtain ⟨hdata, hflush⟩ := sec.apply_data s.memtable
  obtain ⟨hlast, hrec, hsuf⟩ := h.applying.call a ha
  have hcount := h.applying.count
  rw [ha] at hcount
  refine h.grow [] sec.writes rfl (append_nil _).symm happ hwhole hdata hflush rfl rfl rfl
    { h.applying with count := hcount, call := fun a' ha' => ?_ } h.order
    { h.rotation with }
  cases ha'
  refine ⟨hlast, hrec, .trans ?_ hsuf⟩
  rw [htodo]
  exact suffix_cons _ _

variable [DecidableEq T]

theorem inv_wal (hr : s.wal.Reached maxSize) {w} (hst : WalSys.Step maxSize s.wal w)
    (hn : w.proto.group.nextTicket = s.wal.proto.group.nextTicket) (r)
    (hrot : RotationOk n top { s with wal := w, rotation := r }) :
    Inv m base rs n top { s with wal := w, rotation := r } :=
  h.grow [] [] rfl (append_nil _).symm (append_nil _).symm le_rfl
    rfl rfl rfl rfl rfl (applyingOk_wal h.applying hst hn r) (orderOk_wal h.order h.rotation hr hst r) hrot

theorem inv_push (hr : s.wal.Reached maxSize) {a}
    (ha : s.applying = some a) (htodo : a.todo = []) (hpc : s.wal.proto.pc a.thread = .unfenced) :
    Inv m base rs n top { s with
      wal := { s.wal with proto := s.wal.proto.enqueue a.thread a.record }, applying := none } := by
  have hst : WalSys.Step maxSize s.wal
      { s.wal with proto := s.wal.proto.enqueue a.thread a.record } := .thread (.enqueue _ hpc) rfl
  have hwhole : s.whole = s.calls.length + 1 ∧ s.part = [] := by
    unfold whole part
    rw [ha]
    dsimp only
    rw [htodo]
    exact ⟨rfl, rfl⟩
  have hrot := rotationOk_wal h.rotation hr hst absurd
  refine h.grow [] [] rfl (append_nil _).symm ?_ (le_of_eq hwhole.1)
    rfl rfl rfl rfl rfl (applyingOk_push h.applying ha) (orderOk_wal h.order h.rotation hr hst s.rotation)
    { hrot with }
  rw [append_nil, applied, applied, hwhole.1, hwhole.2]
  rfl

end

/-- A flush leaves the log and the calls. -/
theorem ApplyingOk.flushing {unsynced durableDir : List (Numbered crc32)} {memtable sstCounter flush rotation}
    (h : s.ApplyingOk) :
    ApplyingOk { s with memtable, unsynced, durableDir, sstCounter, flush, rotation } :=
  { h with }

theorem inv_park (h : Inv m base rs n top s) (hidle : s.flush = .idle) (hpart : s.part = [])
    (r) (hrot : RotationOk n s.whole
      { s with memtable := s.memtable.park, flush := .parked, rotation := r }) :
    Inv m base rs n s.whole { s with memtable := s.memtable.park, flush := .parked, rotation := r } :=
  ⟨h.opened, h.baseWrites, h.cut, ⟨le_trans h.bounds.1 h.bounds.2, le_rfl⟩,
    h.memory.park h.bounds.2 hidle hpart r,
    h.applying.flushing, h.order, hrot⟩

/-- A flush that has gone well cut the files where the memtable was swapped. -/
theorem RotationOk.ended {memtable sstCounter ok} (h : s.RotationOk n top) (hok : ok = true → n = top) :
    RotationOk n top { s with memtable, sstCounter, flush := .idle, rotation := s.rotation.ended ok } := by
  refine ⟨fun hp => ?_, fun hp => ?_, fun hne => h.leader fun hn => hne ?_, h.rotating, h.lost⟩
  · cases hr : s.rotation <;> cases ok <;> simp [Rotation.ended, hr] at hp
  · cases hr : s.rotation with
    | none => simp [Rotation.ended, hr] at hp
    | parked =>
      cases ok with
      | false => simp [Rotation.ended, hr] at hp
      | true =>
        obtain rfl := hok rfl
        exact (h.parked hr).2
    | flushed => exact h.flushed hr
  · show s.rotation.ended ok = .none
    rw [hn]
    rfl

theorem inv_opened (h : Opened s) : ∃ m base rs, Inv m base rs 0 0 s := by
  obtain ⟨config, i, log, dir, wal, rs, e, hopen, hheld, -, rfl⟩ := h
  obtain ⟨-, hdir, -, -, hfl, entries, ws, hread, hws, hdata, hget⟩ := openStore_spec hopen
  have hents : entries = rs.map Record.entry := Except.ok.inj (hread.symm.trans hheld.readAll)
  refine ⟨lookup dir, ws.flatten, rs, fun k => ?_, ⟨ws, ?_, rfl⟩, ?_, ⟨le_rfl, Nat.zero_le _⟩,
    ⟨trivial, hfl, 0, ws.flatten, le_rfl, ?_, hdata⟩, ?_, ?_, ?_⟩
  · exact hget.value k
  · rw [← hws, hents, map_map]
    rfl
  · intro k
    show lookup e.dir k = _
    rw [hdir]
    rfl
  · show upTo [ws.flatten] 1 ++ [] = _
    rw [append_nil, upTo, upTo, take_zero]
    exact append_nil _
  · exact ⟨rfl, by rintro _ ⟨⟩, rfl, by rintro _ ⟨⟩⟩
  · exact ⟨rs, [], [], [], WalSys.order_ofSegment, by rintro _ ⟨⟩, .inl rfl⟩
  · refine ⟨by rintro ⟨⟩, by rintro ⟨⟩, absurd rfl, fun k hk => ?_, by rintro ⟨⟩⟩
    rcases hk with hk | hk | hk <;> cases hk

variable [DecidableEq T]

/-- Every slot drained has its block applied. -/
theorem drained_lt_whole (h : s.ApplyingOk) (hr : s.wal.Reached maxSize)
    {x} (hx : x ∈ s.wal.proto.drained.flatten) :
    1 ≤ x.ticket ∧ x.ticket ≤ s.calls.length ∧ x.ticket < s.whole := by
  have ht := (Sys.tickets_ok (WalSys.proto_reachable hr)).ticket (mem_append_left _ hx)
  have hlt := h.issued_lt
  have hcount := h.count
  omega

theorem rotationOk_rotationEmpty (h : Inv m base rs n top s)
    (hr : s.wal.Reached maxSize) (hrot : s.Rotating maxSize)
    (hidle : s.flush = .idle) (hempty : s.memtable.data.isEmpty = true) :
    RotationOk n top { s with rotation := .flushed } := by
  obtain ⟨-, hio, t, x, c, b, hpc, -⟩ := hrot
  have hmem := h.memory
  unfold MemoryOk at hmem
  rw [hidle] at hmem
  obtain ⟨-, -, d, rest, hd, ha, hstands⟩ := hmem
  have hrest : rest = [] := by
    cases hrv : rest.reverse with
    | nil => exact reverse_eq_nil_iff.1 hrv
    | cons e l =>
      have hk : s.memtable.data[e.1]? = valueAt rest.reverse e.1 := hstands e.1
      rw [hrv, valueAt_cons, if_pos rfl, Std.ExtTreeMap.isEmpty_iff.1 hempty] at hk
      cases hk
  rw [hrest, append_nil] at ha
  have hbelow : ∀ y ∈ s.wal.proto.drained.flatten, y.ticket < d := by
    intro y hy
    obtain ⟨h1, hle, hlt⟩ := drained_lt_whole h.applying hr hy
    by_contra hge
    -- the block of `y` is applied, so the writes up to `d` would be shorter than those applied
    obtain ⟨r1, hr1⟩ := upTo_split _ (not_lt.1 hge)
    obtain ⟨r2, hr2⟩ := upTo_split _ hlt
    have hlen : y.ticket < (s.blocks base).length := by
      rw [length_blocks]
      exact Nat.lt_succ_of_le hle
    have hblock : (s.blocks base)[y.ticket] ≠ [] := by
      obtain ⟨j, hj⟩ := Nat.exists_eq_add_of_le' h1
      have hjl : j < s.calls.length := by omega
      have hget : (s.blocks base)[y.ticket] = (s.calls[j]).writes := by
        simp [blocks, hj]
      rw [hget]
      exact h.applying.nonempty _ (getElem_mem hjl)
    rw [applied, hr2, upTo_succ hlen, hr1] at ha
    have hlens := congrArg length ha
    simp only [length_append] at hlens
    have := length_pos_iff.2 hblock
    omega
  have hp := WalSys.proto_reachable hr
  have hstage := (Sys.watermark_ok hp).stageAt hpc
  have hbmem : b ∈ s.wal.proto.drained := by
    rw [hstage.1]
    exact mem_append_right _ (mem_singleton_self _)
  obtain ⟨y, hy⟩ := exists_mem_of_ne_nil b ((Sys.tickets_ok hp).nonempty b hbmem)
  have hyd := hbelow y (mem_flatten.2 ⟨b, hbmem, hy⟩)
  refine ⟨nofun, fun _ => ⟨lt_of_lt_of_le (Nat.zero_lt_of_lt hyd) hd,
    fun z hz => lt_of_lt_of_le (hbelow z hz) hd⟩, fun _ => ⟨hio, t, x, c, b, hpc⟩,
    h.rotation.rotating, h.rotation.lost⟩

/-- The invariant over one step. The files may be cut later, and the memtable may have been
swapped. -/
theorem inv_step (h : Inv m base rs n top s) (hr : s.wal.Reached maxSize) (hst : Step maxSize s s')
    (hparks : ParksWhole s s') :
    ∃ n' top', n ≤ n' ∧ Inv m base rs n' top' s' ∧
      (top' = top ∨ s.flush = .idle ∧ s'.flush = .parked ∧ top' = s.whole) := by
  cases hst with
  | wal hst hn _ hguard =>
    exact ⟨n, top, le_rfl, inv_wal h hr hst hn _ (rotationOk_wal h.rotation hr hst hguard), .inl rfl⟩
  | rotate hst hidle hio hfl =>
    -- what the rotation has flushed covers all that was drained
    have hrot := h.rotation
    refine ⟨n, top, le_rfl, inv_wal h hr hst ?_ .none ⟨nofun, nofun, absurd rfl,
      fun _ => rotating_wal hrot hr hst (fun _ _ _ => hrot.flushed hfl) .none, lost_wal hrot hr hst⟩,
      .inl rfl⟩
    cases hst with
    | flushed => rfl
    | thread =>
      rw [hidle] at hio
      cases hio
    | _ => cases hio
  | begin hfits hnone _ hne hentry =>
    exact ⟨n, top, le_rfl, inv_begin h hnone _ hne hentry, .inl rfl⟩
  | lockSection ha htodo => exact ⟨n, top, le_rfl, inv_lockSection h ha htodo, .inl rfl⟩
  | push ha htodo hpc => exact ⟨n, top, le_rfl, inv_push h hr ha htodo hpc, .inl rfl⟩
  | park hidle hne =>
    have hpart := part_eq_nil (hparks hidle rfl)
    refine ⟨n, s.whole, le_rfl, inv_park h hidle hpart _ ?_, .inr ⟨hidle, rfl, rfl⟩⟩
    exact { h.rotation with parked := fun hp => absurd hidle (h.rotation.parked hp).1 }
  | rotationPark hrot hidle hne =>
    have hpart := part_eq_nil (hparks hidle rfl)
    obtain ⟨-, hio, t, x, c, b, hpc, -⟩ := hrot
    refine ⟨n, s.whole, le_rfl, inv_park h hidle hpart _ ?_, .inr ⟨hidle, rfl, rfl⟩⟩
    refine ⟨fun _ => ⟨nofun, Nat.zero_lt_of_lt h.applying.issued_lt, fun y hy => ?_⟩, nofun,
      fun _ => ⟨hio, t, x, c, b, hpc⟩, h.rotation.rotating, h.rotation.lost⟩
    exact (drained_lt_whole h.applying hr hy).2.2
  | rotationEmpty hrot hidle hempty =>
    refine ⟨n, top, le_rfl, ?_, .inl rfl⟩
    exact { h with
      applying := h.applying.flushing
      rotation := rotationOk_rotationEmpty h hr hrot hidle hempty }
  | publish hpark hfl hfile =>
    refine ⟨n, top, le_rfl, ?_, .inl rfl⟩
    exact { h with
      memory := h.memory.publish hpark hfl hfile _
      applying := h.applying.flushing
      rotation := { h.rotation with parked := fun hp => ⟨nofun, (h.rotation.parked hp).2⟩ } }
  | syncDir hpub =>
    obtain ⟨hmem, hcut⟩ := h.memory.syncDir h.bounds.1 hpub h.cut
    have hrot := h.rotation.mono h.bounds.1
    refine ⟨top, top, h.bounds.1, ?_, .inl rfl⟩
    exact ⟨h.opened, h.baseWrites, hcut, ⟨le_rfl, h.bounds.2⟩, hmem, h.applying.flushing,
      h.order.mono h.bounds.1,
      { hrot with parked := fun hp => ⟨nofun, (hrot.parked hp).2⟩ }⟩
  | dropParked hsync =>
    obtain ⟨hnt, hmem⟩ := h.memory.dropParked hsync _
    refine ⟨n, top, le_rfl, ?_, .inl rfl⟩
    exact { h with
      memory := hmem
      applying := h.applying.flushing
      rotation := h.rotation.ended fun _ => hnt }
  | flushFail hbusy =>
    refine ⟨n, top, le_rfl, ?_, .inl rfl⟩
    exact { h with
      memory := h.memory.flushFail h.bounds.1 hbusy _ _
      applying := h.applying.flushing
      rotation := h.rotation.ended nofun }

end

end Hearth.Storage.StoreSys
