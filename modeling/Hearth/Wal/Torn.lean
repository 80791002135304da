import Hearth.Wal.Commit

/-!
# Torn writes

A process writes to its segment, some of its writes fail half way, and it stops.
Nobody alters the file. Can it be opened, and are the acknowledged records in it?

Results:
1. `open_cut`: a segment cut at any byte opens with its whole records.
2. `open_after_faults`: so does the file of every run in which no commit starts
   once a failed one has left the file without whole frames for all its numbers.
3. `torn_then_committed`: without that, the looping leader writes a batch behind
   a torn one and the open refuses the file.
-/

namespace Hearth.Wal

open Base List Record Sys

/-- Ideal authenticated encryption for a file nobody altered: bytes of the record region
authenticate as record `n` only where the frame of record `n` was put. -/
def InPlace (C : Cipher) (dek : C.Dek) (starts : List Nat) (region : Bytes) : Prop :=
  ∀ pos n p, C.decryptSection dek n (payloadAt region pos) = .ok p →
    starts[n]? = some (recordOffset + pos)

/-! ## A segment cut at any byte -/

section

variable {C : Cipher} {dek : C.Dek} {rs : List Record} {w : Bytes}

/-- A prefix of consecutive frames is some whole frames and a proper part of the next. -/
theorem frames_cut {n} (h : w <+: frames C dek n (rs.map payload)) :
    ∃ k ≤ rs.length, ∃ tail, w = frames C dek n ((rs.take k).map payload) ++ tail ∧
      (tail = [] ∨ ∃ r, rs[k]? = some r ∧ tail <+: frame C dek (n + k) r.payload ∧
        tail.length < (frame C dek (n + k) r.payload).length) := by
  induction rs generalizing n w with
  | nil => exact ⟨0, le_rfl, w, rfl, .inl (prefix_nil.1 h)⟩
  | cons r rs ih =>
    by_cases hlt : w.length < (frame C dek n r.payload).length
    · exact ⟨0, Nat.zero_le _, w, rfl, .inr ⟨r, rfl,
        prefix_of_prefix_length_le h (prefix_append _ _) (le_of_lt hlt), hlt⟩⟩
    · obtain ⟨w', rfl⟩ : frame C dek n r.payload <+: w :=
        prefix_of_prefix_length_le (prefix_append _ _) h (by omega)
      obtain ⟨k, hk, tail, hw, htail⟩ := ih ((prefix_append_right_inj _).1 h)
      refine ⟨k + 1, Nat.succ_le_succ hk, tail, ?_, ?_⟩
      · rw [hw, take_succ_cons, map_cons, frames, append_assoc]
      · rw [← add_assoc, add_right_comm]
        exact htail

/-- No frame is read where a proper part of one ends the region. -/
theorem not_crcValidAt_tail {pre tail : Bytes} {n : Nat} {r : Record}
    (h : tail <+: frame C dek n r.payload) (hlt : tail.length < (frame C dek n r.payload).length) :
    ¬ CrcValidAt C (pre ++ tail) pre.length := by
  rintro ⟨hfit, -⟩
  rw [length_append] at hfit
  have h4 : 4 ≤ tail.length := by omega
  -- the length field is there in full, and asks for more than the tail has
  have hlen : slice (pre ++ tail) pre.length 4 =
      leBytes 4 (C.encryptSection dek n r.payload).length := by
    obtain ⟨post, hpost⟩ := h
    have hsl : slice (pre ++ (tail ++ post)) pre.length 4 =
        leBytes 4 (C.encryptSection dek n r.payload).length := by
      rw [hpost, frame, rawFrame, Nat.mod_eq_of_lt (length_sealed r n)]
      exact slice_append_left rfl (length_leBytes 4 _).symm
    rw [← hsl, slice, slice, drop_left, drop_left, take_append_of_le_length h4]
  rw [hlen, leNat_leBytes (length_sealed r n), C.length_encrypt] at hfit
  rw [length_frame] at hlt
  omega

theorem frameStarts_getElem? (dek : C.Dek) (m : Nat) {off n pos}
    (h : (frameStarts off (rs.map payload))[n]? = some pos) :
    n < rs.length ∧ pos = off + (frames C dek m ((rs.take n).map payload)).length := by
  induction rs generalizing off n m with
  | nil => cases h
  | cons r rs ih =>
    cases n with
    | zero =>
      cases h
      exact ⟨Nat.succ_pos _, rfl⟩
    | succ n =>
      obtain ⟨hn, hpos⟩ := ih (m + 1) h
      refine ⟨Nat.succ_lt_succ hn, ?_⟩
      rw [take_succ_cons, map_cons, frames, length_append, length_frame]
      omega

theorem scan_cut (hw : w <+: frames C dek 0 (rs.map payload))
    (hin : InPlace C dek (frameStarts recordOffset (rs.map payload)) w) :
    ∃ k ≤ rs.length, (∀ j ≤ rs.length, frames C dek 0 ((rs.take j).map payload) <+: w → j ≤ k) ∧
      scanRecords C w dek = .ok ⟨(rs.take k).map entry, k,
        (frames C dek 0 ((rs.take k).map payload)).length⟩ := by
  obtain ⟨k, hk, tail, hsplit, htail⟩ := frames_cut hw
  obtain ⟨fuel, hscan⟩ := scanRecords_frames _ hsplit
  rw [length_take, min_eq_left hk] at hscan
  -- frame `k` does not end within the region
  have hshort : ∀ m, k < m → m ≤ rs.length →
      w.length < (frames C dek 0 ((rs.take m).map payload)).length := by
    intro m hkm hm
    obtain ⟨d, rfl⟩ := Nat.exists_eq_add_of_le hkm
    have hget : rs[k]? = some rs[k] := getElem?_eq_getElem (by omega)
    rw [take_add, take_add_one, hget, hsplit]
    simp only [map_append, frames_append, length_append, Option.toList_some, map_cons, frames]
    rcases htail with rfl | ⟨r, hr, -, hlt⟩
    · rw [length_frame, length_nil]
      omega
    · rw [hget] at hr
      cases hr
      rw [length_frame] at hlt ⊢
      omega
  have hnv : ¬ CrcValidAt C w (frames C dek 0 ((rs.take k).map payload)).length := by
    rw [hsplit]
    rcases htail with rfl | ⟨r, -, hpre, hlt⟩
    · rintro ⟨hfit, -⟩
      rw [append_nil] at hfit
      omega
    · exact not_crcValidAt_tail hpre hlt
  refine ⟨k, hk, fun j hj hpre => ?_, hscan.trans ?_⟩
  · by_contra hlt
    have := hshort j (by omega) hj
    have := hpre.length_le
    omega
  · rw [scanLoop_stop hnv]
    split
    · cases href : refuseIfSurvivors C w dek _ k with
      | ok u => rfl
      | error e =>
        obtain ⟨o, -, -, hv, hauth⟩ := (refuse_iff _ k).1 ⟨e, href⟩
        obtain ⟨m, hm, hd⟩ := any_eq_true.1 hauth
        rw [mem_range'_1] at hm
        cases hdec : C.decryptSection dek m (payloadAt w o) with
        | error e =>
          rw [hdec] at hd
          cases hd
        | ok p =>
          obtain ⟨hmlt, ho⟩ := frameStarts_getElem? dek 0 (hin o m p hdec)
          have := hshort m (by omega) (by omega)
          have := hv.1
          omega
    · rfl

theorem open_cut {version : Nat} {encHeader : Bytes}
    (hver : version ≤ walVersionCurrent) (h76 : encHeader.length = 76)
    (hdek : C.unwrapDek encHeader = .ok dek)
    (hw : w <+: frames C dek 0 (rs.map payload))
    (hin : InPlace C dek (frameStarts recordOffset (rs.map payload)) w) (i : Nat) :
    ∃ wal k, openWithFs C i (versionedHeader version encHeader ++ w) = .ok wal ∧
      wal.readAll = .ok ((rs.take k).map entry) ∧
      ∀ j ≤ rs.length, frames C dek 0 ((rs.take j).map payload) <+: w → j ≤ k := by
  obtain ⟨k, -, hmax, hscan⟩ := scan_cut hw hin
  unfold openWithFs
  rw [recover_versioned h76 hver hdek, hscan]
  simp only [Except.map]
  split
  · next hclean =>
    refine ⟨_, k, rfl, ?_, hmax⟩
    have hheld : Holds C (versionedHeader version encHeader ++ w) dek (rs.take k) := by
      refine ⟨version, encHeader, hver, h76, hdek, ?_⟩
      have hpre : frames C dek 0 ((rs.take k).map payload) <+: w :=
        prefix_of_prefix_length_le ?_ hw (by omega)
      · rw [hpre.eq_of_length hclean]
      · obtain ⟨d, hd⟩ := take_prefix k rs
        conv => rhs; rw [← hd, map_append, frames_append]
        exact prefix_append _ _
    exact Holds.readAll hheld
  · refine ⟨_, k, rfl, ?_, hmax⟩
    have hheld := holds_rebuilt (C := C) i (rs.take k) k
      (frames C dek 0 ((rs.take k).map payload)).length
    rw [Recovery.segment, Holds.readAll hheld, map_map]
    rfl

theorem Holds.length_eq {file} (h : Holds C file dek rs) :
    file.length = recordOffset + (frames C dek 0 (rs.map payload)).length := by
  obtain ⟨version, encHeader, -, h76, -, hfile⟩ := h.header
  rw [hfile, length_append, length_versionedHeader, h76]
  rfl

theorem Holds.isPrefix_magic {file} (h : Holds C file dek rs) : walMagic <+: file := by
  obtain ⟨version, encHeader, -, -, -, rfl⟩ := h.header
  exact isPrefixOf_iff_prefix.1 isPrefixOf_versionedHeader

theorem open_header_part {i full file} (hheld : Holds C full dek []) (h : file <+: full) :
    ∃ wal, openWithFs C i file = .ok wal ∧ wal.readAll = .ok [] := by
  have hlen : full.length = recordOffset := hheld.length_eq
  by_cases hlt : file.length < recordOffset
  · have hrep : repairPartialHeader file = [] := by
      unfold repairPartialHeader
      split
      · next hor =>
        rcases hor with h0 | hge
        · exact length_eq_zero_iff.1 h0
        · omega
      · split
        · rfl
        · next hno =>
          refine absurd ?_ hno
          rw [Bool.or_eq_true, decide_eq_true_eq, isPrefixOf_iff_prefix]
          by_cases h76 : file.length < 76
          · exact .inr h76
          · exact .inl (prefix_of_prefix_length_le hheld.isPrefix_magic h
              (le_trans (by decide) (not_lt.1 h76)))
    unfold openWithFs recover
    rw [if_pos hrep]
    refine ⟨_, rfl, ?_⟩
    rw [Holds.readAll (holds_fresh i _)]
    rfl
  · have heq : file = full := h.eq_of_length (by
      have := h.length_le
      omega)
    rw [← heq] at hheld
    obtain ⟨enc, hrec⟩ := hheld.recover_eq
    unfold openWithFs
    rw [hrec]
    refine ⟨_, rfl, ?_⟩
    rw [Holds.readAll hheld]
    rfl

end

theorem frameStarts_append {C} (dek : C.Dek) (n : Nat) {off ps qs} : frameStarts off (ps ++ qs) =
      frameStarts off ps ++ frameStarts (off + (frames C dek n ps).length) qs := by
  induction ps generalizing off n with
  | nil => rfl
  | cons p ps ih =>
    simp only [cons_append, frameStarts, frames, length_append, length_frame]
    rw [ih _, add_assoc]

/-! ## Runs with faults -/

namespace WalSys

variable {T : Type} [DecidableEq T] {C : Cipher} (s : WalSys T C)

/-- The file holds exactly the records sealed under the current key. -/
def Whole : Prop := Holds C s.file.content s.dek s.placed ∧ s.recordCounter = s.placed.length

/-- After a failed commit another one starts only while the file is whole. -/
def StartsWhole (s s' : WalSys T C) : Prop :=
  s.io = .idle → s'.io ≠ .idle → s.proto.fenced = true → s.Whole

/-- The file is the header of the current key and a part of the frames sealed under it, in
which every successful record is whole. -/
def Kept : Prop :=
  ∃ version encHeader rs w, version ≤ walVersionCurrent ∧ encHeader.length = 76 ∧
    C.unwrapDek encHeader = .ok s.dek ∧ s.file.content = versionedHeader version encHeader ++ w ∧
    w <+: frames C s.dek 0 (s.placed.map payload) ∧ rs <+: s.placed ∧
    frames C s.dek 0 (rs.map payload) <+: w ∧ (records s.live).Sublist rs

/-- A rotation has emptied the file and not got beyond its new header. -/
def Renewed : Prop := s.live = [] ∧ ∃ k, s.file.content <+: newHeader C k

def Readable : Prop := s.Kept ∨ s.Renewed

/-- The batch `b` is being committed. -/
def Committing (b : List (GroupSlot Record)) : Prop := ∃ t x c, s.proto.pc t = .committing x c b

/-- What is known at each point of a commit. -/
def FaultStage : Io → Prop
  | .idle => s.proto.fenced = false → s.Whole
  | .flushed _ => s.Whole
  | .truncated _ => s.file.content = [] ∧ s.live = []
  | .headed k => s.file.content = newHeader C k ∧ s.live = []
  | .sealedBuf buf => ∃ rs b, s.placed = rs ++ records b ∧ Holds C s.file.content s.dek rs ∧
      buf = frames C s.dek rs.length ((records b).map payload) ∧
      s.recordCounter = s.placed.length ∧ (records s.live).Sublist rs ∧ s.Committing b
  | .written | .finished none => s.Whole ∧ ∃ rs b, s.placed = rs ++ records b ∧
      (records s.live).Sublist rs ∧ s.Committing b
  | .finished (some _) => True

structure FaultOk (s : WalSys T C) : Prop where
  starts : s.starts = frameStarts recordOffset (s.placed.map payload)
  readable : s.Readable
  stage : s.FaultStage s.io

variable {s : WalSys T C}

section

omit [DecidableEq T]

theorem Readable.live (h : s.Readable) : (records s.live).Sublist s.placed := by
  rcases h with ⟨-, -, rs, -, -, -, -, -, -, hrs, -, hlive⟩ | ⟨hlive, -⟩
  · exact hlive.trans hrs.sublist
  · rw [hlive]
    exact nil_sublist _

theorem readable_of_whole (s : WalSys T C) {rs} (h : Holds C s.file.content s.dek rs)
    (hrs : rs <+: s.placed) (hlive : (records s.live).Sublist rs) : s.Readable := by
  obtain ⟨version, encHeader, hver, h76, hdek, hfile⟩ := h.header
  refine .inl ⟨version, encHeader, rs, _, hver, h76, hdek, hfile, ?_, hrs, prefix_rfl, hlive⟩
  obtain ⟨rest, hrest⟩ := hrs
  rw [← hrest, map_append, frames_append]
  exact prefix_append _ _

theorem faultOk_sealBatch {b} (h : s.Whole)
    (hstarts : s.starts = frameStarts recordOffset (s.placed.map payload))
    (hlive : (records s.live).Sublist s.placed) (hb : s.Committing b) : FaultOk (s.sealBatch b) := by
  obtain ⟨hheld, hcount⟩ := h
  refine ⟨?_, readable_of_whole _ hheld (prefix_append _ _) hlive,
    s.placed, b, rfl, hheld, by rw [hcount]; rfl, ?_, hlive, hb⟩
  · show s.starts ++ _ = frameStarts recordOffset ((s.placed ++ records b).map payload)
    rw [map_append, frameStarts_append _ 0, hstarts, hheld.length_eq]
  · show s.recordCounter + b.length = (s.placed ++ records b).length
    rw [hcount, length_append, records, length_map]

/-- A batch whose frames were written in full. -/
theorem faultOk_write {buf} (h : FaultOk s) (hio : s.io = .sealedBuf buf) :
    FaultOk { s with file := s.file.append buf, io := .written } := by
  have hstage := h.stage
  rw [hio] at hstage
  obtain ⟨rs, b, hplace, hheld, hbuf, hcount, hlive, hb⟩ := hstage
  have hheld' : Holds C (s.file.content ++ buf) s.dek s.placed := by
    rw [hbuf, hplace]
    exact hheld.append _
  exact ⟨h.starts, readable_of_whole { s with file := s.file.append buf, io := .written } hheld'
    prefix_rfl h.readable.live, ⟨hheld', hcount⟩, rs, b, hplace, hlive, hb⟩

/-- A batch of which only a part was written. -/
theorem faultOk_writeFailed {buf} (h : FaultOk s)
    (hio : s.io = .sealedBuf buf) (n : Nat) (msg : String) :
    FaultOk { s with
      file := s.file.append (buf.take n), io := .finished (some msg), torn := true } := by
  have hstage := h.stage
  rw [hio] at hstage
  obtain ⟨rs, b, hplace, hheld, hbuf, -, hlive, -⟩ := hstage
  obtain ⟨version, encHeader, hver, h76, hdek, hfile⟩ := hheld.header
  refine ⟨h.starts, .inl ⟨version, encHeader, rs, frames C s.dek 0 (rs.map payload) ++ buf.take n,
    hver, h76, hdek, ?_, ?_, ?_, prefix_append _ _, hlive⟩, trivial⟩
  · show s.file.content ++ buf.take n = _
    rw [hfile, append_assoc]
  · show _ <+: frames C s.dek 0 (s.placed.map payload)
    rw [hplace, map_append, frames_append, length_map, zero_add, ← hbuf]
    exact (prefix_append_right_inj _).2 ( take_prefix _ _)
  · show rs <+: s.placed
    rw [hplace]
    exact prefix_append _ _

end

/-- A critical section of the protocol leaves the file alone. -/
theorem faultOk_thread {p} (h : FaultOk s)
    (hst : Sys.Step s.proto p) (hc : p.committed = s.proto.committed) :
    FaultOk { s with proto := p } := by
  have hb : ∀ b, s.Committing b → Committing { s with proto := p } b :=
    fun b ⟨t, x, c, ht⟩ => ⟨t, x, c, committing_stays hst hc ht⟩
  refine { h with stage := ?_ }
  have hstage := h.stage
  generalize s.io = io at hstage
  cases io with
  | idle => exact fun hf => hstage ((fenced_stays hst hc).symm.trans hf)
  | sealedBuf buf =>
    obtain ⟨rs, b, h1, h2, h3, h4, h5, h6⟩ := hstage
    exact ⟨rs, b, h1, h2, h3, h4, h5, hb b h6⟩
  | written =>
    obtain ⟨hw, rs, b, h1, h2, h3⟩ := hstage
    exact ⟨hw, rs, b, h1, h2, hb b h3⟩
  | finished err =>
    cases err with
    | none =>
      obtain ⟨hw, rs, b, h1, h2, h3⟩ := hstage
      exact ⟨hw, rs, b, h1, h2, hb b h3⟩
    | some e => trivial
  | _ => exact hstage

/-- The end of a commit. -/
theorem faultOk_finish (h : FaultOk s) (hl : LeadersOk s.proto) {t : T} {x c b err}
    (hpc : s.proto.pc t = .committing x c b) (hio : s.io = .finished err) :
    FaultOk (s.finish t x c b err) := by
  have hstage := h.stage
  rw [hio] at hstage
  cases err with
  | some e => exact { h with stage := fun hf => by simp [finish, commit] at hf }
  | none =>
    obtain ⟨hw, rs, b', hplace, hlive, t', x', c', hpc'⟩ := hstage
    obtain rfl := hl.committing_unique hpc hpc'
    refine ⟨h.starts, ?_, fun _ => hw⟩
    refine readable_of_whole _ hw.1 prefix_rfl ?_
    show (records (s.live ++ b)).Sublist s.placed
    rw [hplace, records, map_append]
    exact hlive.append (.refl _)

theorem faultOk_step {maxSize s'} (h : FaultOk s)
    (hl : LeadersOk s.proto) (hst : Step maxSize s s') (hw : StartsWhole s s') : FaultOk s' := by
  have hstage : ∀ {io}, s.io = io → s.FaultStage io := fun hio => hio ▸ h.stage
  -- a commit that starts finds a whole file
  have hwhole : s.io = .idle → s'.io ≠ .idle → s.Whole := by
    intro hio hne
    cases hf : s.proto.fenced with
    | false => exact hstage hio hf
    | true => exact hw hio hne hf
  cases hst with
  | thread hst hc => exact faultOk_thread h hst hc
  | prepareFailed _ _ _ | truncateFailed _ _ | syncHeaderFailed _ _ | syncFailed _ _ =>
    exact { h with stage := trivial }
  | flushed _ hio _ => exact { h with stage := hwhole hio nofun }
  | reserve hpc hio _ =>
    exact faultOk_sealBatch (hwhole hio nofun) h.starts h.readable.live ⟨_, _, _, hpc⟩
  | truncate _ => exact ⟨h.starts, .inr ⟨rfl, 0, nil_prefix⟩, rfl, rfl⟩
  | @writeHeader k hio =>
    have hfile : (s.file.append (newHeader C k)).content = newHeader C k := by
      rw [DurableFile.content_append, (hstage hio).1, nil_append]
    have hpre : (s.file.append (newHeader C k)).content <+: newHeader C k := ⟨[], (append_nil _).trans hfile⟩
    exact ⟨h.starts, .inr ⟨(hstage hio).2, k, hpre⟩, hfile, (hstage hio).2⟩
  | @writeHeaderFailed k n _ hio _ =>
    have hfile : (s.file.append ((newHeader C k).take n)).content = (newHeader C k).take n := by
      rw [DurableFile.content_append, (hstage hio).1, nil_append]
    exact ⟨h.starts, .inr ⟨(hstage hio).2, k, by rw [hfile]; exact take_prefix _ _⟩, trivial⟩
  | @syncHeader k t x c b hio hpc =>
    have hheld : Holds C s.file.content (C.generateDek k) [] := by
      rw [(hstage hio).1]
      exact holds_fresh k _
    refine faultOk_sealBatch ⟨hheld, rfl⟩ rfl ?_ ⟨t, x, c, hpc⟩
    show (records s.live).Sublist []
    rw [(hstage hio).2]
    exact nil_sublist _
  | write hio => exact faultOk_write h hio
  | writeFailed n msg hio _ => exact faultOk_writeFailed h hio n msg
  | sync hio =>
    exact { h with stage := hstage hio }
  | finish hpc hio => exact faultOk_finish h hl hpc hio

theorem fault_ok {maxSize}
    (h : Reachable Opened (Guarded (Step maxSize) StartsWhole) s) : FaultOk s := by
  refine h.invariant (fun s hs => ?_) fun s s' hr ih hst =>
    faultOk_step ih (leaders_ok (proto_reachable hr.of_guarded)) hst.1 hst.2
  obtain ⟨i, file, wal, rs, -, hheld, hcount, rfl⟩ := hs
  exact ⟨rfl, readable_of_whole _ hheld prefix_rfl (nil_sublist _), fun _ => ⟨hheld, hcount⟩⟩

/-- Without a size limit nothing leaves the segment. -/
theorem out_nil (h : Reachable Opened (Step 0) s) : s.out = [] := by
  suffices hinv : s.out = [] ∧ ∀ k, s.io ≠ .flushed k from hinv.1
  refine h.invariant (I := fun s => s.out = [] ∧ ∀ k, s.io ≠ .flushed k) (fun s hs => ?_)
    fun s s' _ ih hst => ?_
  · obtain ⟨i, file, wal, rs, -, -, -, rfl⟩ := hs
    exact ⟨rfl, nofun⟩
  · cases hst with
    | flushed _ _ hrot => cases hrot
    | truncate hio => exact absurd hio (ih.2 _)
    | thread _ _ => exact ih
    | _ => exact ⟨ih.1, nofun⟩

/-- In every run in which no commit starts once a failed one has left the file without whole
frames for all its numbers, the file opens, whenever the process stops. Its entries hold, in
order, those of the successful slots that no rotation moved out, and every writer that
returned `Ok` has its slot there or moved out. -/
theorem open_after_faults {maxSize : Nat} {s : WalSys T C}
    (h : Reachable Opened (Guarded (Step maxSize) StartsWhole) s)
    (hin : InPlace C s.dek s.starts (s.file.content.drop recordOffset)) (i : Nat) :
    ∃ wal es, openWithFs C i s.file.content = .ok wal ∧ wal.readAll = .ok es ∧
      ((records s.live).map entry).Sublist es ∧
      (s.out ++ s.live).Sublist s.proto.issued ∧
      (∀ t o, s.proto.pc t = .returned o (.ok ()) → ∃ x, o = some x ∧ (x ∈ s.out ∨ x ∈ s.live)) ∧
      (maxSize = 0 → s.out = []) := by
  have hr := h.of_guarded
  have hp := proto_reachable hr
  have hok := fault_ok h
  have hslots : (s.out ++ s.live).Sublist s.proto.issued := by
    rw [synced_accounted hr]
    exact syncedSlots_sublist (leaders_ok hp) (watermark_ok hp)
  have hacked : ∀ t o, s.proto.pc t = .returned o (.ok ()) →
      ∃ x, o = some x ∧ (x ∈ s.out ∨ x ∈ s.live) := by
    intro t o hpc
    obtain ⟨x, rfl, hb⟩ := acked_synced (leaders_ok hp) (tickets_ok hp) (watermark_ok hp) hpc
    refine ⟨x, rfl, ?_⟩
    rw [← mem_append, synced_accounted hr]
    exact mem_syncedSlots.2 hb
  have hout : maxSize = 0 → s.out = [] := by
    rintro rfl
    exact out_nil hr
  rw [hok.starts] at hin
  rcases hok.readable with ⟨version, encHeader, rs, w, hver, h76, hdek, hfile, hw, hrs, hpre, hlive⟩ |
    ⟨hlive, k, hhead⟩
  · rw [hfile, drop_versionedHeader h76] at hin
    obtain ⟨wal, k, hopen, hread, hmax⟩ := open_cut hver h76 hdek hw hin i
    refine ⟨wal, _, hfile ▸ hopen, hread, ?_, hslots, hacked, hout⟩
    have hle : rs.length ≤ k := hmax _ hrs.length_le
      (by rwa [← prefix_iff_eq_take.1 hrs])
    refine (hlive.trans ?_).map _
    rw [prefix_iff_eq_take.1 hrs]
    exact (take_prefix_take_left hle).sublist
  · obtain ⟨wal, hopen, hread⟩ := open_header_part (holds_fresh k _) hhead
    refine ⟨wal, _, hopen, hread, ?_, hslots, hacked, hout⟩
    rw [hlive]
    exact nil_sublist _

/-- What `tagCipher` accepts is a payload and the tag of its key and number. -/
theorem tagCipher_window {dek n pos region p}
    (h : tagCipher.decryptSection dek n (payloadAt region pos) = .ok p) :
    pos < region.length ∧ payloadAt region pos = p ++ recordTag dek n := by
  have hwin : payloadAt region pos = p ++ recordTag dek n := tagCipher.encrypt_decrypt dek n _ p h
  refine ⟨?_, hwin⟩
  by_contra hge
  have hnil : payloadAt region pos = [] := by
    rw [payloadAt, slice, drop_eq_nil_of_le (by omega), take_nil]
  rw [hnil] at hwin
  simp [recordTag] at hwin

theorem leNat_recordTag (dek : UInt8) (n : Nat) : leNat ((recordTag dek n).drop 2) = min n (2 ^ 64) :=
  leNat_leBytes (lt_of_le_of_lt (min_le_right _ _) (by decide))

theorem length_recordTag (dek : UInt8) (n : Nat) : (recordTag dek n).length = 16 := by simp [recordTag]

/-- The windows of a region that `tagCipher` accepts are those whose tag names a record and
its place. -/
theorem tagCipher_inPlace {dek starts region} (hs : starts.length ≤ 2 ^ 64)
    (h : ∀ pos < region.length, 16 ≤ (payloadAt region pos).length →
      ((payloadAt region pos).drop ((payloadAt region pos).length - 16)).take 2 = [0xa5, dek] →
      starts[leNat (((payloadAt region pos).drop ((payloadAt region pos).length - 16)).drop 2)]? =
        some (recordOffset + pos)) : InPlace tagCipher dek starts region := by
  intro pos n p hd
  obtain ⟨hpos, hwin⟩ := tagCipher_window hd
  have hstart := h pos hpos
  rw [hwin, length_append, length_recordTag, Nat.add_sub_cancel, drop_left, leNat_recordTag] at hstart
  have hat := hstart (Nat.le_add_left _ _) rfl
  have hlt : min n (2 ^ 64) < starts.length := (List.getElem?_eq_some_iff.1 hat).1
  rwa [show min n (2 ^ 64) = n by omega] at hat

theorem open_after_faults_torn : ∃ s : WalSys Unit tagCipher,
    s.file.content = newHeader tagCipher 0 ++
      (frame tagCipher (0 : UInt8) 0 (emptyRecord .put).payload).take 10 ∧
    ∃ wal, openWithFs tagCipher 1 s.file.content = .ok wal := by
  have g : ∀ {s s' : WalSys Unit tagCipher}, s.proto.fenced = false → StartsWhole s s' :=
    fun hf _ _ ht => absurd (hf.symm.trans ht) (by decide)
  let r := emptyRecord .put
  have h0 : Reachable Opened (Guarded (Step 0) StartsWhole) _ :=
    .start (opened_fresh (T := Unit) (C := tagCipher))
  have h1 := h0.next ⟨.thread (.passFence (t := ()) rfl rfl) rfl, g rfl⟩
  have h2 := h1.next ⟨.thread (.enqueue (t := ()) r rfl) rfl, g rfl⟩
  have h3 := h2.next ⟨.thread (.drain (t := ()) rfl) rfl, g rfl⟩
  have h4 := h3.next ⟨.reserve (t := ()) rfl rfl rfl, g rfl⟩
  have h5 := h4.next ⟨.writeFailed 10 "disk full" rfl (by decide +kernel), g rfl⟩
  obtain ⟨wal, es, hopen, -⟩ := open_after_faults h5
    (tagCipher_inPlace (by decide +kernel) (by decide +kernel)) 1
  exact ⟨_, by rfl, wal, hopen⟩

/-- Two writers: the first batch is torn while the second writer's slot waits, and the looping
leader commits that slot behind the torn bytes. The file no longer opens. -/
theorem torn_then_committed : ∃ s : WalSys Bool tagCipher, Reachable Opened (Step 0) s ∧
    InPlace tagCipher s.dek s.starts (s.file.content.drop recordOffset) ∧
    (openWithFs tagCipher 1 s.file.content).isOk = false := by
  let r := emptyRecord .put
  have h0 : Reachable Opened (Step 0) _ := .start (opened_fresh (T := Bool) (C := tagCipher))
  have h1 := h0.next (.thread (.passFence (t := false) rfl rfl) rfl)
  have h2 := h1.next (.thread (.passFence (t := true) rfl rfl) rfl)
  have h3 := h2.next (.thread (.enqueue (t := false) r rfl) rfl)
  have h4 := h3.next (.thread (.drain (t := false) rfl) rfl)
  have h5 := h4.next (.thread (.enqueue (t := true) r rfl) rfl)
  have h6 := h5.next (.reserve (t := false) rfl rfl rfl)
  have h7 := h6.next (.writeFailed 10 "disk full" rfl (by decide +kernel))
  have h8 := h7.next (.finish (t := false) rfl rfl)
  have h9 := h8.next (.thread (.publish (t := false) rfl) rfl)
  have h10 := h9.next (.thread (.drain (t := false) rfl) rfl)
  have h11 := h10.next (.reserve (t := false) rfl rfl rfl)
  have h12 := h11.next (.write rfl)
  exact ⟨_, h12, tagCipher_inPlace (by decide +kernel) (by decide +kernel), by decide +kernel⟩

end WalSys

end Hearth.Wal
