import Hearth.Wal.Torn

/-!
# What a crash leaves of a segment

A WAL in a running process and the images of its file that a crash can leave.
The run is any run of `Commit`, with faults, rotations, and commits behind a
broken rotation.

Results:
1. `acked_ok`: a writer that returned `Ok` has its slot in a batch that was
   synced before any commit failed.
2. `image_replays`: an image that opens is replayed as the records of the current
   key up to some number that covers the synced ones, or as nothing after a
   truncation.
3. `survive_ok`, `Order.step`: unless a rotation has truncated the segment,
   every image starts with its header and its synced records, and the records
   under the current key stand in the order of the queue.
-/

namespace Hearth.Wal

open Record (entry payload)

open Base List

namespace Sys

variable {T P : Type}

/-- The slots of the batches that were synced before any commit failed. -/
def okSlots (s : Sys T P) : List (GroupSlot P) :=
  ((s.committed.takeWhile fun o => o.2.isNone).map Prod.fst).flatten

variable {s : Sys T P} {x : GroupSlot P}

theorem okSlots_subset (h : x ∈ s.okSlots) : x ∈ (s.committed.map Prod.fst).flatten := by
  obtain ⟨b, hb, hx⟩ := mem_flatten.1 h
  obtain ⟨o, ho, rfl⟩ := mem_map.1 hb
  exact mem_flatten.2 ⟨o.1, mem_map_of_mem ((takeWhile_sublist _).subset ho), hx⟩

/-- A writer that returned `Ok` has its slot in a batch that was synced before any failure. -/
theorem acked_ok (hl : LeadersOk s) (ht : TicketsOk s) (h : WatermarkOk s) {t : T}
    {o} (hpc : s.pc t = .returned o (.ok ())) : ∃ x, o = some x ∧ x ∈ s.okSlots := by
  obtain ⟨x, rfl, b, hb, hx⟩ := acked_synced hl ht h hpc
  refine ⟨x, rfl, ?_⟩
  obtain ⟨pre, post, hsplit⟩ := append_of_mem hb
  obtain ⟨⟨new, hd⟩, -⟩ := h.pipeline hl
  rw [hsplit, map_append, map_cons, append_assoc, cons_append] at hd
  -- a batch that failed before `b` would hold tickets below those of `b`
  have hpre : ∀ o ∈ pre, o.2.isNone = true := by
    intro o ho
    cases he : o.2 with
    | none => rfl
    | some e =>
      have hfail : s.Failed o.1 := ⟨e, by
        rw [hsplit, ← he]
        exact mem_append_left _ ho⟩
      have hin : o.1 ∈ pre.map Prod.fst := mem_map_of_mem ho
      obtain ⟨y, hy⟩ := exists_mem_of_ne_nil o.1 (ht.nonempty o.1 (by
        rw [hd]
        exact mem_append_left _ hin))
      have hlt := acked_below_failed hl ht h hpc hfail hy
      obtain ⟨pre1, pre2, hpre⟩ := append_of_mem hin
      have hxt : x.ticket ∈ b.map (·.ticket) := mem_map_of_mem hx
      have hyt : y.ticket ∈ o.1.map (·.ticket) := mem_map_of_mem hy
      rw [ht.batch hd, mem_range'_1, hpre, flatten_append, flatten_cons,
        length_append, length_append] at hxt
      rw [hpre, append_assoc] at hd
      rw [ht.batch hd, mem_range'_1] at hyt
      omega
  refine mem_flatten.2 ⟨b, mem_map.2 ⟨(b, none), ?_, rfl⟩, hx⟩
  rw [hsplit, takeWhile_append_of_pos hpre]
  exact mem_append_right _ (by simp)

variable [DecidableEq T]

/-- The fence is up exactly when some commit has failed. -/
theorem fenced_eq (h : Reachable (· = init) Step s) :
    s.fenced = s.committed.any fun o => o.2.isSome := by
  refine h.invariant (I := fun s => s.fenced = s.committed.any fun o => o.2.isSome)
    (fun s hs => hs ▸ rfl) fun s s' _ ih hst => ?_
  rcases committed_step hst with ⟨hc, hfence⟩ | ⟨t, x, c, b, err, rfl⟩
  · rw [hfence, hc]
    exact ih
  · show (s.fenced || err.isSome) = (s.committed ++ [(b, err)]).any fun o => o.2.isSome
    rw [ih]
    simp

theorem okSlots_commit (s : Sys T P) (t : T) (x : GroupSlot P) (c : Nat) (b : List (GroupSlot P))
    (err : Option String) : (s.commit t x c b err).okSlots =
      s.okSlots ++ if (s.committed.all fun o => o.2.isNone) && err.isNone then b else [] := by
  show ((takeWhile _ (s.committed ++ [(b, err)])).map Prod.fst).flatten = _
  rw [takeWhile_append, okSlots]
  by_cases hall : ∀ o ∈ s.committed, o.2.isNone = true
  · have htake : s.committed.takeWhile (fun o => o.2.isNone) = s.committed :=
      takeWhile_eq_self_iff.2 hall
    have hall' : (s.committed.all fun o => o.2.isNone) = true := all_eq_true.2 hall
    rw [htake, hall']
    cases err <;> simp
  · have hlt : (s.committed.takeWhile fun o => o.2.isNone).length ≠ s.committed.length := fun heq =>
      hall (takeWhile_eq_self_iff.1 (( takeWhile_prefix _).eq_of_length heq))
    have hall' : (s.committed.all fun o => o.2.isNone) = false := by
      rw [← Bool.not_eq_true, all_eq_true]
      exact hall
    rw [if_neg hlt, hall']
    simp

theorem okSlots_grow {s'} (hst : Step s s') (hx : x ∈ s.okSlots) : x ∈ s'.okSlots := by
  rcases committed_step hst with ⟨hc, -⟩ | ⟨t, y, c, b, err, rfl⟩
  · rw [okSlots, hc]
    exact hx
  · rw [okSlots_commit]
    exact mem_append_left _ hx

end Sys

/-! ## Images -/

/-- The key that `open_with_fs` unwraps from a file it does not treat as empty. -/
def headerDek (C : Cipher) (file : Bytes) : Except StorageError C.Dek := do
  let allData ← versioned (repairPartialHeader file)
  C.unwrapDek (slice allData 6 76)

namespace WalSys

variable {T : Type} {C : Cipher}

/-- The image starts with a header of the current key and the records synced under it. -/
def Extends (s : WalSys T C) (img : Bytes) : Prop :=
  ∃ version encHeader, version ≤ walVersionCurrent ∧ encHeader.length = 76 ∧
    C.unwrapDek encHeader = .ok s.dek ∧
    versionedHeader version encHeader ++
      frames C s.dek 0 ((s.placed.take s.synced).map payload) <+: img

/-- Ideal authenticated encryption, for an image of the file that nobody altered. What a rotation
leaves behind a truncation does not unwrap to the key of the truncated segment, and bytes of the
record region authenticate only as the records sealed under the current key. -/
structure Authentic (s : WalSys T C) (img : Bytes) : Prop where
  header : s.lost = true → headerDek C img = .ok s.dek → s.Extends img
  record : ∀ allData dek pos n p, versioned (repairPartialHeader img) = .ok allData →
    C.decryptSection dek n (payloadAt (allData.drop recordOffset) pos) = .ok p →
    dek = s.dek ∧ (s.placed.map payload)[n]? = some p

variable {s s' : WalSys T C} {img allData rest : Bytes} {rs old : List Record} {dek : C.Dek}
  {i maxSize : Nat} {wal : Segment C} {before kept : List (GroupSlot Record)}

theorem Extends.split (h : s.Extends img) :
    ∃ version encHeader tail, version ≤ walVersionCurrent ∧ encHeader.length = 76 ∧
      C.unwrapDek encHeader = .ok s.dek ∧ img = versionedHeader version encHeader ++
        (frames C s.dek 0 ((s.placed.take s.synced).map payload) ++ tail) := by
  obtain ⟨version, encHeader, hver, h76, hdek, tail, htail⟩ := h
  exact ⟨version, encHeader, tail, hver, h76, hdek, by rw [← htail, append_assoc]⟩

theorem Extends.append (h : s.Extends img) (bs) : s.Extends (img ++ bs) := by
  obtain ⟨version, encHeader, hver, h76, hdek, hpre⟩ := h
  exact ⟨version, encHeader, hver, h76, hdek, hpre.trans (prefix_append _ _)⟩

/-- Growth of what was sealed does not matter to an image. -/
theorem Extends.of_take (h : s.Extends img) (hdek : s'.dek = s.dek)
    (htake : s'.placed.take s'.synced = s.placed.take s.synced) : s'.Extends img := by
  rw [Extends, hdek, htake]
  exact h

theorem extends_of_holds (h : Holds C img s.dek rs) (hrs : s.placed.take s.synced = rs) : s.Extends img := by
  obtain ⟨version, encHeader, hver, h76, hdek, hfile⟩ := h.header
  subst hrs
  exact ⟨version, encHeader, hver, h76, hdek, hfile ▸ prefix_rfl⟩

theorem Extends.repair (h : s.Extends img) :
    repairPartialHeader img = img ∧ versioned img = .ok img ∧ img ≠ [] := by
  obtain ⟨version, encHeader, tail, hver, h76, -, rfl⟩ := h.split
  exact ⟨repair_versioned h76, versioned_versioned h76 hver, by simp [versionedHeader, walMagic]⟩

theorem Extends.headerDek (h : s.Extends img) : headerDek C img = .ok s.dek := by
  obtain ⟨hrep, hver, -⟩ := h.repair
  obtain ⟨version, encHeader, tail, -, h76, hdek, rfl⟩ := h.split
  simp only [Wal.headerDek, hrep, hver, bind, Except.bind, slice_versionedHeader h76, hdek]

theorem readAll_recover {scan : RecordScan} {r : Recovery C}
    (hscan : scanRecords C (allData.drop recordOffset) dek = .ok scan)
    (hr : r = .kept ⟨allData, dek, slice allData 6 76, scan.count⟩ ∨ r = .torn scan) (i : Nat) :
    (r.segment i).readAll = .ok scan.entries := by
  rcases hr with rfl | rfl
  · rw [Recovery.segment, Segment.readAll]
    split
    · next hle =>
      rw [drop_eq_nil_of_le hle] at hscan
      cases hscan
      rfl
    · rw [hscan]
      rfl
  · obtain ⟨rs, rest, -, hent, -⟩ := scanRecords_ok hscan
    obtain ⟨es, n, valid⟩ := scan
    subst hent
    rw [Recovery.segment, Holds.readAll (holds_rebuilt i rs n _), map_map]
    rfl

theorem decrypt_frames {region n r}
    (hreg : region = frames C dek 0 (rs.map payload) ++ rest) (hr : rs[n]? = some r) :
    ∃ pos, C.decryptSection dek n (payloadAt region pos) = .ok r.payload := by
  obtain ⟨hn, hget⟩ := List.getElem?_eq_some_iff.1 hr
  have hsplit : rs = rs.take n ++ r :: rs.drop (n + 1) := by
    rw [← hget, getElem_cons_drop, take_append_drop]
  rw [hsplit, map_append, map_cons, frames_append, frames, Nat.zero_add, length_map,
    length_take, min_eq_left (le_of_lt hn), append_assoc, append_assoc] at hreg
  refine ⟨(frames C dek 0 ((rs.take n).map payload)).length, ?_⟩
  rw [(crcValidAt_of_frame (length_sealed r n) hreg).2.1, C.decrypt_encrypt]

section

variable (h : s.Authentic img) (hv : versioned (repairPartialHeader img) = .ok allData)

include h hv

/-- The records a scan has read are those sealed under the current key, number by number. -/
theorem Authentic.entries
    (hreg : allData.drop recordOffset = frames C s.dek 0 (rs.map payload) ++ rest) :
    rs.map entry = (s.placed.take rs.length).map entry := by
  refine ext_getElem? fun n => ?_
  rw [getElem?_map, getElem?_map, getElem?_take]
  cases hr : rs[n]? with
  | none =>
    rw [if_neg (not_lt.2 (getElem?_eq_none_iff.1 hr))]
  | some r =>
    rw [if_pos (List.getElem?_eq_some_iff.1 hr).1]
    obtain ⟨pos, hd⟩ := decrypt_frames hreg hr
    have hp := (h.record _ _ pos n _ hv hd).2
    rw [getElem?_map] at hp
    obtain ⟨q, hq, hpay⟩ := Option.map_eq_some_iff.1 hp
    have hdec := q.decodes
    rw [hpay, r.decodes] at hdec
    rw [hq]
    exact congrArg some (Except.ok.inj hdec)

end

/-- An image that opens is replayed as the records of the current key, the synced ones included,
or, if a rotation has truncated the segment, as nothing. -/
theorem image_replays (hle : s.synced ≤ s.placed.length)
    (himg : s.lost = false → s.Extends img) (h : s.Authentic img) (hopen : openWithFs C i img = .ok wal) :
    (∃ k, s.synced ≤ k ∧ wal.readAll = .ok ((s.placed.take k).map entry)) ∨
      (s.lost = true ∧ wal.readAll = .ok []) := by
  -- an image of an intact segment starts with its header
  have hlost : ¬ s.Extends img → s.lost = true := fun hno => by
    by_contra hl
    exact hno (himg (Bool.eq_false_iff.2 hl))
  unfold openWithFs at hopen
  cases hrec : recover C img with
  | error e =>
    rw [hrec] at hopen
    cases hopen
  | ok r =>
    rw [hrec] at hopen
    cases hopen
    obtain ⟨hnil, rfl⟩ | ⟨allData, dek, scan, hv, hlen, hd, hs, hr⟩ := recover_cases hrec
    · refine .inr ⟨hlost fun hext => ?_, ?_⟩
      · rw [hext.repair.1] at hnil
        exact hext.repair.2.2 hnil
      · have hheld : Holds C (writeFreshHeader C i).content (writeFreshHeader C i).dek [] := holds_fresh i _
        exact hheld.readAll
    · have hread := readAll_recover hs (hr.imp And.right And.right) i
      have hkey : headerDek C img = .ok dek := by
        simp [headerDek, hv, hd]
      obtain ⟨rs, rest, hreg, hent, hcount, -⟩ := scanRecords_ok hs
      by_cases heq : dek = s.dek
      · subst heq
        have hext : s.Extends img := by
          cases hl : s.lost with
          | false => exact himg hl
          | true => exact h.header hl hkey
        refine .inl ⟨rs.length, ?_, by rw [hread, hent, h.entries hv hreg]⟩
        obtain ⟨hrep, hver, -⟩ := hext.repair
        rw [hrep, hver] at hv
        cases hv
        obtain ⟨version, encHeader, tail, -, h76, -, himg'⟩ := hext.split
        have hdrop : img.drop recordOffset =
            frames C s.dek 0 ((s.placed.take s.synced).map payload) ++ tail := by
          rw [himg', drop_versionedHeader h76]
        obtain ⟨fuel, hloop⟩ := scanRecords_frames _ hdrop
        rw [hloop] at hs
        obtain ⟨rs', -, -, -, hcount', -⟩ := scanLoop_ok _ _ hdrop hs
        rw [hcount, length_take, min_eq_left hle] at hcount'
        rw [hcount']
        exact Nat.le_add_right _ _
      · refine .inr ⟨hlost fun hext => heq ?_, ?_⟩
        · exact (Except.ok.inj (hkey.symm.trans hext.headerDek))
        · -- a segment whose header unwraps to another key holds no records
          cases rs with
          | nil => rw [hread, hent]; rfl
          | cons r rs =>
            obtain ⟨pos, hd⟩ := decrypt_frames (n := 0) hreg rfl
            exact absurd (h.record _ dek pos 0 _ hv hd).1 heq

/-! ## Runs -/

/-- Where the records of a file that nothing has damaged stand, at each point of a commit. -/
def SurviveStage (s : WalSys T C) : Io → Prop
  | .truncated _ => s.lost = true ∧ s.file.content = []
  | .headed k => s.lost = true ∧ s.file.content = newHeader C k
  | .sealedBuf buf => s.lost = false → s.torn = false → ∃ rs rs', s.placed = rs ++ rs' ∧
      Holds C s.file.content s.dek rs ∧ buf = frames C s.dek rs.length (rs'.map payload)
  | .finished none => s.lost = false → s.torn = false →
      Holds C s.file.content s.dek s.placed ∧ s.synced = s.placed.length
  | _ => s.lost = false → s.torn = false → Holds C s.file.content s.dek s.placed

/-- Every image of a segment that no rotation has truncated starts with its header and its synced
records. A fault shows in the fence, or in the commit under way. -/
structure SurviveOk (s : WalSys T C) : Prop where
  counter : s.recordCounter = s.placed.length
  syncedLe : s.synced ≤ s.placed.length
  images : s.lost = false → ∀ img, s.file.Survives img → s.Extends img
  content : s.lost = false → s.Extends s.file.content
  stage : s.SurviveStage s.io
  faulted : s.lost = true ∨ s.torn = true → s.proto.fenced = true ∨
    (∃ msg, s.io = .finished (some msg)) ∨ ∃ k, s.io = .truncated k ∨ s.io = .headed k

theorem surviveOk_ofSegment
    (hheld : Holds C wal.content wal.dek rs) (hcount : wal.recordCounter = rs.length) :
    SurviveOk (ofSegment i wal rs : WalSys T C) := by
  have hext : Extends (ofSegment i wal rs : WalSys T C) wal.content :=
    extends_of_holds hheld (take_length ..)
  refine ⟨hcount, le_rfl, fun _ img himg => ?_, fun _ => hext, fun _ _ => hheld, ?_⟩
  · rw [DurableFile.survives_stable.1 himg]
    exact hext
  · rintro (h | h) <;> cases h

/-- Between commits, and inside one that has met no fault, an old fault shows in the fence. -/
theorem SurviveOk.fenced_of {io : Io} (h : SurviveOk s) (hf : s.lost = true ∨ s.torn = true) (hio : s.io = io)
    (hfin : ∀ msg, io ≠ .finished (some msg) := by rintro _ ⟨⟩) (htrunc : ∀ k, io ≠ .truncated k := by rintro _ ⟨⟩)
    (hhead : ∀ k, io ≠ .headed k := by rintro _ ⟨⟩) : s.proto.fenced = true := by
  subst hio
  rcases h.faulted hf with hfence | ⟨msg, he⟩ | ⟨k, he | he⟩
  · exact hfence
  · exact absurd he (hfin msg)
  · exact absurd he (htrunc k)
  · exact absurd he (hhead k)

theorem SurviveOk.sealBatch (h : SurviveOk s) (b)
    (hheld : s.lost = false → s.torn = false → Holds C s.file.content s.dek s.placed)
    (hfault : s.lost = true ∨ s.torn = true → s.proto.fenced = true) : SurviveOk (s.sealBatch b) := by
  have hext : ∀ {img}, s.Extends img → (s.sealBatch b).Extends img := fun he =>
    he.of_take rfl (take_append_of_le_length h.syncedLe)
  refine ⟨?_, ?_, fun hl img himg => hext (h.images hl img himg), fun hl => hext (h.content hl),
    fun hl ht => ⟨s.placed, records b, rfl, hheld hl ht, by rw [← h.counter]; rfl⟩, fun hf => .inl (hfault hf)⟩
  · show s.recordCounter + b.length = (s.placed ++ records b).length
    rw [h.counter, length_append, records, length_map]
  · show s.synced ≤ (s.placed ++ records b).length
    rw [length_append]
    exact Nat.le_add_right_of_le h.syncedLe

theorem surviveOk_swapDek {k} (hfile : s.file.content = newHeader C k) :
    Holds C (s.swapDek k).file.content (s.swapDek k).dek [] ∧
      SurviveOk { s.swapDek k with io := .idle } := by
  have hheld : Holds C (newHeader C k) (C.generateDek k) [] := holds_fresh k _
  have hext : Extends { s.swapDek k with io := .idle } (newHeader C k) := extends_of_holds hheld rfl
  refine ⟨hfile ▸ hheld, rfl, le_rfl, fun _ img himg => ?_, fun _ => hfile ▸ hext,
    fun _ _ => hfile ▸ hheld, ?_⟩
  · rw [DurableFile.survives_sync.1 himg, hfile]
    exact hext
  · rintro (h | h) <;> cases h

theorem surviveOk_write {buf} (h : SurviveOk s)
    (hio : s.io = .sealedBuf buf) : SurviveOk { s with file := s.file.append buf, io := .written } := by
  have hstage := h.stage
  rw [hio] at hstage
  refine ⟨h.counter, h.syncedLe, fun hl img himg => ?_, fun hl => (h.content hl).append buf,
    fun hl ht => ?_, fun hf => ?_⟩
  · rcases DurableFile.survives_append.1 himg with hold | ⟨pre, -, rfl⟩
    · exact h.images hl img hold
    · exact (h.content hl).append pre
  · obtain ⟨rs, rs', hplace, hheld, hbuf⟩ := hstage hl ht
    obtain ⟨version, encHeader, hver, h76, hdek, hfile⟩ := hheld.header
    refine ⟨version, encHeader, hver, h76, hdek, ?_⟩
    show s.file.content ++ buf = _
    rw [hfile, hbuf, hplace, map_append, frames_append, append_assoc, Nat.zero_add, length_map]
  · exact .inl (h.fenced_of hf hio)

theorem surviveOk_sync (h : SurviveOk s) (hio : s.io = .written) : SurviveOk { s with
      file := s.file.sync, io := .finished none
      synced := if s.torn then s.synced else s.placed.length } := by
  have hstage := h.stage
  rw [hio] at hstage
  have hext : s.lost = false → Extends { s with
      file := s.file.sync, io := .finished none
      synced := if s.torn then s.synced else s.placed.length } s.file.content := by
    intro hl
    cases ht : s.torn with
    | true => exact (h.content hl).of_take rfl rfl
    | false => exact extends_of_holds (hstage hl ht) (take_length ..)
  refine ⟨h.counter, ?_, fun hl img himg => ?_, hext, fun hl ht => ⟨hstage hl ht, ?_⟩, fun hf => ?_⟩
  · show (if s.torn then s.synced else s.placed.length) ≤ s.placed.length
    split
    · exact h.syncedLe
    · exact le_rfl
  · rw [DurableFile.survives_sync.1 himg]
    exact hext hl
  · show (if s.torn then s.synced else s.placed.length) = s.placed.length
    rw [if_neg (by rw [show s.torn = false from ht]; decide)]
  · exact .inl (h.fenced_of hf hio)

variable [DecidableEq T]

theorem surviveOk_thread {p} (h : SurviveOk s)
    (hst : Sys.Step s.proto p) (hc : p.committed = s.proto.committed) :
    SurviveOk { s with proto := p } := by
  refine { h with stage := ?_, faulted := fun hf => ?_ }
  · have hstage := h.stage
    generalize s.io = io at hstage
    cases io with
    | finished err => cases err <;> exact hstage
    | _ => exact hstage
  · rw [Sys.fenced_stays hst hc]
    exact h.faulted hf

theorem surviveOk_step (h : SurviveOk s) (hst : Step maxSize s s') : SurviveOk s' := by
  have hstage : ∀ {io}, s.io = io → s.SurviveStage io := fun hio => hio ▸ h.stage
  cases hst with
  | thread hst hc => exact surviveOk_thread h hst hc
  | prepareFailed msg _ hio | truncateFailed msg hio =>
    exact { h with stage := hstage hio, faulted := fun _ => .inr (.inl ⟨msg, rfl⟩) }
  | flushed _ hio _ =>
    exact { h with stage := hstage hio, faulted := fun hf => .inl (h.fenced_of hf hio) }
  | reserve _ hio _ =>
    exact h.sealBatch _ (hstage hio) fun hf =>
      h.fenced_of hf hio
  | @truncate k hio =>
    exact ⟨h.counter, h.syncedLe, fun hl => absurd hl (by simp), fun hl => absurd hl (by simp),
      ⟨rfl, rfl⟩, fun _ => .inr (.inr ⟨k, .inl rfl⟩)⟩
  | @writeHeader k hio =>
    have hno := ne_false_of_eq_true (hstage hio).1
    refine ⟨h.counter, h.syncedLe, fun hl => absurd hl hno, fun hl => absurd hl hno, ⟨(hstage hio).1, ?_⟩,
      fun _ => .inr (.inr ⟨k, .inr rfl⟩)⟩
    show s.file.content ++ newHeader C k = _
    rw [(hstage hio).2, nil_append]
  | writeHeaderFailed n msg hio _ =>
    have hno := ne_false_of_eq_true (hstage hio).1
    exact ⟨h.counter, h.syncedLe, fun hl => absurd hl hno, fun hl => absurd hl hno,
      fun hl => absurd hl hno, fun _ => .inr (.inl ⟨msg, rfl⟩)⟩
  | syncHeader hio _ =>
    obtain ⟨hheld, hok⟩ := surviveOk_swapDek (hstage hio).2
    exact .sealBatch hok _ (fun _ _ => hheld) (by rintro (hf | hf) <;> cases hf)
  | syncHeaderFailed msg hio =>
    have hno := ne_false_of_eq_true (hstage hio).1
    exact { h with stage := fun hl => absurd hl hno, faulted := fun _ => .inr (.inl ⟨msg, rfl⟩) }
  | write hio => exact surviveOk_write h hio
  | writeFailed n msg hio _ =>
    refine ⟨h.counter, h.syncedLe, fun hl img himg => ?_, fun hl => (h.content hl).append _,
      fun _ ht => absurd ht (by simp), fun _ => .inr (.inl ⟨msg, rfl⟩)⟩
    rcases DurableFile.survives_append.1 himg with hold | ⟨pre, -, rfl⟩
    · exact h.images hl img hold
    · exact (h.content hl).append pre
  | sync hio => exact surviveOk_sync h hio
  | syncFailed msg hio =>
    exact { h with stage := fun _ ht => absurd ht (by simp), faulted := fun _ => .inr (.inl ⟨msg, rfl⟩) }
  | @finish t x c b err _ hio =>
    refine { h with stage := fun hl ht => ?_, faulted := fun hf => .inl ?_ }
    · cases err with
      | none => exact (hstage hio hl ht).1
      | some msg => exact hstage hio hl ht
    · show (s.proto.fenced || err.isSome) = true
      cases err with
      | some msg => simp
      | none =>
        rw [h.fenced_of hf hio]
        rfl

theorem survive_ok (h : Reachable Opened (Step maxSize) s) : SurviveOk s := by
  refine h.invariant (fun s hs => ?_) fun _ _ _ ih hst => surviveOk_step ih hst
  obtain ⟨i, file, wal, rs, -, hheld, hcount, rfl⟩ := hs
  exact surviveOk_ofSegment hheld hcount

/-! ## The order of the records -/

/-- Whether the batch `new` is the one under way, at each point of a commit. -/
def NewStage (s : WalSys T C) (new : List (GroupSlot Record)) : Io → Prop
  | .sealedBuf _ | .written | .finished none => s.Committing new
  | .finished (some _) => new = [] ∨ s.Committing new
  | _ => new = []

/-- The records sealed under the current key: those the segment was opened with, unless a rotation
has moved them out, then the slots `kept` of earlier batches and those of the batch `new` under
way. The slots `before` left with earlier segments. Every slot that may be acknowledged is one of
those, or is synced in this segment. -/
structure Order (rs : List Record) (s : WalSys T C) (old : List Record)
    (before kept new : List (GroupSlot Record)) : Prop where
  placed : s.placed = old ++ records (kept ++ new)
  head : (old = rs ∧ before = []) ∨ old = []
  queue : (before ++ kept).Sublist (s.proto.committed.map Prod.fst).flatten
  stage : s.NewStage new s.io
  base : old.length ≤ s.synced
  ok : ∀ x ∈ s.proto.okSlots, x ∈ before ∨ x ∈ (kept ++ new).take (s.synced - old.length)

section

omit [DecidableEq T]

theorem order_ofSegment : Order rs (ofSegment i wal rs : WalSys T C) rs [] [] [] :=
  ⟨(append_nil _).symm, .inl ⟨rfl, rfl⟩, nil_sublist _, rfl, le_rfl, nofun⟩

variable {new b : List (GroupSlot Record)}

/-- A step that seals nothing and ends no commit. -/
theorem Order.keep (h : Order rs s old before kept new) (hstage : s'.NewStage new s'.io)
    (hcom : s'.proto.committed = s.proto.committed) (hsync : s.synced ≤ s'.synced)
    (hplace : s'.placed = s.placed) : Order rs s' old before kept new := by
  refine ⟨hplace.trans h.placed, h.head, by rw [hcom]; exact h.queue, hstage,
    le_trans h.base hsync, fun x hx => ?_⟩
  have hx' : x ∈ s.proto.okSlots := by
    rw [Sys.okSlots, ← hcom]
    exact hx
  refine (h.ok x hx').imp_right fun hin => ?_
  exact (take_prefix_take_left (Nat.sub_le_sub_right hsync _)).subset hin

/-- Sealing a batch while none is under way. -/
theorem Order.sealBatch (h : Order rs s old before kept []) (hb : s.Committing b) :
    Order rs (s.sealBatch b) old before kept b := by
  refine ⟨?_, h.head, h.queue, hb, h.base, fun x hx => (h.ok x hx).imp_right fun hin => ?_⟩
  · show s.placed ++ records b = old ++ records (kept ++ b)
    rw [h.placed, append_nil, append_assoc, records, records, records, map_append]
  · rw [append_nil] at hin
    rw [take_append]
    exact mem_append_left _ hin

/-- The swap of a rotation: what was sealed under the old key has moved out. -/
theorem Order.swapDek (h : Order rs s old before kept []) (k : Nat) :
    Order rs { s.swapDek k with io := .idle } [] (before ++ kept) [] [] := by
  refine ⟨rfl, .inr rfl, by rw [append_nil]; exact h.queue, rfl, le_rfl, fun x hx => .inl ?_⟩
  rcases h.ok x hx with hin | hin
  · exact mem_append_left _ hin
  · rw [append_nil] at hin
    exact mem_append_right _ ((take_sublist _ _).subset hin)

end

section

variable (h : Order rs s old before kept new) (hok : SurviveOk s) (hreach : Reachable (· = .init) Sys.Step s.proto)

include h hok hreach

/-- The end of a commit. -/
theorem Order.finish {t : T} {x c err} (hpc : s.proto.pc t = .committing x c b)
    (hio : s.io = .finished err) : Order rs (s.finish t x c b err) old before (kept ++ new) [] := by
  have hunique : s.Committing new → new = b := fun ⟨u, y, d, hu⟩ =>
    (Sys.leaders_ok hreach).committing_unique hu hpc
  have hstage := h.stage
  rw [hio] at hstage
  refine ⟨by rw [append_nil]; exact h.placed, h.head, ?_, rfl, h.base, fun y hy => ?_⟩
  · show (before ++ (kept ++ new)).Sublist ((s.proto.committed ++ [(b, err)]).map Prod.fst).flatten
    rw [← append_assoc, map_append, flatten_append, map_singleton, flatten_singleton]
    refine h.queue.append ?_
    have hnew : new = [] ∨ new = b := by
      cases err with
      | none => exact .inr (hunique hstage)
      | some msg => exact hstage.imp_right hunique
    rcases hnew with rfl | rfl
    · exact nil_sublist _
    · exact .refl _
  · rw [append_nil]
    have hy' : y ∈ (s.proto.commit t x c b err).okSlots := hy
    rw [Sys.okSlots_commit, mem_append] at hy'
    rcases hy' with hold | hnew
    · exact h.ok y hold
    · -- nothing has failed, so the segment is whole and all of it is synced
      split at hnew
      · next hclean =>
        rw [Bool.and_eq_true, all_eq_true] at hclean
        obtain ⟨hall, herr⟩ := hclean
        cases err with
        | some msg => cases herr
        | none =>
          have hfence : s.proto.fenced = false := by
            rw [Sys.fenced_eq hreach, any_eq_false]
            intro o ho
            have := hall o ho
            cases ho2 : o.2 <;> simp_all
          have hfault : ¬ (s.lost = true ∨ s.torn = true) := fun hf => by
            have := hok.fenced_of hf hio
            rw [hfence] at this
            cases this
          rw [not_or, Bool.not_eq_true, Bool.not_eq_true] at hfault
          have hwhole := hok.stage
          rw [hio] at hwhole
          obtain ⟨-, hsync⟩ := hwhole hfault.1 hfault.2
          have hlen : s.synced - old.length = (kept ++ new).length := by
            rw [hsync, h.placed, length_append, records, length_map, Nat.add_sub_cancel_left]
          right
          show y ∈ (kept ++ new).take (s.synced - old.length)
          rw [hlen, take_length, hunique hstage]
          exact mem_append_right _ hnew
      · cases hnew

/-- A step keeps the order; only the swap of a rotation moves records out. -/
theorem Order.step (hst : Step maxSize s s') : (∃ kept' new', Order rs s' old before kept' new') ∨
      ∃ k new', s.io = .headed k ∧ new = [] ∧ Order rs s' [] (before ++ kept) [] new' := by
  have hstage : ∀ {io}, s.io = io → s.NewStage new io := fun hio => hio ▸ h.stage
  cases hst with
  | @thread p hst hc =>
    have hb : ∀ b, s.Committing b → Committing { s with proto := p } b :=
      fun b ⟨t, x, c, ht⟩ => ⟨t, x, c, Sys.committing_stays hst hc ht⟩
    refine .inl ⟨kept, new, h.keep ?_ hc le_rfl rfl⟩
    have hstage := hstage rfl
    generalize s.io = io at hstage
    cases io with
    | sealedBuf | written => exact hb new hstage
    | finished err =>
      cases err with
      | none => exact hb new hstage
      | some msg => exact hstage.imp_right (hb new)
    | _ => exact hstage
  | prepareFailed _ _ hio | truncateFailed _ hio | writeHeaderFailed _ _ hio _
  | syncHeaderFailed _ hio =>
    exact .inl ⟨kept, new, { h with stage := .inl (hstage hio) }⟩
  | flushed _ hio _ | truncate hio | writeHeader hio | write hio =>
    exact .inl ⟨kept, new, { h with stage := hstage hio }⟩
  | reserve hpc hio _ =>
    cases hstage hio
    exact .inl ⟨kept, _, h.sealBatch ⟨_, _, _, hpc⟩⟩
  | @syncHeader k t x c b hio hpc =>
    cases hstage hio
    exact .inr ⟨k, b, hio, rfl, (h.swapDek k).sealBatch ⟨t, x, c, hpc⟩⟩
  | writeFailed _ _ hio _ | syncFailed _ hio =>
    exact .inl ⟨kept, new, { h with stage := .inr (hstage hio) }⟩
  | sync hio =>
    refine .inl ⟨kept, new, h.keep (hstage hio) rfl ?_ rfl⟩
    split
    · exact le_rfl
    · exact hok.syncedLe
  | finish hpc hio => exact .inl ⟨_, [], h.finish hok hreach hpc hio⟩

end

end WalSys

end Hearth.Wal
