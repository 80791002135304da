import Hearth.Wal.Record

/-!
# The recovery scan

`scan_records`, `probe_survivors` and `refuse_if_survivors` over the record
region of a segment. A frame is a 32-bit length, the ciphertext and its CRC-32;
record `n` is sealed under the nonce and the associated data made from `n`.

Results:
1. `scanRecords_frames`: the scan walks over intact frames and stops behind them.
2. `scanLoop_stop`: what it answers where no CRC-valid frame stands.
3. `probe_isSome_iff`: the probe finds exactly the frames that authenticate at
   a number of its window.
-/

namespace Hearth.Wal

open Base List Record

/-- The cryptography the WAL calls: AES-GCM with a counter nonce and the record number as
associated data, the wrapping of the segment key, and CRC-32. `wrapDek` is randomised; its
first argument numbers the call, as that of `generateDek` does. -/
structure Cipher where
  Dek : Type
  encryptSection : Dek → Nat → Bytes → Bytes
  decryptSection : Dek → Nat → Bytes → Except StorageError Bytes
  crc32 : Bytes → Nat
  generateDek : Nat → Dek
  wrapDek : Nat → Dek → Bytes
  unwrapDek : Bytes → Except StorageError Dek
  length_encrypt : ∀ dek n p, (encryptSection dek n p).length = p.length + 16
  decrypt_encrypt : ∀ dek n p, decryptSection dek n (encryptSection dek n p) = .ok p
  encrypt_decrypt : ∀ dek n c p, decryptSection dek n c = .ok p → c = encryptSection dek n p
  crc32_lt : ∀ bs, crc32 bs < 2 ^ 32
  length_wrap : ∀ i dek, (wrapDek i dek).length = 76
  unwrap_wrap : ∀ i dek, unwrapDek (wrapDek i dek) = .ok dek

/-- `V1_RECORD_OFFSET`: version header and encryption header. -/
def recordOffset : Nat := 82

/-- `SURVIVOR_PROBE_RECORD_WINDOW`. -/
def survivorProbeWindow : Nat := 32

/-- Outcome of scanning the record region of a WAL segment. -/
structure RecordScan where
  entries : List WalEntry
  count : Nat
  validLen : Nat
  deriving DecidableEq, Repr

section

variable (C : Cipher) (region : Bytes) (dek : C.Dek)

/-- The ciphertext authenticates at one of the record numbers the probe tries. -/
def authenticates (next : Nat) (ciphertext : Bytes) : Bool :=
  (range' next survivorProbeWindow).any fun n =>
    (C.decryptSection dek n ciphertext).toOption.isSome

/-- `probe_survivors` from offset `off`, at most `fuel` offsets. -/
def probeSurvivors (next : Nat) : Nat → Nat → Option Nat
  | 0, _ => none
  | fuel + 1, off =>
    if off + 24 ≤ region.length then
      let len := leNat (slice region off 4)
      if len < 16 || region.length < off + 4 + len + 4 then probeSurvivors next fuel (off + 1)
      else
        let ciphertext := slice region (off + 4) len
        if leNat (slice region (off + 4 + len) 4) ≠ C.crc32 ciphertext then
          probeSurvivors next fuel (off + 1)
        else if authenticates C dek next ciphertext then some off
        else probeSurvivors next fuel (off + 1)
    else none

/-- `refuse_if_survivors`. -/
def refuseIfSurvivors (corruptStart recovered : Nat) : Except StorageError Unit :=
  match probeSurvivors C region dek (recovered + 1) region.length (corruptStart + 1) with
  | some survivor =>
    .error (.walMidSegmentCorruption (recordOffset + corruptStart) (recordOffset + survivor)
      recovered)
  | none => .ok ()

/-- The error of a record that authenticates but does not decode. -/
def undecodable (recordNum start : Nat) (e : StorageError) : StorageError :=
  .deserializationFailed (s!"WAL record {recordNum} at offset {recordOffset + start} " ++
    s!"authenticated but does not decode ({e.display}); refusing to open rather than discard it " ++
    "and every record after it — was this segment written by a newer binary?")

/-- The loop of `scan_records`; `valid_len` is `pos` at the top of every turn. -/
def scanLoop : Nat → Nat → Nat → List WalEntry → Except StorageError RecordScan
  | 0, pos, recordNum, entries => .ok ⟨entries, recordNum, pos⟩
  | fuel + 1, pos, recordNum, entries =>
    if pos + 4 ≤ region.length then
      let payloadLen := leNat (slice region pos 4)
      if region.length < pos + 4 + payloadLen + 4 then do
        refuseIfSurvivors C region dek pos recordNum
        return ⟨entries, recordNum, pos⟩
      else
        let ciphertext := slice region (pos + 4) payloadLen
        if leNat (slice region (pos + 4 + payloadLen) 4) ≠ C.crc32 ciphertext then do
          refuseIfSurvivors C region dek pos recordNum
          return ⟨entries, recordNum, pos⟩
        else
          match C.decryptSection dek recordNum ciphertext with
          | .error e => .error e
          | .ok plaintext =>
            match WalEntry.deserialize plaintext with
            | .error e => .error (undecodable recordNum pos e)
            | .ok entry =>
              scanLoop fuel (pos + 4 + payloadLen + 4) (recordNum + 1) (entries ++ [entry])
    else .ok ⟨entries, recordNum, pos⟩

/-- `scan_records`; every turn but the last consumes at least eight bytes. -/
def scanRecords : Except StorageError RecordScan := scanLoop C region dek (region.length + 1) 0 0 []

end

/-! ## Frames -/

/-- A frame on disk: length, ciphertext, CRC. -/
def rawFrame (C : Cipher) (ciphertext : Bytes) : Bytes :=
  leBytes 4 (ciphertext.length % 2 ^ 32) ++ (ciphertext ++ leBytes 4 (C.crc32 ciphertext))

/-- Record `n` with payload `p`, as `commit_batch` and the rebuild write it. -/
def frame (C : Cipher) (dek : C.Dek) (n : Nat) (p : Bytes) : Bytes :=
  rawFrame C (C.encryptSection dek n p)

/-- Consecutive records from number `n` on. -/
def frames (C : Cipher) (dek : C.Dek) : Nat → List Bytes → Bytes
  | _, [] => []
  | n, p :: ps => frame C dek n p ++ frames C dek (n + 1) ps

/-- The bytes the length at `pos` frames. -/
def payloadAt (region : Bytes) (pos : Nat) : Bytes :=
  slice region (pos + 4) (leNat (slice region pos 4))

/-- The bytes at `pos` are a whole frame whose CRC verifies. -/
def CrcValidAt (C : Cipher) (region : Bytes) (pos : Nat) : Prop :=
  pos + 4 + leNat (slice region pos 4) + 4 ≤ region.length ∧
  leNat (slice region (pos + 4 + leNat (slice region pos 4)) 4) = C.crc32 (payloadAt region pos)

instance (C : Cipher) (region : Bytes) (pos : Nat) : Decidable (CrcValidAt C region pos) :=
  inferInstanceAs (Decidable (_ ∧ _))

section

variable {C : Cipher} {region : Bytes} {dek : C.Dek}

@[simp] theorem length_rawFrame (ct) : (rawFrame C ct).length = ct.length + 8 := by
  simp only [rawFrame, length_append, length_leBytes]
  omega

@[simp] theorem length_frame (n : Nat) (p) : (frame C dek n p).length = p.length + 24 := by
  rw [frame, length_rawFrame, C.length_encrypt]

theorem length_sealed (r : Record) (n : Nat) : (C.encryptSection dek n r.payload).length < 2 ^ 32 := by
  rw [C.length_encrypt]
  exact r.fits

/-- A frame is read where it stands. -/
theorem crcValidAt_of_frame {pre post ct} (hct : ct.length < 2 ^ 32)
    (hr : region = pre ++ (rawFrame C ct ++ post)) :
    CrcValidAt C region pre.length ∧ payloadAt region pre.length = ct ∧
      leNat (slice region pre.length 4) = ct.length := by
  have hmod : ct.length % 2 ^ 32 = ct.length := Nat.mod_eq_of_lt hct
  have hreg : region = pre ++ (leBytes 4 ct.length ++ (ct ++ (leBytes 4 (C.crc32 ct) ++ post))) := by
    rw [hr, rawFrame, hmod]
    simp
  have hlen : leNat (slice region pre.length 4) = ct.length := by
    rw [hreg, slice_append_left rfl (length_leBytes 4 _).symm, leNat_leBytes hct]
  have hct' : payloadAt region pre.length = ct := by
    rw [payloadAt, hlen, hreg, slice_append_right rfl]
    exact slice_append_left (length_leBytes 4 _).symm rfl
  have hcrc : slice region (pre.length + 4 + ct.length) 4 = leBytes 4 (C.crc32 ct) := by
    rw [hreg, slice_append_right (i := 4 + ct.length) (by omega),
      slice_append_right (by rw [length_leBytes])]
    exact slice_append_left rfl (length_leBytes 4 _).symm
  refine ⟨⟨?_, ?_⟩, hct', hlen⟩
  · rw [hlen, hr]
    simp only [length_append, length_rawFrame]
    omega
  · rw [hlen, hcrc, hct', leNat_leBytes (C.crc32_lt ct)]

theorem frame_of_crcValidAt {pos} (h : CrcValidAt C region pos) :
    (payloadAt region pos).length < 2 ^ 32 ∧
      ∃ post, region = region.take pos ++ (rawFrame C (payloadAt region pos) ++ post) := by
  obtain ⟨hfit, hcrc⟩ := h
  have hl4 : (slice region pos 4).length = 4 := length_slice (by omega)
  have hlen : (payloadAt region pos).length = leNat (slice region pos 4) := length_slice (by omega)
  have hlt : leNat (slice region pos 4) < 2 ^ 32 := by
    have := leNat_lt (slice region pos 4)
    rwa [hl4] at this
  have hc4 : (slice region (pos + 4 + leNat (slice region pos 4)) 4).length = 4 :=
    length_slice (by omega)
  -- the three slices are adjacent
  have hsplit : region.drop pos = slice region pos 4 ++ (payloadAt region pos ++
      (slice region (pos + 4 + leNat (slice region pos 4)) 4 ++
        region.drop (pos + 4 + leNat (slice region pos 4) + 4))) := by
    rw [payloadAt, ← drop_eq_slice_append, ← drop_eq_slice_append, ← drop_eq_slice_append]
  have h1 : leBytes 4 (leNat (slice region pos 4)) = slice region pos 4 := leBytes_leNat hl4
  have h2 : leBytes 4 (C.crc32 (payloadAt region pos)) =
      slice region (pos + 4 + leNat (slice region pos 4)) 4 := by
    rw [← hcrc, leBytes_leNat hc4]
  refine ⟨hlen ▸ hlt, region.drop (pos + 4 + leNat (slice region pos 4) + 4), ?_⟩
  conv => lhs; rw [← take_append_drop pos region, hsplit]
  rw [rawFrame, Nat.mod_eq_of_lt (hlen ▸ hlt), hlen, h1, h2]
  simp

end

/-! ## The probe -/

/-- The probe accepts offset `off`. -/
def SurvivorAt (C : Cipher) (region : Bytes) (dek : C.Dek) (next off : Nat) : Prop :=
  16 ≤ leNat (slice region off 4) ∧ CrcValidAt C region off ∧
    authenticates C dek next (payloadAt region off) = true

section

variable {C : Cipher} {region : Bytes} {dek : C.Dek}

theorem probeSurvivors_succ (C : Cipher) (region) (dek : C.Dek) (next fuel off : Nat) :
    (SurvivorAt C region dek next off ∧
      probeSurvivors C region dek next (fuel + 1) off = some off) ∨
    (¬ SurvivorAt C region dek next off ∧ (probeSurvivors C region dek next (fuel + 1) off =
          probeSurvivors C region dek next fuel (off + 1) ∨
        region.length < off + 24 ∧ probeSurvivors C region dek next (fuel + 1) off = none)) := by
  rw [probeSurvivors, SurvivorAt, CrcValidAt, payloadAt]
  by_cases hmin : off + 24 ≤ region.length
  · simp only [hmin, if_true]
    by_cases hlen : leNat (slice region off 4) < 16 ∨
        region.length < off + 4 + leNat (slice region off 4) + 4
    · right
      refine ⟨fun hs => ?_, .inl (by simp [hlen])⟩
      omega
    · rw [if_neg (by simpa using hlen)]
      by_cases hcrc : leNat (slice region (off + 4 + leNat (slice region off 4)) 4) =
          C.crc32 (slice region (off + 4) (leNat (slice region off 4)))
      · cases hauth : authenticates C dek next _ with
        | true => exact .inl ⟨⟨by omega, ⟨by omega, hcrc⟩, rfl⟩, by simp [hcrc]⟩
        | false => exact .inr ⟨fun hs => by simp at hs, .inl (by simp [hcrc])⟩
      · exact .inr ⟨fun hs => hcrc hs.2.1.2, .inl (by simp [hcrc])⟩
  · right
    refine ⟨fun hs => ?_, .inr ⟨by omega, by simp [hmin]⟩⟩
    omega

/-- With enough fuel the probe finds a survivor exactly when there is one. -/
theorem probe_isSome_iff {next fuel off} (hf : region.length ≤ off + fuel) :
    (probeSurvivors C region dek next fuel off).isSome = true ↔
      ∃ o, off ≤ o ∧ SurvivorAt C region dek next o := by
  have hend : ∀ o, SurvivorAt C region dek next o → o + 24 ≤ region.length := by
    intro o hs
    have h1 := hs.1
    have h2 := hs.2.1.1
    omega
  induction fuel generalizing off with
  | zero =>
    refine ⟨nofun, fun ⟨o, ho, hs⟩ => ?_⟩
    have := hend o hs
    omega
  | succ fuel ih =>
    rcases probeSurvivors_succ C _ dek next fuel off with
      ⟨hs, heq⟩ | ⟨hns, heq | ⟨hshort, heq⟩⟩
    · rw [heq]
      exact ⟨fun _ => ⟨off, le_rfl, hs⟩, fun _ => rfl⟩
    · have hrest : (probeSurvivors C region dek next fuel (off + 1)).isSome = true ↔
          ∃ o, off + 1 ≤ o ∧ SurvivorAt C region dek next o := ih (by omega)
      rw [heq, hrest]
      refine ⟨fun ⟨o, ho, hs⟩ => ⟨o, by omega, hs⟩, fun ⟨o, ho, hs⟩ => ⟨o, ?_, hs⟩⟩
      rcases lt_or_eq_of_le ho with hlt | rfl
      · exact hlt
      · exact absurd hs hns
    · rw [heq]
      refine ⟨nofun, fun ⟨o, ho, hs⟩ => ?_⟩
      have := hend o hs
      omega

/-- The scan refuses at `pos` exactly when a survivor follows. -/
theorem refuse_iff (pos n : Nat) : (∃ e, refuseIfSurvivors C region dek pos n = .error e) ↔
      ∃ o, pos < o ∧ SurvivorAt C region dek (n + 1) o := by
  have hprobe : (probeSurvivors C region dek (n + 1) region.length (pos + 1)).isSome = true ↔
      ∃ o, pos < o ∧ SurvivorAt C region dek (n + 1) o := probe_isSome_iff (by omega)
  rw [← hprobe]
  unfold refuseIfSurvivors
  cases probeSurvivors C region dek (n + 1) region.length (pos + 1) with
  | none => exact ⟨fun ⟨_, h⟩ => (nomatch h), nofun⟩
  | some o => exact ⟨fun _ => rfl, fun _ => ⟨_, rfl⟩⟩

end

/-! ## The scan -/

section

variable {C : Cipher} {region : Bytes} {dek : C.Dek} {es : List WalEntry} {fuel n : Nat}
  {post : Bytes}

/-- One turn over a frame whose CRC verifies. -/
theorem scanLoop_valid {pos} (h : CrcValidAt C region pos) :
    scanLoop C region dek (fuel + 1) pos n es =
      match C.decryptSection dek n (payloadAt region pos) with
      | .error e => .error e
      | .ok plaintext =>
        match WalEntry.deserialize plaintext with
        | .error e => .error (undecodable n pos e)
        | .ok entry => scanLoop C region dek fuel (pos + 4 + leNat (slice region pos 4) + 4) (n + 1)
            (es ++ [entry]) := by
  obtain ⟨hfit, hcrc⟩ := h
  rw [payloadAt] at hcrc ⊢
  have h4 : pos + 4 ≤ region.length := by omega
  have hnfit : ¬ region.length < pos + 4 + leNat (slice region pos 4) + 4 := by omega
  rw [scanLoop]
  simp only [h4, hnfit, if_true, if_false]
  rw [if_neg (not_not.2 hcrc)]

/-- Where no CRC-valid frame stands the scan ends, unless survivors follow. -/
theorem scanLoop_stop {pos} (h : ¬ CrcValidAt C region pos) :
    scanLoop C region dek (fuel + 1) pos n es = if pos + 4 ≤ region.length then
        (refuseIfSurvivors C region dek pos n).map fun _ => ⟨es, n, pos⟩ else .ok ⟨es, n, pos⟩ := by
  rw [scanLoop]
  by_cases h4 : pos + 4 ≤ region.length
  · by_cases hfit : region.length < pos + 4 + leNat (slice region pos 4) + 4
    · rw [if_pos hfit]
      cases refuseIfSurvivors C region dek pos n <;> rfl
    · have hcrc : leNat (slice region (pos + 4 + leNat (slice region pos 4)) 4) ≠
          C.crc32 (slice region (pos + 4) (leNat (slice region pos 4))) :=
        fun hc => h ⟨by omega, hc⟩
      rw [if_neg hfit, if_pos hcrc]
      cases refuseIfSurvivors C region dek pos n <;> rfl
  · simp [h4]

theorem scanLoop_frames (pre : Bytes) (fuel : Nat) (es : List WalEntry) (rs : List Record)
    (hr : region = pre ++ (frames C dek n (rs.map payload) ++ post)) :
    scanLoop C region dek (fuel + rs.length) pre.length n es =
      scanLoop C region dek fuel (pre ++ frames C dek n (rs.map payload)).length
        (n + rs.length) (es ++ rs.map entry) := by
  induction rs generalizing pre n es with
  | nil => simp [frames]
  | cons r rs ih =>
    simp only [map_cons, frames, append_assoc] at hr ⊢
    have hframe : scanLoop C region dek (fuel + rs.length + 1) pre.length n es =
        scanLoop C region dek (fuel + rs.length) (pre ++ frame C dek n r.payload).length (n + 1)
          (es ++ [r.entry]) := by
      obtain ⟨hv, hp, hlen⟩ := crcValidAt_of_frame (length_sealed r n) hr
      rw [scanLoop_valid hv, hp, C.decrypt_encrypt]
      simp only [r.decodes, hlen, C.length_encrypt, length_append, length_frame]
      congr 1
      omega
    rw [length_cons, ← add_assoc, hframe]
    rw [ih _ _ (by rw [hr]; simp )]
    simp only [append_assoc]
    congr 1
    omega

theorem length_frames_ge (C : Cipher) (dek : C.Dek) (n : Nat) (ps) :
    24 * ps.length ≤ (frames C dek n ps).length := by
  induction ps generalizing n with
  | nil => exact Nat.zero_le _
  | cons p ps ih =>
    have := ih (n + 1)
    simp only [frames, length_cons, length_append, length_frame]
    omega

theorem frames_append (n : Nat) (ps qs) :
    frames C dek n (ps ++ qs) = frames C dek n ps ++ frames C dek (n + ps.length) qs := by
  induction ps generalizing n with
  | nil => rfl
  | cons p ps ih =>
    simp only [cons_append, frames, ih, append_assoc, length_cons]
    congr 3
    omega

theorem scanRecords_frames (rs : List Record) (hr : region = frames C dek 0 (rs.map payload) ++ post) :
    ∃ fuel, scanRecords C region dek =
      scanLoop C region dek (fuel + 1) (frames C dek 0 (rs.map payload)).length rs.length
        (rs.map entry) := by
  have hlen := length_frames_ge C dek 0 (rs.map payload)
  have htot := congrArg length hr
  rw [length_append] at htot
  rw [length_map] at hlen
  refine ⟨region.length - rs.length, ?_⟩
  have hfuel : region.length + 1 = region.length - rs.length + 1 + rs.length := by omega
  have h := scanLoop_frames [] (region.length - rs.length + 1) [] rs hr
  rw [scanRecords, hfuel]
  simpa using h

theorem scanLoop_ok (pre post) {scan}
    (hr : region = pre ++ post) (h : scanLoop C region dek fuel pre.length n es = .ok scan) :
    ∃ (rs : List Record) (rest : Bytes), post = frames C dek n (rs.map payload) ++ rest ∧
      scan.entries = es ++ rs.map entry ∧ scan.count = n + rs.length ∧
      scan.validLen = pre.length + (frames C dek n (rs.map payload)).length := by
  induction fuel generalizing pre post n es with
  | zero =>
    cases h
    exact ⟨[], post, rfl, by simp, rfl, rfl⟩
  | succ fuel ih =>
    by_cases hv : CrcValidAt C region pre.length
    · rw [scanLoop_valid hv] at h
      cases hd : C.decryptSection dek n (payloadAt region pre.length) with
      | error e =>
        rw [hd] at h
        cases h
      | ok p =>
        simp only [hd] at h
        cases he : WalEntry.deserialize p with
        | error e =>
          rw [he] at h
          cases h
        | ok entry =>
          simp only [he] at h
          obtain ⟨hlt, post', hsplit⟩ := frame_of_crcValidAt hv
          have hct := C.encrypt_decrypt dek n _ p hd
          have hfits : p.length + 16 < 2 ^ 32 := by
            rw [hct, C.length_encrypt] at hlt
            exact hlt
          have hpost : post = frame C dek n p ++ post' := by
            rw [hr, take_left] at hsplit
            rw [append_cancel_left hsplit, ← hr, hct]
            rfl
          have hlen : leNat (slice region pre.length 4) = p.length + 16 := by
            have hraw : region = pre ++ (rawFrame C (C.encryptSection dek n p) ++ post') := by
              rw [hr, hpost]
              rfl
            rw [(crcValidAt_of_frame (by rw [C.length_encrypt]; exact hfits) hraw).2.2,
              C.length_encrypt]
          have hpos : pre.length + 4 + leNat (slice region pre.length 4) + 4 =
              (pre ++ frame C dek n p).length := by
            rw [length_append, length_frame]
            omega
          rw [hpos] at h
          obtain ⟨rs, rest, h1, h2, h3, h4⟩ :=
            ih _ _ (by rw [hr, hpost, append_assoc]) h
          refine ⟨⟨p, entry, he, hfits⟩ :: rs, rest, ?_, ?_, ?_, ?_⟩
          · rw [hpost, h1]
            simp [frames]
          · rw [h2]
            simp
          · rw [length_cons]
            omega
          · rw [h4]
            simp only [map_cons, frames, length_append]
            omega
    · rw [scanLoop_stop hv] at h
      have hscan : scan = ⟨es, n, pre.length⟩ := by
        split at h
        · cases hs : refuseIfSurvivors C region dek pre.length n with
          | error e =>
            rw [hs] at h
            cases h
          | ok u =>
            rw [hs] at h
            cases h
            rfl
        · cases h
          rfl
      subst hscan
      exact ⟨[], post, rfl, by simp, rfl, rfl⟩

theorem scanRecords_ok {scan} (h : scanRecords C region dek = .ok scan) :
    ∃ (rs : List Record) (rest : Bytes), region = frames C dek 0 (rs.map payload) ++ rest ∧
      scan.entries = rs.map entry ∧ scan.count = rs.length ∧
      scan.validLen = (frames C dek 0 (rs.map payload)).length := by
  obtain ⟨rs, rest, h1, h2, h3, h4⟩ :=
    scanLoop_ok [] _ rfl h
  exact ⟨rs, rest, h1, by simpa using h2, by simpa using h3, by simpa using h4⟩

theorem scanRecords_clean (rs : List Record) : scanRecords C (frames C dek 0 (rs.map payload)) dek =
      .ok ⟨rs.map entry, rs.length, (frames C dek 0 (rs.map payload)).length⟩ := by
  obtain ⟨fuel, h⟩ := scanRecords_frames rs (append_nil _).symm
  rw [h, scanLoop, if_neg (by omega)]

end

end Hearth.Wal
