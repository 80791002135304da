import Hearth.Wal.Open

/-!
# Damage inside a segment

A segment held the records `rs`; the frames numbered `f` to `j`, from the first
one that is no longer in its place, were replaced by arbitrary bytes of any
length, and the frames behind them are as they were written. The open must
refuse such a file rather than cut off the intact frames.

`damaged_refused_iff` says when it does, `wide_damage_truncates` where it does not.

Where the file grew before its last data reached the disk, its records are
followed by part of a frame and zero bytes; the open should cut these off.
`zero_filled_tail_truncated_iff` says when it does; over eight zero bytes it fails
(`zero_filled_tail_refused`).
-/

namespace Hearth.Wal

open Base List Record

variable (C : Cipher) (dek : C.Dek) (rs : List Record)

/-- The record region after the frames `f` to `j` of a segment holding `rs` were replaced by
`damage` (inserted before frame `f`, when `f = j + 1`). -/
def damagedRegion (f j : Nat) (damage : Bytes) : Bytes :=
  frames C dek 0 ((rs.take f).map payload) ++
    (damage ++ frames C dek (j + 1) ((rs.drop (j + 1)).map payload))

/-- Where frame `f` starts. -/
def frameStart (f : Nat) : Nat := (frames C dek 0 ((rs.take f).map payload)).length

/-- Ideal authenticated encryption: no bytes of `region` authenticate as record `n` except the
ciphertext of record `n`. -/
def Ideal (region : Bytes) : Prop :=
  ∀ pos n p, C.decryptSection dek n (payloadAt region pos) = .ok p →
    ∃ r, rs[n]? = some r ∧ payloadAt region pos = C.encryptSection dek n r.payload

/-- Frame `m` stands, byte for byte, at offset `off`. -/
def StandsAt (region : Bytes) (m off : Nat) : Prop :=
  ∃ r post, rs[m]? = some r ∧ off ≤ region.length ∧
    region.drop off = frame C dek m r.payload ++ post

section

variable {C : Cipher} {dek : C.Dek} {rs : List Record} {region : Bytes}

theorem StandsAt.reads {m off} (h : StandsAt C dek rs region m off) :
    16 ≤ leNat (slice region off 4) ∧ CrcValidAt C region off ∧
      ∃ p, C.decryptSection dek m (payloadAt region off) = .ok p := by
  obtain ⟨r, post, -, hoff, hd⟩ := h
  have hlen : (region.take off).length = off := by
    rw [length_take]
    omega
  have hsplit : region = region.take off ++ (frame C dek m r.payload ++ post) := by
    rw [← hd, take_append_drop]
  obtain ⟨hv, hp, hl⟩ := crcValidAt_of_frame (length_sealed r m) hsplit
  rw [hlen] at hv hp hl
  refine ⟨by rw [hl, C.length_encrypt]; omega, hv, r.payload, ?_⟩
  rw [hp, C.decrypt_encrypt]

/-- Under ideal encryption a CRC-valid frame that decrypts at `m` is frame `m`. -/
theorem standsAt_of_reads (hideal : Ideal C dek rs region) {m off p}
    (hv : CrcValidAt C region off) (hp : C.decryptSection dek m (payloadAt region off) = .ok p) :
    StandsAt C dek rs region m off := by
  obtain ⟨r, hr, hct⟩ := hideal off m p hp
  obtain ⟨-, post, hsplit⟩ := frame_of_crcValidAt hv
  have hoff : off ≤ region.length := by
    have := hv.1
    omega
  refine ⟨r, post, hr, hoff, ?_⟩
  have htake : (region.take off).length = off := by
    rw [length_take]
    omega
  conv => lhs; rw [hsplit]
  rw [drop_left' htake, frame, ← hct]

/-- A survivor of the probe is a standing frame of its window, and the other way round. -/
theorem survivorAt_iff (hideal : Ideal C dek rs region) {f off} :
    SurvivorAt C region dek (f + 1) off ↔
      ∃ m, f < m ∧ m ≤ f + survivorProbeWindow ∧ StandsAt C dek rs region m off := by
  constructor
  · rintro ⟨-, hv, hauth⟩
    obtain ⟨m, hm, hd⟩ := any_eq_true.1 hauth
    rw [mem_range'_1] at hm
    cases hdec : C.decryptSection dek m (payloadAt region off) with
    | error e =>
      rw [hdec] at hd
      cases hd
    | ok p => exact ⟨m, by omega, by omega, standsAt_of_reads hideal hv hdec⟩
  · rintro ⟨m, hlt, hle, hs⟩
    obtain ⟨h16, hv, p, hp⟩ := hs.reads
    refine ⟨h16, hv, any_eq_true.2 ⟨m, ?_, ?_⟩⟩
    · rw [mem_range'_1]
      omega
    · rw [hp]
      rfl

/-- The open refuses a damaged segment, leaving its bytes alone, exactly when the bytes at the
damage read as a frame or an intact frame behind it is numbered at most
`survivorProbeWindow` above the first damaged one. -/
theorem damaged_refused_iff {encHeader : Bytes} (h76 : encHeader.length = 76)
    (hdek : C.unwrapDek encHeader = .ok dek) (i : Nat) {f j : Nat} {damage : Bytes} (hfj : f ≤ j + 1)
    (hj : j + 1 < rs.length) (hideal : Ideal C dek rs (damagedRegion C dek rs f j damage))
    (hdam : ¬ StandsAt C dek rs (damagedRegion C dek rs f j damage) f (frameStart C dek rs f)) :
    ((∃ e, openWithFs C i (segmentHeader encHeader ++ damagedRegion C dek rs f j damage) =
        .error e) ∧
      fileAfterOpen C i (segmentHeader encHeader ++ damagedRegion C dek rs f j damage) =
        segmentHeader encHeader ++ damagedRegion C dek rs f j damage) ↔
      CrcValidAt C (damagedRegion C dek rs f j damage) (frameStart C dek rs f) ∨
      ∃ m off, f < m ∧ m ≤ f + survivorProbeWindow ∧ frameStart C dek rs f < off ∧
        StandsAt C dek rs (damagedRegion C dek rs f j damage) m off := by
  rw [open_refused_iff h76 hdek]
  -- the scan stops right behind the intact frames before the damage
  have hreg : damagedRegion C dek rs f j damage =
      frames C dek 0 ((rs.take f).map payload) ++ _ := rfl
  obtain ⟨fuel, hscan⟩ := scanRecords_frames _ hreg
  rw [length_take, min_eq_left (by omega)] at hscan
  change scanRecords _ _ _ = scanLoop _ _ _ _ (frameStart C dek rs f) _ _ at hscan
  rw [hscan]
  by_cases hv : CrcValidAt C (damagedRegion C dek rs f j damage) (frameStart C dek rs f)
  · -- a frame reads here, and it is not frame `f`: decryption fails
    refine ⟨fun _ => .inl hv, fun _ => ?_⟩
    rw [scanLoop_valid hv]
    cases hdec : C.decryptSection dek f
        _ with
    | error e => exact ⟨e, rfl⟩
    | ok p => exact absurd (standsAt_of_reads hideal hv hdec) hdam
  · have h4 : frameStart C dek rs f + 4 ≤ (damagedRegion C dek rs f j damage).length := by
      have h := length_frames_ge C dek (j + 1) ((rs.drop (j + 1)).map payload)
      rw [length_map, length_drop] at h
      simp only [damagedRegion, frameStart, length_append]
      omega
    rw [scanLoop_stop hv, if_pos h4, exists_map_eq_error, refuse_iff]
    constructor
    · rintro ⟨o, ho, hs⟩
      obtain ⟨m, hlt, hle, hst⟩ := (survivorAt_iff hideal).1 hs
      exact .inr ⟨m, o, hlt, hle, ho, hst⟩
    · rintro (hc | ⟨m, o, hlt, hle, ho, hst⟩)
      · exact absurd hc hv
      · exact ⟨o, ho, (survivorAt_iff hideal).2 ⟨m, hlt, hle, hst⟩⟩

end

/-! ## Damage wider than the probe -/

def emptyPut : Record := emptyRecord .put

/-- A segment of 34 records whose frames 0 to 32 were replaced by one zero byte; frame 33 is
as it was written. -/
def wideRegion : Bytes := damagedRegion tagCipher (0 : UInt8) (replicate 34 emptyPut) 0 32 [0]

/-- One window of the region holds the ciphertext of a record, and no other carries the marker of a
tag. -/
theorem ideal_of_windows {rs : List Record} {region : Bytes} {off num : Nat} {r : Record}
    (hnum : num < 2 ^ 64) (hr : rs[num]? = some r)
    (hoff : payloadAt region off = tagCipher.encryptSection (0 : UInt8) num r.payload)
    (hwindows : ∀ pos < region.length, pos ≠ off → (payloadAt region pos).length < 16 ∨
      ((payloadAt region pos).drop ((payloadAt region pos).length - 16)).head? ≠ some 0xa5) :
    Ideal tagCipher (0 : UInt8) rs region := by
  intro pos n p h
  have htag := tagCipher_tag h
  have h16 : 16 ≤ (payloadAt region pos).length := by
    have hlen : (payloadAt region pos).length = p.length + 16 :=
      (congrArg length (tagCipher.encrypt_decrypt _ n _ p h)).trans (tagCipher.length_encrypt _ n p)
    omega
  have hpos : pos = off := by
    by_contra hne
    rcases lt_or_ge pos region.length with hlt | hge
    · rcases hwindows pos hlt hne with hs | hm
      · omega
      · exact hm (by rw [htag]; rfl)
    · have hnil : payloadAt region pos = [] := by
        rw [payloadAt, slice, drop_eq_nil_of_le (by omega), take_nil]
      rw [hnil] at h16
      cases h16
  subst hpos
  have hn : n = num := by
    have hdec := tagCipher.decrypt_encrypt (0 : UInt8) num r.payload
    rw [← hoff] at hdec
    have htags := htag.symm.trans (tagCipher_tag hdec)
    simp only [recordTag, cons.injEq, true_and] at htags
    have hnums := congrArg leNat htags
    rw [leNat_leBytes (lt_of_le_of_lt (min_le_right _ _) (by decide)),
      leNat_leBytes (lt_of_le_of_lt (min_le_right _ _) (by decide))] at hnums
    omega
  subst hn
  exact ⟨r, hr, hoff⟩

theorem wideRegion_ideal : Ideal tagCipher (0 : UInt8) (replicate 34 emptyPut) wideRegion :=
  @ideal_of_windows _ _ 1 33 _ (by decide) rfl (by decide +kernel) (by decide +kernel)

/-- Frame 33 is intact, the 33 frames before it are damaged, and the open succeeds by replacing
the segment with an empty one. -/
theorem wide_damage_truncates : Ideal tagCipher (0 : UInt8) (replicate 34 emptyPut) wideRegion ∧
    ¬ CrcValidAt tagCipher wideRegion 0 ∧
    StandsAt tagCipher (0 : UInt8) (replicate 34 emptyPut) wideRegion 33 1 ∧
    (openWithFs tagCipher 1
      (segmentHeader (tagCipher.wrapDek 0 (0 : UInt8)) ++ wideRegion)).isOk = true ∧
    fileAfterOpen tagCipher 1 (segmentHeader (tagCipher.wrapDek 0 (0 : UInt8)) ++ wideRegion) =
      segmentHeader (tagCipher.wrapDek 1 (1 : UInt8)) := by
  refine ⟨wideRegion_ideal, by decide +kernel, ⟨emptyPut, [], rfl, ?_, ?_⟩, ?_, ?_⟩ <;>
    decide +kernel

theorem damaged_refused_iff_wide : ¬ ((∃ e, openWithFs tagCipher 1
        (segmentHeader (tagCipher.wrapDek 0 (0 : UInt8)) ++ wideRegion) = .error e) ∧
      fileAfterOpen tagCipher 1 (segmentHeader (tagCipher.wrapDek 0 (0 : UInt8)) ++ wideRegion) =
        segmentHeader (tagCipher.wrapDek 0 (0 : UInt8)) ++ wideRegion) ↔
    ¬ (CrcValidAt tagCipher wideRegion 0 ∨ ∃ m off, 0 < m ∧ m ≤ 0 + survivorProbeWindow ∧ 0 < off ∧
        StandsAt tagCipher (0 : UInt8) (replicate 34 emptyPut) wideRegion m off) := by
  have hdam : ¬ StandsAt tagCipher (0 : UInt8) (replicate 34 emptyPut) wideRegion 0 0 :=
    fun hs => absurd hs.reads.2.1 (by decide +kernel)
  exact not_congr (damaged_refused_iff (tagCipher.length_wrap 0 _) rfl 1 (by decide)
    (by decide) wideRegion_ideal hdam)

/-! ## A tail of zero bytes -/

/-- The record region of a segment that holds `rs`, with the first `k` bytes of the frame of the
next record and `zeros` zero bytes behind them: the file grew before its data was written. -/
def zeroFilledRegion (C : Cipher) (dek : C.Dek) (rs : List Record) (next : Record) (k zeros : Nat) : Bytes :=
  frames C dek 0 (rs.map payload) ++
    ((frame C dek rs.length next.payload).take k ++ replicate zeros 0)

section

variable {C : Cipher} {dek : C.Dek} {rs : List Record} {next : Record} {region encHeader : Bytes} {k zeros : Nat}

/-- No record behind the last one that was sealed can be found. -/
theorem no_survivor (hideal : Ideal C dek (rs ++ [next]) region) (off : Nat) :
    ¬SurvivorAt C region dek (rs.length + 1) off := by
  intro hs
  obtain ⟨m, hlt, -, r, -, hr, -⟩ := (survivorAt_iff hideal).1 hs
  have hm := (List.getElem?_eq_some_iff.1 hr).1
  rw [length_append, length_singleton] at hm
  omega

/-- The scan ends behind `rs` exactly when no CRC-valid frame follows. -/
theorem scan_ends_iff (hideal : Ideal C dek (rs ++ [next]) region) {rest : Bytes}
    (hr : region = frames C dek 0 (rs.map payload) ++ rest) :
    scanRecords C region dek = .ok ⟨rs.map entry, rs.length, (frames C dek 0 (rs.map payload)).length⟩ ↔
      ¬CrcValidAt C region (frames C dek 0 (rs.map payload)).length := by
  obtain ⟨fuel, hscan⟩ := scanRecords_frames rs hr
  rw [hscan]
  constructor
  · intro h hv
    rw [scanLoop_valid hv] at h
    split at h
    · cases h
    · split at h
      · cases h
      · -- the record read here is counted
        obtain ⟨rs', -, -, -, hcount, -⟩ := scanLoop_ok _ _ (take_append_drop _ _).symm
          (by rw [length_take_of_le]; exact h; exact hv.1)
        simp only at hcount
        omega
  · intro hv
    rw [scanLoop_stop hv]
    split
    · cases hs : refuseIfSurvivors C region dek (frames C dek 0 (rs.map payload)).length rs.length with
      | ok => rfl
      | error e =>
        obtain ⟨off, -, hoff⟩ := (refuse_iff _ _).1 ⟨e, hs⟩
        exact absurd hoff (no_survivor hideal off)
    · rfl

/-- The open cuts a zero-filled tail off, and returns exactly the records before it, unless the tail reads
as a frame whose CRC verifies. -/
theorem zero_filled_tail_truncated_iff (h76 : encHeader.length = 76) (hdek : C.unwrapDek encHeader = .ok dek)
    (hideal : Ideal C dek (rs ++ [next]) (zeroFilledRegion C dek rs next k zeros)) (i : Nat) :
    (scanRecords C (zeroFilledRegion C dek rs next k zeros) dek =
        .ok ⟨rs.map entry, rs.length, (frames C dek 0 (rs.map payload)).length⟩ ∧
      (openWithFs C i (segmentHeader encHeader ++ zeroFilledRegion C dek rs next k zeros)).isOk = true) ↔
      ¬CrcValidAt C (zeroFilledRegion C dek rs next k zeros) (frames C dek 0 (rs.map payload)).length := by
  rw [← scan_ends_iff hideal rfl]
  refine ⟨And.left, fun hscan => ⟨hscan, ?_⟩⟩
  rw [openWithFs, segmentHeader, recover_versioned h76 le_rfl hdek, hscan]
  rfl

end

/-- The tags of `tagCipher` with a checksum that is zero on no bytes, as CRC-32 is. -/
def sumCipher : Cipher :=
  { tagCipher with
    crc32 := fun bs => bs.foldl (fun a b => a + b.toNat) 0 % 2 ^ 32
    crc32_lt := fun _ => Nat.mod_lt _ (by decide) }

/-- One record, two bytes of the next frame, and seven zero bytes. -/
def tornRegion : Bytes := zeroFilledRegion sumCipher (0 : UInt8) [emptyPut] emptyPut 2 7

theorem zero_filled_tail_truncated_iff_one :
    scanRecords sumCipher tornRegion (0 : UInt8) =
        .ok ⟨[entry emptyPut], 1, (frame sumCipher (0 : UInt8) 0 emptyPut.payload).length⟩ ∧
      (openWithFs sumCipher 1 (segmentHeader (sumCipher.wrapDek 0 (0 : UInt8)) ++ tornRegion)).isOk = true := by
  -- the two ciphers differ in the checksum only
  have hideal : Ideal sumCipher (0 : UInt8) [emptyPut, emptyPut] tornRegion :=
    @ideal_of_windows _ tornRegion 0 0 _ (by decide) rfl (by decide +kernel) (by decide +kernel)
  exact (zero_filled_tail_truncated_iff (sumCipher.length_wrap 0 _) rfl hideal 1).2 (by decide +kernel)

/-- Eight zero bytes are a frame of no bytes whose checksum verifies. They do not decrypt, and the open fails. -/
theorem zero_filled_tail_refused :
    (scanRecords sumCipher (zeroFilledRegion sumCipher (0 : UInt8) [] emptyPut 0 8) (0 : UInt8)).isOk = false ∧
    (openWithFs sumCipher 1 (segmentHeader (sumCipher.wrapDek 0 (0 : UInt8)) ++
      zeroFilledRegion sumCipher (0 : UInt8) [] emptyPut 0 8)).isOk = false := by
  constructor <;> decide +kernel

end Hearth.Wal
