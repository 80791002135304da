import Hearth.Wal.Scan

/-!
# Opening a segment

`Wal::open_with_fs` as a function of the file's bytes, with the repair of a
partial header, the migration of a v0 file and the rebuild of a torn segment.
No I/O fault occurs inside it here; faults are part of the commit.

Results: `open_v1`: on a v1 segment the open is decided by the scan alone;
`open_refused_iff`: it refuses exactly when the scan does, and then leaves the
file as it was.
-/

namespace Hearth.Wal

open Base List Record

/-- `WAL_MAGIC`, the bytes of `HWAL`. -/
def walMagic : Bytes := [0x48, 0x57, 0x41, 0x4c]

/-- `WAL_VERSION_CURRENT`. -/
def walVersionCurrent : Nat := 1

/-- Magic, version and encryption header: the first 82 bytes of a versioned segment. -/
def versionedHeader (version : Nat) (encHeader : Bytes) : Bytes :=
  walMagic ++ (leBytes 2 version ++ encHeader)

def segmentHeader (encHeader : Bytes) : Bytes := versionedHeader walVersionCurrent encHeader

/-- An open WAL: the bytes of its file and its `RotationState`. -/
structure Segment (C : Cipher) where
  content : Bytes
  dek : C.Dek
  encHeader : Bytes
  recordCounter : Nat

section

variable (C : Cipher) (file : Bytes)

/-- `repair_partial_header`: a file too short to hold its header is emptied. -/
def repairPartialHeader : Bytes :=
  if file.length = 0 ∨ recordOffset ≤ file.length then file
  else if walMagic.isPrefixOf file || file.length < 76 then []
  else file

variable (i : Nat)

/-- `write_fresh_header` with the `i`-th generated key. -/
def writeFreshHeader : Segment C :=
  let dek := C.generateDek i
  let encHeader := C.wrapDek i dek
  { content := segmentHeader encHeader, dek := dek, encHeader := encHeader, recordCounter := 0 }

/-- `rebuild_truncated_segment`: the surviving entries, sealed again from record 0 on under
the `i`-th generated key. -/
def rebuildTruncatedSegment (scan : RecordScan) : Segment C :=
  let dek := C.generateDek i
  let encHeader := C.wrapDek i dek
  { content := segmentHeader encHeader ++ frames C dek 0 (scan.entries.map WalEntry.serialize)
    dek := dek, encHeader := encHeader, recordCounter := scan.count }

/-- The v1 form of the file's bytes: checked if it carries the magic, else migrated from v0. -/
def versioned : Except StorageError Bytes :=
  if walMagic.isPrefixOf file then
    if file.length < 6 then .error (.crypto "WAL version header is truncated")
    else if walVersionCurrent < leNat (slice file 4 2) then
      .error (.unsupportedWalVersion (leNat (slice file 4 2)))
    else .ok file
  else .ok (walMagic ++ (leBytes 2 walVersionCurrent ++ file))

/-- How `open_with_fs` goes on from the bytes it finds: a fresh header, the segment as it is,
or a rebuild from the records before a torn tail. -/
inductive Recovery (C : Cipher)
  | fresh
  | kept (wal : Segment C)
  | torn (scan : RecordScan)

/-- The part of `open_with_fs` that reads: repair, version check, key and scan. -/
def recover : Except StorageError (Recovery C) :=
  if repairPartialHeader file = [] then .ok .fresh
  else do
    let allData ← versioned (repairPartialHeader file)
    if allData.length < recordOffset then
      .error (.crypto s!"WAL file too small for headers: {allData.length} bytes")
    else
      let encHeader := slice allData 6 76
      let dek ← C.unwrapDek encHeader
      let recordData := allData.drop recordOffset
      let scan ← scanRecords C recordData dek
      if scan.validLen = recordData.length then
        return .kept { content := allData, dek := dek, encHeader := encHeader
                       recordCounter := scan.count }
      else return .torn scan

/-- The segment a recovery ends with; `i` numbers the next generated key. -/
def Recovery.segment {C : Cipher} (i : Nat) : Recovery C → Segment C
  | .fresh => writeFreshHeader C i
  | .kept wal => wal
  | .torn scan => rebuildTruncatedSegment C i scan

/-- `open_with_fs` on a file with these bytes. -/
def openWithFs (file : Bytes) : Except StorageError (Segment C) :=
  (recover C file).map (Recovery.segment i)

/-- The file's bytes after `open_with_fs`. -/
def fileAfterOpen (file : Bytes) : Bytes :=
  match openWithFs C i file with
  | .ok wal => wal.content
  | .error _ => repairPartialHeader file

/-- `read_all`. -/
def Segment.readAll {C : Cipher} (wal : Segment C) : Except StorageError (List WalEntry) :=
  if wal.content.length ≤ recordOffset then .ok []
  else (scanRecords C (wal.content.drop recordOffset) wal.dek).map (·.entries)

end

/-! ## Opening a versioned segment -/

section

variable {C : Cipher} {version : Nat} {encHeader region : Bytes} {dek : C.Dek}

@[simp] theorem length_versionedHeader :
    (versionedHeader version encHeader).length = encHeader.length + 6 := by
  simp only [versionedHeader, walMagic, length_append, length_cons, length_leBytes, length_nil]
  omega

theorem isPrefixOf_versionedHeader :
    walMagic.isPrefixOf (versionedHeader version encHeader ++ region) = true := by
  exact isPrefixOf_iff_prefix.2 (prefix_append _ _)

section

variable (h : encHeader.length = 76)

include h

theorem repair_versioned : repairPartialHeader (versionedHeader version encHeader ++ region) =
      versionedHeader version encHeader ++ region := by
  unfold repairPartialHeader
  rw [if_pos]
  rw [length_append, length_versionedHeader, recordOffset]
  omega

theorem versioned_versioned (hver : version ≤ walVersionCurrent) :
    versioned (versionedHeader version encHeader ++ region) =
      .ok (versionedHeader version encHeader ++ region) := by
  have hv : leNat (slice (versionedHeader version encHeader ++ region) 4 2) = version := by
    have hslice : slice (versionedHeader version encHeader ++ region) 4 2 = leBytes 2 version := by
      rw [versionedHeader, append_assoc]
      exact slice_append_left rfl (length_leBytes 2 _).symm
    rw [hslice]
    exact leNat_leBytes (lt_of_le_of_lt hver (by decide))
  unfold versioned
  rw [if_pos isPrefixOf_versionedHeader, if_neg, if_neg (by omega)]
  rw [length_append, length_versionedHeader]
  omega

theorem slice_versionedHeader :
    slice (versionedHeader version encHeader ++ region) 6 76 = encHeader := by
  rw [versionedHeader, append_assoc, append_assoc]
  refine slice_append_left ?_ h.symm
  rfl

theorem drop_versionedHeader :
    (versionedHeader version encHeader ++ region).drop recordOffset = region := by
  refine drop_left' ?_
  rw [length_versionedHeader, h]
  rfl

theorem recover_versioned (hver : version ≤ walVersionCurrent)
    (hdek : C.unwrapDek encHeader = .ok dek) :
    recover C (versionedHeader version encHeader ++ region) =
      (scanRecords C region dek).map fun scan =>
        if scan.validLen = region.length then
          .kept ⟨versionedHeader version encHeader ++ region, dek, encHeader, scan.count⟩
        else .torn scan := by
  have hne : versionedHeader version encHeader ++ region ≠ [] := by
    simp [versionedHeader, walMagic]
  have hlen : ¬ (versionedHeader version encHeader ++ region).length < recordOffset := by
    rw [length_append, length_versionedHeader, recordOffset]
    omega
  unfold recover
  rw [repair_versioned h, if_neg hne, versioned_versioned h hver]
  simp only [bind, Except.bind, hlen, if_false, slice_versionedHeader h, hdek,
    drop_versionedHeader h]
  cases scanRecords C region dek with
  | error e => rfl
  | ok scan =>
    simp only [Except.map]
    split <;> rfl

/-- On a segment with an intact header the open refuses exactly when the scan does; the file
then keeps its bytes. -/
theorem open_refused_iff (hdek : C.unwrapDek encHeader = .ok dek) (i : Nat) :
    ((∃ e, openWithFs C i (segmentHeader encHeader ++ region) = .error e) ∧
      fileAfterOpen C i (segmentHeader encHeader ++ region) = segmentHeader encHeader ++ region) ↔
      ∃ e, scanRecords C region dek = .error e := by
  unfold fileAfterOpen openWithFs segmentHeader
  rw [recover_versioned h le_rfl hdek]
  cases scanRecords C region dek with
  | error e => exact ⟨fun _ => ⟨e, rfl⟩, fun _ => ⟨⟨e, rfl⟩, repair_versioned h⟩⟩
  | ok scan => exact ⟨fun ⟨⟨e, he⟩, _⟩ => (nomatch he), fun ⟨e, he⟩ => (nomatch he)⟩

end

/-! ## What an open segment holds -/

/-- The file holds the header of `dek` and then exactly the records `rs`. -/
structure Holds (C : Cipher) (file : Bytes) (dek : C.Dek) (rs : List Record) : Prop where
  header : ∃ version encHeader, version ≤ walVersionCurrent ∧ encHeader.length = 76 ∧
    C.unwrapDek encHeader = .ok dek ∧
    file = versionedHeader version encHeader ++ frames C dek 0 (rs.map payload)

theorem holds_fresh (i : Nat) (dek : C.Dek) : Holds C (segmentHeader (C.wrapDek i dek)) dek [] :=
  ⟨walVersionCurrent, C.wrapDek i dek, le_rfl, C.length_wrap i dek, C.unwrap_wrap i dek,
    by simp [segmentHeader, frames]⟩

variable {wal : Segment C} {rs : List Record} {file : Bytes}

theorem Holds.append (h : Holds C file dek rs) (rs' : List Record) :
    Holds C (file ++ frames C dek rs.length (rs'.map payload)) dek (rs ++ rs') := by
  obtain ⟨version, encHeader, hver, h76, hdek, hfile⟩ := h.header
  refine ⟨version, encHeader, hver, h76, hdek, ?_⟩
  rw [hfile, map_append, frames_append, append_assoc, zero_add, length_map]

theorem Holds.readAll (h : Holds C wal.content wal.dek rs) : wal.readAll = .ok (rs.map entry) := by
  obtain ⟨version, encHeader, -, h76, -, hfile⟩ := h.header
  unfold Segment.readAll
  rw [hfile, drop_versionedHeader h76, scanRecords_clean]
  split
  · next hle =>
    rw [length_append, length_versionedHeader, recordOffset] at hle
    have hge := length_frames_ge C wal.dek 0 (rs.map payload)
    rw [length_map] at hge
    have hnil : rs = [] := length_eq_zero_iff.1 (by omega)
    rw [hnil]
    rfl
  · rfl

theorem Holds.recover_eq (h : Holds C file dek rs) :
    ∃ encHeader, recover C file = .ok (.kept ⟨file, dek, encHeader, rs.length⟩) := by
  obtain ⟨version, encHeader, hver, h76, hdek, hfile⟩ := h.header
  rw [hfile, recover_versioned h76 hver hdek, scanRecords_clean]
  simp [Except.map]

theorem holds_rebuilt (i : Nat) (rs : List Record) (n valid : Nat) :
    Holds C (rebuildTruncatedSegment C i ⟨rs.map entry, n, valid⟩).content
      (C.generateDek i) (rs.map .reserialized) := by
  refine ⟨walVersionCurrent, C.wrapDek i _, le_rfl, C.length_wrap _ _, C.unwrap_wrap _ _, ?_⟩
  simp only [rebuildTruncatedSegment, map_map]
  rfl

/-- The bytes the open works on start with magic, a supported version and 76 header bytes. -/
theorem versioned_head {allData} (h : versioned file = .ok allData)
    (hlen : ¬ allData.length < recordOffset) :
    ∃ version, version ≤ walVersionCurrent ∧
      allData = versionedHeader version (slice allData 6 76) ++ allData.drop recordOffset := by
  have hsplit : ∀ version, slice allData 0 4 = walMagic → slice allData 4 2 = leBytes 2 version →
      allData = versionedHeader version (slice allData 6 76) ++ allData.drop recordOffset := by
    intro version h1 h2
    rw [versionedHeader, ← h1, ← h2, append_assoc, append_assoc]
    have := drop_eq_slice_append allData 0 4
    rw [drop_zero] at this
    conv => lhs; rw [this, drop_eq_slice_append _ 4 2, drop_eq_slice_append _ 6 76]
    rfl
  unfold versioned at h
  split at h
  · next hmagic =>
    split at h
    · cases h
    · next h6 =>
      split at h
      · cases h
      · next hver =>
        cases h
        refine ⟨leNat (slice file 4 2), by omega, hsplit _ ?_ ?_⟩
        · obtain ⟨post, hp⟩ := isPrefixOf_iff_prefix.1 hmagic
          rw [← hp]
          rfl
        · exact (leBytes_leNat (length_slice (by omega))).symm
  · cases h
    exact ⟨walVersionCurrent, le_rfl, hsplit _ rfl rfl⟩

/-- What a recovery that does not fail has seen. -/
theorem recover_cases {r} (h : recover C file = .ok r) :
    (repairPartialHeader file = [] ∧ r = .fresh) ∨
    ∃ allData dek scan, versioned (repairPartialHeader file) = .ok allData ∧
      ¬ allData.length < recordOffset ∧ C.unwrapDek (slice allData 6 76) = .ok dek ∧
      scanRecords C (allData.drop recordOffset) dek = .ok scan ∧
      ((scan.validLen = (allData.drop recordOffset).length ∧
          r = .kept ⟨allData, dek, slice allData 6 76, scan.count⟩) ∨
        (scan.validLen ≠ (allData.drop recordOffset).length ∧ r = .torn scan)) := by
  unfold recover at h
  split at h
  · next hnil =>
    cases h
    exact .inl ⟨hnil, rfl⟩
  · cases hv : versioned (repairPartialHeader file) with
    | error e => simp [hv] at h
    | ok allData =>
      simp only [hv, bind, Except.bind] at h
      split at h
      · cases h
      · next hlen =>
        cases hd : C.unwrapDek (slice allData 6 76) with
        | error e => simp [hd] at h
        | ok dek =>
          cases hs : scanRecords C (allData.drop recordOffset) dek with
          | error e => simp [hd, hs] at h
          | ok scan =>
            simp only [hd, hs] at h
            refine .inr ⟨allData, dek, scan, rfl, hlen, hd, hs, ?_⟩
            split at h
            · next hclean =>
              cases h
              exact .inl ⟨hclean, rfl⟩
            · next hclean =>
              cases h
              exact .inr ⟨hclean, rfl⟩

/-- A segment that is kept held whole records only, and is left as it was found. -/
theorem recover_kept (h : recover C file = .ok (.kept wal)) :
    versioned (repairPartialHeader file) = .ok wal.content ∧
      C.unwrapDek (slice wal.content 6 76) = .ok wal.dek ∧
      ∃ rs, wal.content.drop recordOffset = frames C wal.dek 0 (rs.map payload) ∧
        Holds C wal.content wal.dek rs ∧ wal.recordCounter = rs.length := by
  obtain ⟨-, hr⟩ | ⟨allData, dek, scan, hv, hlen, hd, hs, ⟨hclean, hr⟩ | ⟨-, hr⟩⟩ := recover_cases h
  · cases hr
  · cases hr
    obtain ⟨rs, rest, hreg, -, hcount, hvalid⟩ := scanRecords_ok hs
    have hrest : rest = [] := by
      rw [hreg, length_append] at hclean
      exact length_eq_zero_iff.1 (by omega)
    rw [hrest, append_nil] at hreg
    refine ⟨hv, hd, rs, hreg, ⟨?_⟩, hcount⟩
    obtain ⟨version, hver, hhead⟩ := versioned_head hv hlen
    have h76 : (slice allData 6 76).length = 76 := by
      rw [recordOffset] at hlen
      exact length_slice (by omega)
    exact ⟨version, slice _ 6 76, hver, h76, hd, hreg ▸ hhead⟩
  · cases hr

theorem recover_torn {scan} (h : recover C file = .ok (.torn scan)) :
    ∃ rs : List Record, scan.entries = rs.map entry ∧ scan.count = rs.length := by
  obtain ⟨-, hr⟩ | ⟨allData, dek, scan', -, -, -, hs, ⟨-, hr⟩ | ⟨-, hr⟩⟩ := recover_cases h
  · cases hr
  · cases hr
  · cases hr
    obtain ⟨rs, rest, -, hent, hcount, -⟩ := scanRecords_ok hs
    exact ⟨rs, hent, hcount⟩

end

/-! ## A concrete cipher -/

/-- The tag of `tagCipher`: a marker, the key and the record number. -/
def recordTag (dek : UInt8) (n : Nat) : Bytes := 0xa5 :: dek :: leBytes 14 (min n (2 ^ 64))

/-- A cipher that leaves the payload readable and appends a tag that names key and record
number. It satisfies the laws of `Cipher` and is used for concrete runs. -/
def tagCipher : Cipher where
  Dek := UInt8
  encryptSection dek n p := p ++ recordTag dek n
  decryptSection dek n c :=
    if 16 ≤ c.length ∧ c.drop (c.length - 16) = recordTag dek n then .ok (c.take (c.length - 16))
    else .error (.crypto "data decryption failed — wrong DEK or corrupted data")
  crc32 bs := bs.foldl (fun a b => a + b.toNat) 1 % 2 ^ 32
  generateDek i := .ofNat i
  wrapDek _ dek := dek :: replicate 75 0
  unwrapDek h := match h with
    | dek :: _ => .ok dek
    | [] => .error (.crypto "DEK unwrapping failed — wrong KEK or corrupted header")
  length_encrypt := by simp [recordTag]
  decrypt_encrypt := by
    intro dek n p
    have hlen : (p ++ recordTag dek n).length - 16 = p.length := by simp [recordTag]
    rw [hlen, drop_left, take_left, if_pos]
    simp [recordTag]
  encrypt_decrypt := by
    intro dek n c p h
    split at h
    · next hc =>
      cases h
      rw [← hc.2, take_append_drop]
    · cases h
  crc32_lt := fun bs => Nat.mod_lt _ (by decide)
  length_wrap := by simp
  unwrap_wrap := fun _ _ => rfl

theorem tagCipher_tag {dek n c p}
    (h : tagCipher.decryptSection dek n c = .ok p) : c.drop (c.length - 16) = recordTag dek n := by
  simp only [tagCipher] at h
  split at h
  · next hc => exact hc.2
  · cases h

end Hearth.Wal
