import Hearth.Base.Fallible
import Hearth.Types

/-!
# WAL records

The payload of a WAL record (`WalEntry::serialize`, `WalEntry::deserialize`) and
the nested payload of a batch record (`encode_batch_payload`,
`decode_batch_payload`).

Results: `deserialize_serialize` and `decode_encode_batch`: what is written is
read back, for entries whose lengths fit their 32-bit fields.
`batch_codec_strict_iff`: which batch payloads, cut short or extended, are refused.
-/

namespace Hearth.Wal

open Base List

/-- The type of mutation in a WAL entry. -/
inductive WalOperation
  | put
  | delete
  | batch
  deriving DecidableEq, Repr

/-- A single entry in the write-ahead log. The timestamp is an `i64` of microseconds. -/
structure WalEntry where
  timestamp : BitVec 64
  realmId : RealmId
  operation : WalOperation
  key : Bytes
  value : Bytes
  deriving DecidableEq, Repr

def WalOperation.byte : WalOperation → UInt8
  | .put => 0
  | .delete => 1
  | .batch => 2

def WalOperation.ofByte (b : UInt8) : Except StorageError WalOperation :=
  if b = 0 then .ok .put
  else if b = 1 then .ok .delete
  else if b = 2 then .ok .batch
  else .error (.deserializationFailed s!"unknown operation byte: {b}")

/-- A byte string behind its 32-bit length. -/
def lengthPrefixed (bs : Bytes) : Bytes := leBytes 4 (bs.length % 2 ^ 32) ++ bs

/-- Read a length-prefixed byte string; `noLen` and `noData` are the reasons given when the
length or the bytes are cut short. -/
def readPrefixed (noLen noData : String) (data : Bytes) : Except StorageError (Bytes × Bytes) :=
  match cut 4 data with
  | none => .error (.deserializationFailed noLen)
  | some (len, rest) =>
    match cut (leNat len) rest with
    | none => .error (.deserializationFailed noData)
    | some r => .ok r

namespace WalEntry

def serialize (e : WalEntry) : Bytes :=
  leBytes 8 e.timestamp.toNat ++ (e.realmId.uuid ++ (e.operation.byte ::
    (lengthPrefixed e.key ++ lengthPrefixed e.value)))

/-- `deserialize`; bytes after the value are ignored, as in the source. -/
def deserialize (data : Bytes) : Except StorageError WalEntry :=
  if data.length < 33 then
    .error (.deserializationFailed s!"payload too short: {data.length} bytes")
  else
    match cut 8 data with
    | none => .error (.deserializationFailed "invalid timestamp bytes")
    | some (ts, rest) =>
      if h : 16 < rest.length then do
        let operation ← WalOperation.ofByte rest[16]
        let (key, rest') ← readPrefixed "truncated key length" "truncated key data"
          (rest.drop 17)
        let (value, _) ← readPrefixed "truncated value length" "truncated value data" rest'
        return { timestamp := .ofNat 64 (leNat ts)
                 realmId := ⟨rest.take 16, by rw [length_take]; omega⟩
                 operation := operation, key := key, value := value }
      else .error (.deserializationFailed "invalid UUID bytes")

/-- The two lengths fit their 32-bit fields. -/
def Fits (e : WalEntry) : Prop := e.key.length < 2 ^ 32 ∧ e.value.length < 2 ^ 32

end WalEntry

/-! ## Batch payloads -/

/-- A single sub-operation inside a batch record. -/
structure BatchEntry where
  operation : WalOperation
  key : Bytes
  value : Bytes
  deriving DecidableEq, Repr

def BatchEntry.encode (e : BatchEntry) : Bytes :=
  e.operation.byte :: (lengthPrefixed e.key ++ lengthPrefixed e.value)

/-- `encode_batch_payload`: the count, then every entry; batches cannot nest. -/
def encodeBatchPayload (entries : List BatchEntry) : Except StorageError Bytes :=
  if entries.any (·.operation = .batch) then
    .error (.deserializationFailed "batches cannot nest")
  else .ok (leBytes 4 (entries.length % 2 ^ 32) ++ entries.flatMap BatchEntry.encode)

/-- The operation of a sub-op byte: batches cannot nest. -/
def WalOperation.ofSubOp (b : UInt8) : Except StorageError WalOperation :=
  if b = 0 then .ok .put
  else if b = 1 then .ok .delete
  else .error (.deserializationFailed s!"invalid batch sub-op byte: {b}")

def BatchEntry.decode (data : Bytes) : Except StorageError (BatchEntry × Bytes) :=
  match data with
  | [] => .error (.deserializationFailed "truncated batch sub-op")
  | b :: rest => do
    let operation ← WalOperation.ofSubOp b
    let (key, rest) ← readPrefixed "truncated batch key length" "truncated batch key" rest
    let (value, rest) ← readPrefixed "truncated batch value length" "truncated batch value" rest
    return ({ operation := operation, key := key, value := value }, rest)

open BatchEntry (decode encode)

/-- The loop of `decode_batch_payload`. -/
def decodeEntries : Nat → Bytes → Except StorageError (List BatchEntry)
  | 0, _ => .ok []
  | n + 1, data => do
    let (e, rest) ← decode data
    let es ← decodeEntries n rest
    return e :: es

/-- `decode_batch_payload`; the count is capped by what the data can hold at nine bytes an
entry. -/
def decodeBatchPayload (data : Bytes) : Except StorageError (List BatchEntry) :=
  match cut 4 data with
  | none => .error (.deserializationFailed "batch payload missing count")
  | some (count, rest) => decodeEntries (min (leNat count) ((data.length - 4) / 9)) rest

/-! ## Round trips -/

theorem readPrefixed_append (noLen noData : String) {bs} (h : bs.length < 2 ^ 32)
    (rest) : readPrefixed noLen noData (lengthPrefixed bs ++ rest) = .ok (bs, rest) := by
  have hmod : bs.length % 2 ^ 32 = bs.length := Nat.mod_eq_of_lt h
  unfold readPrefixed lengthPrefixed
  rw [append_assoc, cut_append (length_leBytes _ _).symm]
  simp only [hmod, leNat_leBytes (w := 4) h, cut_append rfl]

@[simp] theorem length_lengthPrefixed (bs) : (lengthPrefixed bs).length = 4 + bs.length := by
  simp [lengthPrefixed]

theorem WalOperation.ofByte_byte (op : WalOperation) : ofByte op.byte = .ok op := by
  cases op <;> rfl

@[simp] theorem WalEntry.length_serialize (e : WalEntry) :
    e.serialize.length = 33 + e.key.length + e.value.length := by
  simp only [serialize, length_append, length_cons, length_leBytes,
    e.realmId.length_uuid, length_lengthPrefixed]
  omega

/-- A record is read back as it was written. -/
theorem WalEntry.deserialize_serialize {e} (h : e.Fits) : deserialize e.serialize = .ok e := by
  have hlen : ¬ e.serialize.length < 33 := by
    rw [length_serialize]
    omega
  unfold deserialize
  rw [if_neg hlen]
  obtain ⟨ts, ⟨uuid, huuid⟩, op, key, value⟩ := e
  obtain ⟨hk, hv⟩ := h
  have hts : leNat (leBytes 8 ts.toNat) = ts.toNat := leNat_leBytes ts.isLt
  simp only [serialize]
  rw [cut_append (length_leBytes _ _).symm]
  have h16 : 16 < (uuid ++ (op.byte :: (lengthPrefixed key ++ lengthPrefixed value))).length := by
    rw [length_append, length_cons]
    omega
  have hop : (uuid ++ (op.byte :: (lengthPrefixed key ++ lengthPrefixed value)))[16] = op.byte := by
    simp [huuid]
  have hdrop : (uuid ++ (op.byte :: (lengthPrefixed key ++ lengthPrefixed value))).drop 17 =
      lengthPrefixed key ++ lengthPrefixed value := by
    rw [show 17 = 16 + 1 from rfl, ← drop_drop, ← huuid, drop_left]
    rfl
  have htake : (uuid ++ (op.byte :: (lengthPrefixed key ++ lengthPrefixed value))).take 16 = uuid := by
    rw [← huuid, take_left]
  have hval := readPrefixed_append "truncated value length" "truncated value data" hv []
  rw [append_nil] at hval
  simp only [h16, hop, hdrop, htake, dif_pos, WalOperation.ofByte_byte, hts, BitVec.ofNat_toNat,
    readPrefixed_append _ _ hk, hval, bind, Except.bind, pure, Except.pure, BitVec.setWidth_eq]

/-- The sub-operation is a put or a delete, and its lengths fit their fields. -/
def BatchEntry.Fits (e : BatchEntry) : Prop :=
  e.operation ≠ .batch ∧ e.key.length < 2 ^ 32 ∧ e.value.length < 2 ^ 32

theorem BatchEntry.decode_encode {e} (h : e.Fits) (rest) :
    decode (e.encode ++ rest) = .ok (e, rest) := by
  obtain ⟨op, key, value⟩ := e
  obtain ⟨hop, hk, hv⟩ := h
  have hbyte : WalOperation.ofSubOp op.byte = .ok op := by
    cases op with
    | put | delete => rfl
    | batch => exact absurd rfl hop
  simp [encode, decode, hbyte, readPrefixed_append _ _ hk, readPrefixed_append _ _ hv]

variable {es : List BatchEntry} {data : Bytes}

theorem decodeEntries_encode (h : ∀ e ∈ es, e.Fits) (more) :
    decodeEntries es.length (es.flatMap encode ++ more) = .ok es := by
  induction es with
  | nil => rfl
  | cons e es ih =>
    have he := BatchEntry.decode_encode (h e mem_cons_self) (es.flatMap encode ++ more)
    have hes := ih fun e' he' => h e' (mem_cons_of_mem _ he')
    simp [decodeEntries, he, hes]

theorem length_flatMap_encode (es : List BatchEntry) :
    9 * es.length ≤ (es.flatMap encode).length := by
  induction es with
  | nil => simp
  | cons e es ih =>
    simp only [flatMap_cons, length_append, length_cons, encode, length_lengthPrefixed]
    omega

theorem encodeBatchPayload_eq (h : ∀ e ∈ es, e.Fits) : encodeBatchPayload es =
    .ok (leBytes 4 (es.length % 2 ^ 32) ++ es.flatMap encode) := by
  have hany : es.any (·.operation = .batch) = false := by
    rw [any_eq_false]
    intro e he
    simpa using (h e he).1
  unfold encodeBatchPayload
  rw [hany]
  rfl

theorem decodeBatchPayload_count (hlen : es.length < 2 ^ 32) (rest) :
    decodeBatchPayload (leBytes 4 (es.length % 2 ^ 32) ++ rest) =
      decodeEntries (min es.length (rest.length / 9)) rest := by
  have hcount : leNat (leBytes 4 (es.length % 2 ^ 32)) = es.length := by
    rw [Nat.mod_eq_of_lt hlen, leNat_leBytes hlen]
  unfold decodeBatchPayload
  rw [cut_append (length_leBytes _ _).symm]
  simp only [hcount, length_append, length_leBytes, Nat.add_sub_cancel_left]

/-- Bytes behind the last entry are not read. -/
theorem decodeBatchPayload_append (h : ∀ e ∈ es, e.Fits) (hlen : es.length < 2 ^ 32) (more) :
    decodeBatchPayload ((leBytes 4 (es.length % 2 ^ 32) ++ es.flatMap encode) ++ more) =
      .ok es := by
  have hcap := length_flatMap_encode es
  rw [append_assoc, decodeBatchPayload_count hlen, length_append, min_eq_left (by omega)]
  exact decodeEntries_encode h more

theorem decode_encode_batch (h : ∀ e ∈ es, e.Fits) (hlen : es.length < 2 ^ 32) :
    ∃ payload, encodeBatchPayload es = .ok payload ∧ decodeBatchPayload payload = .ok es := by
  have hback := decodeBatchPayload_append h hlen []
  rw [append_nil] at hback
  exact ⟨_, encodeBatchPayload_eq h, hback⟩

/-! ## What decodes is well formed -/

theorem readPrefixed_eq {noLen noData bs rest}
    (h : readPrefixed noLen noData data = .ok (bs, rest)) :
    data = lengthPrefixed bs ++ rest ∧ bs.length < 2 ^ 32 := by
  unfold readPrefixed at h
  split at h
  · cases h
  · next len tail h4 =>
    obtain ⟨hdata, hlen⟩ := cut_eq_some h4
    split at h
    · cases h
    · next hn =>
      cases h
      obtain ⟨htail, hbs⟩ := cut_eq_some hn
      have hlt : leNat len < 2 ^ 32 := by
        have := leNat_lt len
        rwa [hlen] at this
      refine ⟨?_, by rw [hbs]; exact hlt⟩
      rw [lengthPrefixed, hbs, Nat.mod_eq_of_lt hlt, leBytes_leNat hlen, hdata, htail, append_assoc]

theorem WalOperation.byte_ofByte {b op} (h : ofByte b = .ok op) : op.byte = b := by
  unfold ofByte at h
  split at h
  · next hb => cases h; exact hb.symm
  · split at h
    · next hb => cases h; exact hb.symm
    · split at h
      · next hb => cases h; exact hb.symm
      · cases h

/-- A payload that decodes starts with the bytes of its entry. -/
theorem WalEntry.deserialize_eq {e} (h : deserialize data = .ok e) :
    ∃ rest, data = e.serialize ++ rest := by
  unfold deserialize at h
  split at h
  · cases h
  · split at h
    · cases h
    · next ts tail h8 =>
      obtain ⟨hdata, hts⟩ := cut_eq_some h8
      split at h
      · next h16 =>
        obtain ⟨op, hop, h⟩ := bind_eq_ok.1 h
        obtain ⟨⟨key, rest⟩, hk, h⟩ := bind_eq_ok.1 h
        obtain ⟨⟨value, rest'⟩, hv, h⟩ := bind_eq_ok.1 h
        cases h
        refine ⟨rest', ?_⟩
        have hsplit : tail = tail.take 16 ++ tail[16] :: tail.drop 17 := by
          rw [← drop_eq_getElem_cons h16, take_append_drop]
        have hlt : leNat ts < 2 ^ 64 := by
          have := leNat_lt ts
          rwa [hts] at this
        simp only [serialize, BitVec.toNat_ofNat, WalOperation.byte_ofByte hop]
        rw [Nat.mod_eq_of_lt hlt, leBytes_leNat hts, hdata]
        conv => lhs; rw [hsplit, (readPrefixed_eq hk).1, (readPrefixed_eq hv).1]
        simp
      · cases h

theorem WalOperation.byte_ofSubOp {b op} (h : ofSubOp b = .ok op) : op.byte = b ∧ op ≠ .batch := by
  unfold ofSubOp at h
  split at h
  · next hb => cases h; exact ⟨hb.symm, nofun⟩
  · split at h
    · next hb => cases h; exact ⟨hb.symm, nofun⟩
    · cases h

theorem BatchEntry.decode_eq {rest e}
    (h : decode data = .ok (e, rest)) : data = e.encode ++ rest ∧ e.Fits := by
  cases data with
  | nil => cases h
  | cons b data =>
    obtain ⟨op, hop, h⟩ := bind_eq_ok.1 h
    obtain ⟨⟨key, rest⟩, hk, h⟩ := bind_eq_ok.1 h
    obtain ⟨⟨value, rest'⟩, hv, h⟩ := bind_eq_ok.1 h
    cases h
    obtain ⟨hb, hne⟩ := WalOperation.byte_ofSubOp hop
    obtain ⟨hkey, hkfits⟩ := readPrefixed_eq hk
    obtain ⟨hvalue, hvfits⟩ := readPrefixed_eq hv
    refine ⟨?_, hne, hkfits, hvfits⟩
    rw [encode, hb, hkey, hvalue]
    simp

/-- The entries of a decoded batch are puts and deletes, and as many as were asked for. -/
theorem decodeEntries_fits {n}
    (h : decodeEntries n data = .ok es) : (∀ e ∈ es, e.Fits) ∧ es.length = n := by
  induction n generalizing data es with
  | zero =>
    cases h
    exact ⟨nofun, rfl⟩
  | succ n ih =>
    obtain ⟨⟨e, rest⟩, hd, h⟩ := bind_eq_ok.1 h
    obtain ⟨es', hrest, h⟩ := bind_eq_ok.1 h
    cases h
    obtain ⟨hfits, hlen⟩ := ih hrest
    exact ⟨forall_mem_cons.2 ⟨(BatchEntry.decode_eq hd).2, hfits⟩, congrArg (· + 1) hlen⟩

theorem decodeBatchPayload_fits
    (h : decodeBatchPayload data = .ok es) : (∀ e ∈ es, e.Fits) ∧ es.length < 2 ^ 32 := by
  unfold decodeBatchPayload at h
  split at h
  · cases h
  · next count rest hcut =>
    obtain ⟨hfits, hlen⟩ := decodeEntries_fits h
    have hlt := leNat_lt count
    rw [(cut_eq_some hcut).2] at hlt
    exact ⟨hfits, hlen ▸ (min_le_left _ _).trans_lt hlt⟩

/-! ## Payloads cut short or extended -/

/-- How many of the entries stand whole in the first `n` bytes of their encodings. -/
def wholeEntries : List BatchEntry → Nat → Nat
  | [], _ => 0
  | e :: es, n =>
    if e.encode.length ≤ n then wholeEntries es (n - e.encode.length) + 1 else 0

theorem BatchEntry.decode_take {e : BatchEntry} (h : e.Fits) {n : Nat} (hn : n < e.encode.length) :
    ∃ err, decode (e.encode.take n) = .error err := by
  rcases hd : decode (e.encode.take n) with err | ⟨e', rest⟩
  · exact ⟨err, rfl⟩
  · obtain ⟨hdata, hfits⟩ := decode_eq hd
    have hall : e'.encode ++ (rest ++ e.encode.drop n) = e.encode ++ [] := by
      rw [← append_assoc, ← hdata, take_append_drop, append_nil]
    have hsame := congrArg decode hall
    rw [decode_encode hfits, decode_encode h] at hsame
    simp only [Except.ok.injEq, Prod.mk.injEq, append_eq_nil_iff, drop_eq_nil_iff] at hsame
    exact absurd hsame.2.2 (not_le.2 hn)

/-- A cut payload gives the entries asked for if they stand whole in it, and an error otherwise. -/
theorem decodeEntries_take (h : ∀ e ∈ es, e.Fits) (k n : Nat) :
    if k ≤ wholeEntries es n then ∃ es', decodeEntries k ((es.flatMap encode).take n) = .ok es'
    else ∃ err, decodeEntries k ((es.flatMap encode).take n) = .error err := by
  induction es generalizing k n with
  | nil =>
    cases k with
    | zero => exact ⟨[], rfl⟩
    | succ k => simp [wholeEntries, decodeEntries, decode, bind, Except.bind]
  | cons e es ih =>
    cases k with
    | zero => simp [decodeEntries]
    | succ k =>
      have hes := ih (fun e' he' => h e' (mem_cons_of_mem _ he')) k (n - e.encode.length)
      rw [wholeEntries, flatMap_cons, take_append, decodeEntries]
      by_cases hn : e.encode.length ≤ n
      · rw [take_of_length_le hn, BatchEntry.decode_encode (h e mem_cons_self)]
        simp only [if_pos hn, bind, Except.bind, pure, Except.pure]
        split at hes
        · next hk =>
          obtain ⟨es', hes⟩ := hes
          simp [hk, hes]
        · next hk =>
          obtain ⟨err, hes⟩ := hes
          simp [hk, hes]
      · obtain ⟨err, hcut⟩ := BatchEntry.decode_take (h e mem_cons_self) (not_le.1 hn)
        simp [hn, Nat.sub_eq_zero_of_le (le_of_not_ge hn), hcut, bind, Except.bind]

theorem wholeEntries_lt {n : Nat} (hn : n < (es.flatMap encode).length) :
    wholeEntries es n < es.length := by
  induction es generalizing n with
  | nil => cases hn
  | cons e es ih =>
    rw [flatMap_cons, length_append] at hn
    rw [wholeEntries]
    split
    · exact Nat.succ_lt_succ (ih (by omega))
    · exact Nat.succ_pos _

/-- The batch is read back as written, and `data`, if it is the payload cut short or with more bytes
behind it, is refused. -/
def StrictAt (es : List BatchEntry) (data : Bytes) : Prop :=
  ∃ payload, encodeBatchPayload es = .ok payload ∧ decodeBatchPayload payload = .ok es ∧
    (data ≠ payload → data <+: payload ∨ payload <+: data →
      ∃ err, decodeBatchPayload data = .error err)

/-- What is decoded of a payload cut behind its count. -/
theorem decodeBatchPayload_take (hlen : es.length < 2 ^ 32) (h4 : 4 ≤ data.length)
    (hcut : data <+: leBytes 4 (es.length % 2 ^ 32) ++ es.flatMap encode) :
    data.length - 4 ≤ (es.flatMap encode).length ∧ decodeBatchPayload data =
      decodeEntries (min es.length ((data.length - 4) / 9))
        ((es.flatMap encode).take (data.length - 4)) := by
  have hle := hcut.length_le
  rw [length_append, length_leBytes] at hle
  have hrest : ((es.flatMap encode).take (data.length - 4)).length = data.length - 4 := by
    rw [length_take]
    omega
  have hdata := prefix_iff_eq_take.1 hcut
  rw [take_append, length_leBytes, take_of_length_le (by simpa using h4)] at hdata
  refine ⟨by omega, ?_⟩
  conv_lhs => rw [hdata]
  rw [decodeBatchPayload_count hlen, hrest]

/-- The codec is strict exactly if lengths and count fit their fields, the payload is not extended,
and a payload cut behind its count is still long enough to be asked for an entry that does not
stand whole in it. -/
theorem batch_codec_strict_iff (es : List BatchEntry) (data : Bytes) : StrictAt es data ↔
    (∀ e ∈ es, e.Fits) ∧ es.length < 2 ^ 32 ∧
      ∀ payload, encodeBatchPayload es = .ok payload → data ≠ payload →
        ¬ payload <+: data ∧ (data <+: payload →
          data.length < 4 ∨ wholeEntries es (data.length - 4) < (data.length - 4) / 9) := by
  constructor
  · rintro ⟨payload, henc, hdec, hstrict⟩
    obtain ⟨hfits, hlen⟩ := decodeBatchPayload_fits hdec
    cases henc.symm.trans (encodeBatchPayload_eq hfits)
    refine ⟨hfits, hlen, fun payload henc' hne => ?_⟩
    cases henc.symm.trans henc'
    refine ⟨fun hmore => ?_, fun hcut => ?_⟩
    · obtain ⟨err, herr⟩ := hstrict hne (.inr hmore)
      obtain ⟨more, rfl⟩ := hmore
      rw [decodeBatchPayload_append hfits hlen] at herr
      cases herr
    · obtain ⟨err, herr⟩ := hstrict hne (.inl hcut)
      by_contra! hwhole
      have htake := decodeEntries_take hfits (min es.length ((data.length - 4) / 9)) (data.length - 4)
      rw [if_pos ((min_le_right _ _).trans hwhole.2),
        ← (decodeBatchPayload_take hlen hwhole.1 hcut).2] at htake
      obtain ⟨es', hok⟩ := htake
      cases hok.symm.trans herr
  · rintro ⟨hfits, hlen, hcond⟩
    have hback := decodeBatchPayload_append hfits hlen []
    rw [append_nil] at hback
    refine ⟨_, encodeBatchPayload_eq hfits, hback, fun hne hpart => ?_⟩
    obtain ⟨hmore, hcut⟩ := hcond _ (encodeBatchPayload_eq hfits) hne
    have hpre := hpart.resolve_right hmore
    rcases lt_or_ge data.length 4 with hshort | h4
    · exact ⟨_, by rw [decodeBatchPayload, cut, if_pos hshort]⟩
    · have hwhole := (hcut hpre).resolve_left (not_lt.2 h4)
      obtain ⟨hle, htake⟩ := decodeBatchPayload_take hlen h4 hpre
      have hlt : data.length - 4 < (es.flatMap BatchEntry.encode).length := by
        refine lt_of_le_of_ne hle fun heq => hne (hpre.eq_of_length ?_)
        rw [length_append, length_leBytes]
        omega
      have herr := decodeEntries_take hfits (min es.length ((data.length - 4) / 9)) (data.length - 4)
      rw [if_neg (not_le.2 (lt_min (wholeEntries_lt hlt) hwhole)), ← htake] at herr
      exact herr

/-- The count alone decodes to no entries, and a byte behind the payload is ignored. -/
theorem batch_codec_lenient :
    encodeBatchPayload [⟨.delete, [], []⟩] = .ok [1, 0, 0, 0, 1, 0, 0, 0, 0, 0, 0, 0, 0] ∧
      decodeBatchPayload [1, 0, 0, 0] = .ok [] ∧
      decodeBatchPayload [1, 0, 0, 0, 1, 0, 0, 0, 0, 0, 0, 0, 0, 7] = .ok [⟨.delete, [], []⟩] := by
  decide +kernel

/-! ## Records -/

/-- The payload of a record: bytes that decode to an entry and whose sealed length the frame's
32-bit field can hold. -/
structure Record where
  payload : Bytes
  entry : WalEntry
  decodes : WalEntry.deserialize payload = .ok entry
  fits : payload.length + 16 < 2 ^ 32

def Record.ofEntry (e : WalEntry) (h : e.serialize.length + 16 < 2 ^ 32) : Record where
  payload := e.serialize
  entry := e
  decodes := by
    rw [WalEntry.length_serialize] at h
    exact WalEntry.deserialize_serialize ⟨by omega, by omega⟩
  fits := h

/-- Writing a record's entry again gives a record. -/
def Record.reserialized (r : Record) : Record :=
  .ofEntry r.entry <| by
    obtain ⟨rest, hr⟩ := WalEntry.deserialize_eq r.decodes
    have hlen := congrArg length hr
    have hfits := r.fits
    rw [length_append] at hlen
    omega

/-- An operation on the empty key of the all-zero realm. -/
def emptyRecord (op : WalOperation) : Record :=
  .ofEntry ⟨0, .nil, op, [], []⟩ (by cases op <;> decide)

end Hearth.Wal
