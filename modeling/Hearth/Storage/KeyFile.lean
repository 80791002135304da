import Hearth.Base.Hex
import Hearth.Wal.Record

/-!
# The key file

`hearth.keys` holds the key-encryption key of every realm, each encrypted under
the host key: a two-byte version, then one entry after another. An entry is the
realm's UUID, the length of the encrypted key, the encrypted key, and a checksum
of what stands before it.

`loadWithKeys` reads the file back. It stops at the first entry that is cut
short, refuses a file with a wrong checksum or a key neither host key opens, and
lets the last entry of a realm win.
-/

namespace Hearth.Storage

open Base Wal List Function

/-- `encrypt_kek`, with the nonce it draws, and `decrypt_kek`. The encrypted key is the nonce,
the 32 bytes and the tag; it opens under the host key and realm it was made for. -/
structure KekCipher (HostKey Kek : Type) where
  encryptKek : Kek → HostKey → RealmId → BitVec 96 → Bytes
  decryptKek : Bytes → HostKey → RealmId → Option Kek
  length_encryptKek : ∀ kek host realm nonce, (encryptKek kek host realm nonce).length = 60
  decrypt_encrypt : ∀ kek host realm nonce,
    decryptKek (encryptKek kek host realm nonce) host realm = some kek
  decrypt_other : ∀ kek host host' realm nonce, host' ≠ host →
    decryptKek (encryptKek kek host realm nonce) host' realm = none

/-! ## Entries -/

/-- `KEY_FILE_VERSION`. -/
def keyFileVersion : Nat := 1

def versionBytes : Bytes := leBytes 2 keyFileVersion

/-- What the checksum of an entry covers. -/
def kekEntryBody (realm : RealmId) (encrypted : Bytes) : Bytes :=
  realm.uuid ++ lengthPrefixed encrypted

/-- The bytes `append_kek_entry` builds. -/
def kekEntry (crc32 : Bytes → UInt32) (realm : RealmId) (encrypted : Bytes) : Bytes :=
  kekEntryBody realm encrypted ++ leBytes 4 (crc32 (kekEntryBody realm encrypted)).toNat

/-- An entry as the load loop sees it. -/
structure KekFrame where
  realm : RealmId
  entryBytes : Bytes
  encrypted : Bytes
  storedCrc : Nat
  deriving DecidableEq

/-- What one turn of the load loop reads, and what is left; nothing where the loop ends. -/
def readFrame (data : Bytes) : Option (KekFrame × Bytes) :=
  if h : data.length < 24 then none
  else
    match cut 4 (data.drop 16) with
    | none => none
    | some (len, rest) =>
      match cut (leNat len) rest with
      | none => none
      | some (encrypted, rest) =>
        match cut 4 rest with
        | none => none
        | some (crc, rest) =>
          some ({ realm := ⟨data.take 16, length_take_of_le (.trans (by decide) (not_lt.1 h))⟩
                  entryBytes := data.take (20 + leNat len)
                  encrypted := encrypted
                  storedCrc := leNat crc }, rest)

def entryFrame (crc32 : Bytes → UInt32) (realm : RealmId) (encrypted : Bytes) : KekFrame where
  realm := realm
  entryBytes := kekEntryBody realm encrypted
  encrypted := encrypted
  storedCrc := (crc32 (kekEntryBody realm encrypted)).toNat

theorem length_kekEntryBody (realm encrypted) :
    (kekEntryBody realm encrypted).length = 20 + encrypted.length := by
  simp only [kekEntryBody, lengthPrefixed, length_append, realm.length_uuid, length_leBytes]
  omega

variable (crc32 : Bytes → UInt32)

theorem length_kekEntry (realm encrypted) :
    (kekEntry crc32 realm encrypted).length = 24 + encrypted.length := by
  rw [kekEntry, length_append, length_kekEntryBody, length_leBytes]
  omega

theorem readFrame_kekEntry (realm) {encrypted} (h : encrypted.length < 2 ^ 32) (rest) :
    readFrame (kekEntry crc32 realm encrypted ++ rest) =
      some (entryFrame crc32 realm encrypted, rest) := by
  have hlong : ¬ (kekEntry crc32 realm encrypted ++ rest).length < 24 := by
    rw [length_append, length_kekEntry]
    omega
  have hcrc : (crc32 (kekEntryBody realm encrypted)).toNat < 256 ^ 4 := UInt32.toNat_lt _
  have hdata : kekEntry crc32 realm encrypted ++ rest = realm.uuid ++ (leBytes 4 encrypted.length ++
      (encrypted ++ (leBytes 4 (crc32 (kekEntryBody realm encrypted)).toNat ++ rest))) := by
    simp only [kekEntry, kekEntryBody, lengthPrefixed, Nat.mod_eq_of_lt h, append_assoc]
  have hbody : (kekEntry crc32 realm encrypted ++ rest).take (20 + encrypted.length) =
      kekEntryBody realm encrypted := by
    rw [kekEntry, append_assoc, ← length_kekEntryBody _ _, take_left]
  have hrealm : (kekEntry crc32 realm encrypted ++ rest).take 16 = realm.uuid := by
    rw [hdata, ← realm.length_uuid, take_left]
  have hdrop : (kekEntry crc32 realm encrypted ++ rest).drop 16 = leBytes 4 encrypted.length ++
      (encrypted ++ (leBytes 4 (crc32 (kekEntryBody realm encrypted)).toNat ++ rest)) := by
    rw [hdata, ← realm.length_uuid, drop_left]
  unfold readFrame
  rw [dif_neg hlong]
  simp only [hdrop, cut_append (length_leBytes _ _).symm, leNat_leBytes (w := 4) h, cut_append rfl,
    leNat_leBytes hcrc, hbody, hrealm]
  rfl

theorem readFrame_append {data rest frame} (h : readFrame data = some (frame, rest))
    (more) : ∃ frame', readFrame (data ++ more) = some (frame', rest ++ more) := by
  unfold readFrame at h
  split at h
  · cases h
  case isFalse hlong =>
    have hlong' : ¬ (data ++ more).length < 24 := by
      rw [length_append]
      omega
    have hdrop : (data ++ more).drop 16 = data.drop 16 ++ more :=
      drop_append_of_le_length (by omega)
    split at h
    · cases h
    next len rest1 hlen =>
      split at h
      · cases h
      next encrypted rest2 henc =>
        split at h
        · cases h
        next crc rest3 hcrc =>
          cases h
          unfold readFrame
          rw [dif_neg hlong']
          simp only [hdrop, cut_append_right hlen, cut_append_right henc, cut_append_right hcrc]
          exact ⟨_, rfl⟩

/-- The loop ends at an entry that was cut short. -/
theorem readFrame_torn (realm) {encrypted part more}
    (h : encrypted.length < 2 ^ 32) (hpart : part ++ more = kekEntry crc32 realm encrypted)
    (hmore : more ≠ []) : readFrame part = none := by
  cases hread : readFrame part with
  | none => rfl
  | some read =>
    obtain ⟨frame', happ⟩ := readFrame_append hread more
    have hwhole := readFrame_kekEntry crc32 realm h []
    rw [append_nil, ← hpart, happ] at hwhole
    have hnil := (Prod.mk.inj (Option.some.inj hwhole)).2
    exact absurd (append_eq_nil_iff.1 hnil).2 hmore

/-! ## Loading -/

/-- `KekMap`. -/
abbrev KekMap (Kek : Type) := RealmId → Option Kek

structure LoadKeksResult (Kek : Type) where
  keks : KekMap Kek
  needsReencrypt : List RealmId
  failed : List RealmId
  corrupted : List RealmId

def LoadKeksResult.empty {Kek : Type} : LoadKeksResult Kek := ⟨fun _ => none, [], [], []⟩

section

variable {HostKey Kek : Type} (cipher : KekCipher HostKey Kek) (crc32 : Bytes → UInt32)

/-- The rest of the turn: the checksum, the host key, the previous host key. -/
def LoadKeksResult.readEntry (host : HostKey) (prev : Option HostKey) (result : LoadKeksResult Kek)
    (frame : KekFrame) : LoadKeksResult Kek :=
  if frame.storedCrc ≠ (crc32 frame.entryBytes).toNat then
    { result with corrupted := result.corrupted ++ [frame.realm] }
  else
    match cipher.decryptKek frame.encrypted host frame.realm with
    | some kek => { result with keks := update result.keks frame.realm (some kek) }
    | none =>
      match prev.bind fun key => cipher.decryptKek frame.encrypted key frame.realm with
      | some kek =>
        { result with
          needsReencrypt := result.needsReencrypt ++ [frame.realm]
          keks := update result.keks frame.realm (some kek) }
      | none => { result with failed := result.failed ++ [frame.realm] }

/-- The load loop. A turn uses up 24 bytes, so that the length of the data is enough turns. -/
def loadLoop (host : HostKey) (prev : Option HostKey) : Nat → Bytes → LoadKeksResult Kek →
    LoadKeksResult Kek
  | 0, _, result => result
  | turns + 1, data, result =>
    match readFrame data with
    | none => result
    | some (frame, rest) =>
      loadLoop host prev turns rest (result.readEntry cipher crc32 host prev frame)

/-- `load_keks_from_file`, of the bytes of the file. -/
def loadKeksFromFile (data : Bytes) (host : HostKey) (prev : Option HostKey) :
    Except StorageError (LoadKeksResult Kek) :=
  let version := leNat (data.take 2)
  if data.length < 2 then .ok .empty
  else if version ≠ keyFileVersion then
    .error (.crypto s!"unsupported hearth.keys version: {version}")
  else .ok (loadLoop cipher crc32 host prev data.length (data.drop 2) .empty)

/-- The checks of `load_with_keys`; there is no file yet where `file` is nothing. -/
def loadWithKeys (file : Option Bytes) (host : HostKey) (prev : Option HostKey) :
    Except StorageError (LoadKeksResult Kek) := do
  let result ← match file with
    | none => .ok .empty
    | some data => loadKeksFromFile cipher crc32 data host prev
  if result.corrupted ≠ [] then
    .error (.corruptedKeks (result.corrupted.map fun realm => hyphenated realm.uuid))
  else if result.failed ≠ [] then
    .error (.hostKeyMismatch (result.failed.map fun realm => hyphenated realm.uuid))
  else .ok result

/-! ## Files of whole entries -/

/-- A key as it is appended: its realm, the key and the nonce drawn for it. -/
structure KekEntry (Kek : Type) where
  realm : RealmId
  kek : Kek
  nonce : BitVec 96

def KekEntry.bytes (host : HostKey) (e : KekEntry Kek) : Bytes :=
  kekEntry crc32 e.realm (cipher.encryptKek e.kek host e.realm e.nonce)

open KekEntry (bytes realm)

/-- The file of these entries, as `append_kek_entry` and `rewrite_keys_file` write it. -/
def keyFile (host : HostKey) (entries : List (KekEntry Kek)) : Bytes :=
  versionBytes ++ entries.flatMap (bytes cipher crc32 host)

/-- The last key of every realm. -/
def newestKeks (entries : List (KekEntry Kek)) : KekMap Kek :=
  entries.foldl (fun keks e => update keks e.realm (some e.kek)) fun _ => none

/-- What the load loop leaves unread. -/
def unread : Nat → Bytes → Bytes
  | 0, data => data
  | turns + 1, data =>
    match readFrame data with
    | none => data
    | some (_, rest) => unread turns rest

/-- The result after an entry of the key `e.kek` under the host key `key`. -/
def LoadKeksResult.readSealed (host : HostKey) (prev : Option HostKey) (key : HostKey)
    (result : LoadKeksResult Kek) (e : KekEntry Kek) : LoadKeksResult Kek :=
  result.readEntry cipher crc32 host prev
    (entryFrame crc32 e.realm (cipher.encryptKek e.kek key e.realm e.nonce))

open LoadKeksResult (readEntry readSealed)

variable {cipher crc32} {host key : HostKey} {prev : Option HostKey} (e : KekEntry Kek)

theorem KekEntry.encrypted_lt : (cipher.encryptKek e.kek key e.realm e.nonce).length < 2 ^ 32 := by
  rw [cipher.length_encryptKek]
  decide

theorem KekEntry.readFrame_bytes (rest) : readFrame (e.bytes cipher crc32 key ++ rest) =
      some (entryFrame crc32 e.realm (cipher.encryptKek e.kek key e.realm e.nonce), rest) :=
  readFrame_kekEntry _ _ e.encrypted_lt rest

theorem KekEntry.length_bytes : (e.bytes cipher crc32 key).length = 84 := by
  rw [bytes, length_kekEntry, cipher.length_encryptKek]

variable {tail : Bytes} (htail : readFrame tail = none) (entries : List (KekEntry Kek))
  (result : LoadKeksResult Kek)

theorem length_keyFile : (keyFile cipher crc32 key entries).length = 2 + 84 * entries.length := by
  induction entries with
  | nil => rfl
  | cons e entries ih =>
    simp only [keyFile, length_append, flatMap_cons, e.length_bytes, length_cons] at ih ⊢
    omega

theorem drop_keyFile : (keyFile cipher crc32 key entries ++ tail).drop 2 =
      entries.flatMap (bytes cipher crc32 key) ++ tail := by
  rfl

theorem entries_le_length : entries.length ≤ (keyFile cipher crc32 key entries ++ tail).length := by
  rw [length_append, length_keyFile]
  omega

/-! ### The host keys -/

theorem readSealed_other (hne : host ≠ key) (hprev : prev ≠ some key) :
    result.readSealed cipher crc32 host prev key e =
      { result with failed := result.failed ++ [e.realm] } := by
  have hclos : (prev.bind fun old => cipher.decryptKek
      (cipher.encryptKek e.kek key e.realm e.nonce) old e.realm) = none := by
    cases prev with
    | none => rfl
    | some old => exact cipher.decrypt_other _ _ _ _ _ fun h => hprev (congrArg some h)
  unfold readSealed readEntry
  simp [entryFrame, cipher.decrypt_other _ _ _ _ _ hne, hclos]

/-- Under the key it was written with, the file gives the newest keys. -/
theorem foldl_readSealed_host : entries.foldl (.readSealed cipher crc32 key prev key) result =
      { result with
        keks := entries.foldl (fun keks e => update keks e.realm (some e.kek)) result.keks } := by
  induction entries generalizing result with
  | nil => rfl
  | cons e entries ih =>
    rw [foldl_cons, ih]
    simp [readSealed, readEntry, entryFrame, cipher.decrypt_encrypt]

theorem foldl_readSealed_prev (hne : host ≠ key) :
    entries.foldl (.readSealed cipher crc32 host (some key) key) result = { result with
        needsReencrypt := result.needsReencrypt ++ entries.map realm
        keks := entries.foldl (fun keks e => update keks e.realm (some e.kek)) result.keks } := by
  induction entries generalizing result with
  | nil => simp
  | cons e entries ih =>
    rw [foldl_cons, ih]
    simp [readSealed, readEntry, entryFrame,
      cipher.decrypt_other _ _ _ _ _ hne, cipher.decrypt_encrypt]

theorem foldl_readSealed_other (hne : host ≠ key) (hprev : prev ≠ some key) :
    entries.foldl (.readSealed cipher crc32 host prev key) result =
      { result with failed := result.failed ++ entries.map realm } := by
  induction entries generalizing result with
  | nil => simp
  | cons e entries ih =>
    rw [foldl_cons, ih, readSealed_other _ _ hne hprev]
    simp

/-! ### The load -/

include htail

theorem loadLoop_entries {turns} (hturns : entries.length ≤ turns) :
    loadLoop cipher crc32 host prev turns
        (entries.flatMap (bytes cipher crc32 key) ++ tail) result =
      entries.foldl (.readSealed cipher crc32 host prev key) result := by
  induction entries generalizing turns result with
  | nil =>
    cases turns with
    | zero => rfl
    | succ turns =>
      rw [flatMap_nil, nil_append, loadLoop, htail]
      rfl
  | cons e entries ih =>
    obtain ⟨turns, rfl⟩ := Nat.exists_eq_add_one_of_ne_zero (ne_zero_of_lt hturns)
    rw [flatMap_cons, append_assoc, loadLoop, e.readFrame_bytes]
    exact ih _ (Nat.le_of_succ_le_succ hturns)

theorem unread_entries {turns} (hturns : entries.length ≤ turns) :
    unread turns (entries.flatMap (bytes cipher crc32 key) ++ tail) = tail := by
  induction entries generalizing turns with
  | nil =>
    cases turns with
    | zero => rfl
    | succ turns => rw [flatMap_nil, nil_append, unread, htail]
  | cons e entries ih =>
    obtain ⟨turns, rfl⟩ := Nat.exists_eq_add_one_of_ne_zero (ne_zero_of_lt hturns)
    rw [flatMap_cons, append_assoc, unread, e.readFrame_bytes]
    exact ih (Nat.le_of_succ_le_succ hturns)

theorem loadKeksFromFile_keyFile :
    loadKeksFromFile cipher crc32 (keyFile cipher crc32 key entries ++ tail) host prev =
      .ok (entries.foldl (.readSealed cipher crc32 host prev key) .empty) := by
  have hlong : ¬ (keyFile cipher crc32 key entries ++ tail).length < 2 := by
    rw [length_append, length_keyFile]
    omega
  have hver : leNat ((keyFile cipher crc32 key entries ++ tail).take 2) = keyFileVersion := by
    rfl
  unfold loadKeksFromFile
  simp only [if_neg hlong, hver, ne_eq, not_true_eq_false, if_false, drop_keyFile,
    loadLoop_entries htail _ _ (entries_le_length _)]

theorem loadWithKeys_host :
    loadWithKeys cipher crc32 (some (keyFile cipher crc32 key entries ++ tail)) key prev =
      .ok ⟨newestKeks entries, [], [], []⟩ := by
  unfold loadWithKeys
  simp only [loadKeksFromFile_keyFile htail, foldl_readSealed_host]
  rfl

theorem loadWithKeys_prev (hne : host ≠ key) :
    loadWithKeys cipher crc32 (some (keyFile cipher crc32 key entries ++ tail)) host (some key) =
      .ok ⟨newestKeks entries, entries.map realm, [], []⟩ := by
  unfold loadWithKeys
  simp only [loadKeksFromFile_keyFile htail, foldl_readSealed_prev _ _ hne]
  rfl

theorem loadWithKeys_other (hne : host ≠ key) (hprev : prev ≠ some key) (hents : entries ≠ []) :
    loadWithKeys cipher crc32 (some (keyFile cipher crc32 key entries ++ tail)) host prev =
      .error (.hostKeyMismatch (entries.map fun e => hyphenated e.realm.uuid)) := by
  unfold loadWithKeys
  simp only [loadKeksFromFile_keyFile htail, foldl_readSealed_other _ _ hne hprev]
  have hmap : entries.map realm ≠ [] := fun h => hents (map_eq_nil_iff.1 h)
  simp only [bind, Except.bind, LoadKeksResult.empty, ne_eq, nil_append, hmap, map_map]
  rfl

end

end Hearth.Storage
