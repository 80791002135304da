import Hearth.Base.Run
import Hearth.Storage.KeyFile
import Mathlib.Data.List.Induction

/-!
# Runs of the key registry

A registry is loaded, appends a key for each realm it first writes or rotates,
and is loaded again after a crash. An append that crashes leaves some first part
of its bytes behind, and nothing removes that part: the load stops in front of
it, but the next append goes after it.

* `acknowledged_keks_kept`: while no append starts behind a part of an entry,
  every load that returns gives each realm the key of its newest whole append,
  the host key of the last load opens the file, and every append can be read
  back.
* `acknowledged_kek_hidden`: one byte left behind hides the next acknowledged
  key from a load that returns.
-/

namespace Hearth.Storage

open Base List Function

/-- How an append ended: it returned, it crashed once its last byte was written, or it crashed
before. -/
inductive AppendEnd
  | acked
  | whole
  | torn
  deriving DecidableEq, Repr

structure AppendCall (Kek : Type) extends KekEntry Kek where
  ended : AppendEnd

/-- What an open registry needs for an append; `opened` is whether it has a file handle. -/
structure OpenRegistry (HostKey : Type) where
  hostKey : HostKey
  opened : Bool

/-- The key file and the process that uses it. `hostKey` and `appends` only record: the host key of
the last load that returned, and every append so far. -/
structure KeyStore (HostKey Kek : Type) where
  file : Option Bytes
  registry : Option (OpenRegistry HostKey)
  hostKey : Option HostKey
  appends : List (AppendCall Kek)

section

variable {HostKey Kek : Type} (cipher : KekCipher HostKey Kek) (crc32 : Bytes → UInt32)

/-- The entries of `rewrite_keys_file`, which goes through the keys in some order. -/
def listing (keks : KekMap Kek) (order : List RealmId) (nonce : RealmId → BitVec 96) :
    List (KekEntry Kek) :=
  order.filterMap fun realm => (keks realm).map fun kek => ⟨realm, kek, nonce realm⟩

namespace KeyStore

/-- The bytes `append_kek_entry` writes: the version first where it creates the file. -/
def appendBytes (reg : OpenRegistry HostKey) (e : KekEntry Kek) : Bytes :=
  (if reg.opened then [] else versionBytes) ++ e.bytes cipher crc32 reg.hostKey

variable (s : KeyStore HostKey Kek) (reg : OpenRegistry HostKey)

section

variable (e : KekEntry Kek)

/-- The file once `n` of these bytes are written. -/
def written (n : Nat) : Bytes :=
  (if reg.opened then s.file.getD [] else []) ++ (appendBytes cipher crc32 reg e).take n

/-- `append_kek_entry` has returned. -/
def append : KeyStore HostKey Kek :=
  { s with
    file := some (s.written cipher crc32 reg e (appendBytes cipher crc32 reg e).length)
    registry := some { reg with opened := true }
    appends := s.appends ++ [⟨e, .acked⟩] }

/-- `append_kek_entry` has crashed after `n` bytes. -/
def tear (n : Nat) : KeyStore HostKey Kek :=
  { s with
    file := some (s.written cipher crc32 reg e n)
    registry := none
    appends := s.appends ++
      [⟨e, if (appendBytes cipher crc32 reg e).length ≤ n then .whole else .torn⟩] }

end

/-- `load_with_keys` has returned a registry over this file. -/
def reopen (host : HostKey) (file : Option Bytes) : KeyStore HostKey Kek :=
  { s with file := file, registry := some ⟨host, file.isSome⟩, hostKey := some host }

inductive Event (HostKey Kek : Type)
  | load (host : HostKey) (prev : Option HostKey)
  | append (e : KekEntry Kek)
  | crash (e : KekEntry Kek) (bytes : Nat)

/-- A load may come at any time: it is a restart. A rewrite replaces the file by a rename, so that
a crash during it changes nothing. -/
inductive Step : Event HostKey Kek → KeyStore HostKey Kek → KeyStore HostKey Kek → Prop
  | load {s host prev r} :
      loadWithKeys cipher crc32 s.file host prev = .ok r → r.needsReencrypt = [] →
      Step (.load host prev) s (s.reopen host s.file)
  | reencrypt {s host prev r} {order : List RealmId} {nonce} :
      loadWithKeys cipher crc32 s.file host prev = .ok r → r.needsReencrypt ≠ [] →
      order.Nodup → (∀ realm, realm ∈ order ↔ (r.keks realm).isSome) →
      Step (.load host prev) s
        (s.reopen host (some (keyFile cipher crc32 host (listing r.keks order nonce))))
  | refuse {s host prev err} : loadWithKeys cipher crc32 s.file host prev = .error err →
      Step (.load host prev) s { s with registry := none }
  | append {s reg e} : s.registry = some reg → Step (.append e) s (s.append cipher crc32 reg e)
  | crash {s reg e n} : s.registry = some reg → Step (.crash e n) s (s.tear cipher crc32 reg e n)

def fresh : KeyStore HostKey Kek := ⟨none, none, none, []⟩

/-- There is no file, or it is the version and whole entries: the load loop reads it to its end. -/
def Framed : Option Bytes → Prop
  | none => True
  | some data => 2 ≤ data.length ∧ unread data.length (data.drop 2) = []

/-- An append starts only on such a file. -/
def OnFrames : Event HostKey Kek → KeyStore HostKey Kek → Prop
  | .load _ _, _ => True
  | .append _, s | .crash _ _, s => Framed s.file

/-- The key of the realm's newest append that was written to its last byte. -/
def Newest (calls : List (AppendCall Kek)) (realm : RealmId) (kek : Kek) : Prop :=
  ∃ before call after, calls = before ++ call :: after ∧ call.realm = realm ∧ call.kek = kek ∧
    call.ended ≠ .torn ∧ ∀ later ∈ after, later.realm = realm → later.ended = .torn

end KeyStore

/-! ## The newest keys -/

/-- The entries that were written to their last byte. -/
def wholeEntries (calls : List (AppendCall Kek)) : List (KekEntry Kek) :=
  (calls.filter fun call => call.ended ≠ .torn).map AppendCall.toKekEntry

theorem newestKeks_snoc (entries : List (KekEntry Kek)) (e) :
    newestKeks (entries ++ [e]) = update (newestKeks entries) e.realm (some e.kek) := by
  rw [newestKeks, foldl_append]
  rfl

theorem wholeEntries_snoc (calls : List (AppendCall Kek)) (call : AppendCall Kek) :
    wholeEntries (calls ++ [call]) =
      if call.ended = .torn then wholeEntries calls else wholeEntries calls ++ [call.toKekEntry] := by
  unfold wholeEntries
  split
  case isTrue htorn => simp [htorn]
  case isFalse hwhole => simp [hwhole]

variable {calls : List (AppendCall Kek)} {realm : RealmId}

theorem KeyStore.newest_snoc {call kek} : Newest (calls ++ [call]) realm kek ↔
      if call.realm = realm ∧ call.ended ≠ .torn then call.kek = kek else Newest calls realm kek := by
  constructor
  · rintro ⟨before, found, after, heq, hrealm, hkek, hwhole, hafter⟩
    rcases eq_nil_or_concat after with rfl | ⟨rest, last, rfl⟩
    · obtain ⟨-, hfound⟩ := append_inj' heq rfl
      cases hfound
      rwa [if_pos ⟨hrealm, hwhole⟩]
    · rw [concat_eq_append, ← cons_append, ← append_assoc] at heq
      obtain ⟨hcalls, hlast⟩ := append_inj' heq rfl
      cases hlast
      -- the last call is no later whole append of the realm
      rw [if_neg fun hcall => hcall.2 (hafter call (by simp) hcall.1)]
      refine ⟨before, found, rest, hcalls, hrealm, hkek, hwhole, fun later hlater => ?_⟩
      exact hafter _ (by simp [hlater])
  · split
    case isTrue hcall =>
      intro hkek
      exact ⟨calls, call, [], rfl, hcall.1, hkek, hcall.2, fun later h => by cases h⟩
    case isFalse hcall =>
      rintro ⟨before, found, after, rfl, hrealm, hkek, hwhole, hafter⟩
      refine ⟨before, found, after ++ [call], by simp, hrealm, hkek, hwhole, fun later hlater hr => ?_⟩
      rcases mem_append.1 hlater with hlater | hlater
      · exact hafter _ hlater hr
      · obtain rfl := mem_singleton.1 hlater
        by_contra htorn
        exact hcall ⟨hr, htorn⟩

theorem KeyStore.newest_iff {kek} :
    newestKeks (wholeEntries calls) realm = some kek ↔ Newest calls realm kek := by
  induction calls using reverseRecOn with
  | nil =>
    constructor
    · intro h
      cases h
    · rintro ⟨before, call, after, heq, -⟩
      exact absurd heq (by simp)
  | append_singleton calls call ih =>
    rw [newest_snoc, wholeEntries_snoc, ← ih]
    by_cases htorn : call.ended = .torn
    · rw [if_pos htorn, if_neg (fun h => h.2 htorn)]
    · rw [if_neg htorn, newestKeks_snoc]
      by_cases hrealm : call.realm = realm
      · rw [if_pos ⟨hrealm, htorn⟩, hrealm, update_self]
        exact Option.some_inj
      · rw [if_neg (fun h => hrealm h.1), update_of_ne (symm hrealm)]

theorem foldl_listing (keks : KekMap Kek) (nonce : RealmId → BitVec 96) (order)
    (found : KekMap Kek) (realm) :
    (listing keks order nonce).foldl
        (fun (found : KekMap Kek) e => update found e.realm (some e.kek)) found realm =
      if realm ∈ order ∧ (keks realm).isSome then keks realm else found realm := by
  induction order generalizing found with
  | nil => rfl
  | cons first order ih =>
    cases hfirst : keks first with
    | none =>
      rw [listing, filterMap_cons_none (by rw [hfirst]; rfl), ← listing, ih]
      by_cases hrealm : realm = first
      · simp [hrealm, hfirst]
      · simp [hrealm]
    | some kek =>
      rw [listing, filterMap_cons_some (by rw [hfirst]; rfl), foldl_cons, ← listing, ih]
      by_cases hrealm : realm = first
      · simp [hrealm, hfirst]
      · simp [hrealm]

/-! ## What the file holds -/

/-- A file these whole entries can be read from: absent, with its version cut short, or written under
the host key of the last load, and then at most a part that cannot be read. -/
inductive Holds (hostKey : Option HostKey) : Option Bytes → List (KekEntry Kek) → Prop
  | absent : Holds hostKey none []
  | header {data : Bytes} : data.length < 2 → Holds hostKey (some data) []
  | entries {key entries tail} : hostKey = some key ∨ entries = [] → readFrame tail = none →
      Holds hostKey (some (keyFile cipher crc32 key entries ++ tail)) entries

variable {cipher crc32} {host key : HostKey} {prev hostKey : Option HostKey} {file : Option Bytes}
  {entries : List (KekEntry Kek)} {r : LoadKeksResult Kek}

theorem loadWithKeys_header {data} (h : data.length < 2) :
    loadWithKeys cipher crc32 (some data) host prev = .ok .empty := by
  unfold loadWithKeys loadKeksFromFile
  simp only [if_pos h]
  rfl

/-- A load that returns gives the newest keys; if it need not rewrite the file, that is written
under the host key of this load. -/
theorem Holds.load (h : Holds cipher crc32 hostKey file entries)
    (hload : loadWithKeys cipher crc32 file host prev = .ok r) :
    r.keks = newestKeks entries ∧
      (r.needsReencrypt = [] → Holds cipher crc32 (some host) file entries) := by
  cases h with
  | absent =>
    cases hload
    exact ⟨rfl, fun _ => .absent⟩
  | header hshort =>
    rw [loadWithKeys_header hshort] at hload
    cases hload
    exact ⟨rfl, fun _ => .header hshort⟩
  | @entries key entries tail hkey htail =>
    by_cases hhost : host = key
    · rw [hhost, loadWithKeys_host htail] at hload
      cases hload
      exact ⟨rfl, fun _ => .entries (.inl (congrArg some hhost)) htail⟩
    by_cases hprev : prev = some key
    · rw [hprev, loadWithKeys_prev htail _ hhost] at hload
      cases hload
      exact ⟨rfl, fun hnone => .entries (.inr (map_eq_nil_iff.1 hnone)) htail⟩
    by_cases hents : entries = []
    · subst hents
      unfold loadWithKeys at hload
      simp only [loadKeksFromFile_keyFile htail] at hload
      cases hload
      exact ⟨rfl, fun _ => .entries (.inr rfl) htail⟩
    · rw [loadWithKeys_other htail _ hhost hprev hents] at hload
      cases hload

theorem Holds.load_host (h : Holds cipher crc32 (some host) file entries) (prev : Option HostKey) :
    ∃ r, loadWithKeys cipher crc32 file host prev = .ok r := by
  cases h with
  | absent => exact ⟨_, rfl⟩
  | header hshort => exact ⟨_, loadWithKeys_header hshort⟩
  | @entries key entries tail hkey htail =>
    rcases hkey with hkey | rfl
    · cases hkey
      exact ⟨_, loadWithKeys_host htail _⟩
    · unfold loadWithKeys
      simp only [loadKeksFromFile_keyFile htail]
      exact ⟨_, rfl⟩

theorem Holds.eq_keyFile {data} (h : Holds cipher crc32 (some key) (some data) entries)
    (hframed : KeyStore.Framed (some data)) : data = keyFile cipher crc32 key entries := by
  obtain ⟨hlong, hunread⟩ := hframed
  cases h with
  | header hshort => exact absurd hshort (not_lt.2 hlong)
  | @entries key' entries tail hkey htail =>
    rw [drop_keyFile, unread_entries htail _ (entries_le_length _)] at hunread
    rw [hunread, append_nil]
    rcases hkey with hkey | rfl
    · cases hkey
      rfl
    · rfl

theorem holds_part (entries : List (KekEntry Kek)) (e : KekEntry Kek) (n : Nat) :
    Holds cipher crc32 (some key)
      (some (keyFile cipher crc32 key entries ++ (e.bytes cipher crc32 key).take n))
      (if 84 ≤ n then entries ++ [e] else entries) := by
  split
  case isTrue hwhole =>
    have hdata : keyFile cipher crc32 key entries ++ (e.bytes cipher crc32 key).take n =
        keyFile cipher crc32 key (entries ++ [e]) ++ [] := by
      rw [take_of_length_le (by rw [e.length_bytes]; exact hwhole)]
      simp [keyFile]
    rw [hdata]
    exact .entries (.inl rfl) rfl
  case isFalse htorn =>
    have hmore : (e.bytes cipher crc32 key).drop n ≠ [] := by
      intro hnil
      have hlen := drop_eq_nil_iff.1 hnil
      rw [e.length_bytes] at hlen
      exact htorn hlen
    exact .entries (.inl rfl) (readFrame_torn _ _ e.encrypted_lt (take_append_drop n _) hmore)

theorem Holds.written {s : KeyStore HostKey Kek} {reg : OpenRegistry HostKey}
    (h : Holds cipher crc32 (some reg.hostKey) s.file entries) (hopen : reg.opened = s.file.isSome)
    (hframed : KeyStore.Framed s.file) (e) (n : Nat) :
    Holds cipher crc32 (some reg.hostKey) (some (s.written cipher crc32 reg e n))
      (if (KeyStore.appendBytes cipher crc32 reg e).length ≤ n then entries ++ [e] else entries) := by
  unfold KeyStore.written KeyStore.appendBytes
  cases hfile : s.file with
  | some data =>
    rw [hfile] at h hopen hframed
    rw [h.eq_keyFile hframed, show reg.opened = true from hopen]
    have hlen : (e.bytes cipher crc32 reg.hostKey).length = 84 := e.length_bytes
    simp only [if_true, nil_append, hlen]
    exact holds_part _ e n
  | none =>
    rw [hfile] at h hopen
    cases h
    rw [show reg.opened = false from hopen]
    have hlen : (versionBytes ++ e.bytes cipher crc32 reg.hostKey).length = 86 := by
      rw [length_append, e.length_bytes]
      rfl
    simp only [Bool.false_eq_true, if_false, hlen]
    match n with
    | 0 => exact .header zero_lt_two
    | 1 => exact .header one_lt_two
    | n + 2 =>
      have hif : 86 ≤ n + 2 ↔ 84 ≤ n := Nat.add_le_add_iff_right (n := 2)
      simp only [hif]
      exact holds_part [] e n

/-! ## The invariant -/

namespace KeyStore

/-- The file holds the newest keys of the appends so far, and the registry matches the file. -/
structure Kept (cipher : KekCipher HostKey Kek) (crc32 : Bytes → UInt32) (s : KeyStore HostKey Kek) :
    Prop where
  file : ∃ entries, Holds cipher crc32 s.hostKey s.file entries ∧
    newestKeks entries = newestKeks (wholeEntries s.appends)
  registry : ∀ reg, s.registry = some reg → s.hostKey = some reg.hostKey ∧ reg.opened = s.file.isSome

variable {s t : KeyStore HostKey Kek} {reg : OpenRegistry HostKey}

theorem Kept.fresh : Kept cipher crc32 (fresh : KeyStore HostKey Kek) :=
  ⟨⟨[], .absent, rfl⟩, fun reg h => by cases h⟩

section

variable (I : Kept cipher crc32 s)

include I

section

variable (hload : loadWithKeys cipher crc32 s.file host prev = .ok r)

include hload

theorem Kept.load (hnone : r.needsReencrypt = []) : Kept cipher crc32 (s.reopen host s.file) := by
  obtain ⟨entries, hholds, hnew⟩ := I.file
  exact ⟨⟨entries, (hholds.load hload).2 hnone, hnew⟩, fun reg h => by cases h; exact ⟨rfl, rfl⟩⟩

theorem Kept.reencrypt {order : List RealmId}
    (horder : ∀ realm, realm ∈ order ↔ (r.keks realm).isSome) (nonce : RealmId → BitVec 96) :
    Kept cipher crc32
      (s.reopen host (some (keyFile cipher crc32 host (listing r.keks order nonce)))) := by
  obtain ⟨entries, hholds, hnew⟩ := I.file
  refine ⟨⟨listing r.keks order nonce, ?_, ?_⟩, fun reg h => by cases h; exact ⟨rfl, rfl⟩⟩
  · rw [← append_nil (keyFile _ _ host _)]
    exact .entries (.inl rfl) rfl
  · -- a listing in any order gives the keys it was made from
    have hlisting : newestKeks (listing r.keks order nonce) = r.keks := by
      funext realm
      rw [newestKeks, foldl_listing]
      cases hkek : r.keks realm with
      | none => simp
      | some kek =>
        have hmem : realm ∈ order := (horder _).2 (by rw [hkek]; rfl)
        simp [hmem]
    rw [hlisting, (hholds.load hload).1]
    exact hnew

end

section

variable (hreg : s.registry = some reg) (hframed : Framed s.file) (e : KekEntry Kek)

include hreg hframed e

/-- What an append that came to `n` bytes leaves in the file. -/
theorem Kept.written (n : Nat) {ended : AppendEnd}
    (hended : ended = .torn ↔ ¬ (appendBytes cipher crc32 reg e).length ≤ n) :
    ∃ entries, Holds cipher crc32 s.hostKey (some (s.written cipher crc32 reg e n)) entries ∧
      newestKeks entries = newestKeks (wholeEntries (s.appends ++ [⟨e, ended⟩])) := by
  obtain ⟨entries, hholds, hnew⟩ := I.file
  obtain ⟨hkey, hopen⟩ := I.registry reg hreg
  rw [hkey] at hholds ⊢
  refine ⟨_, hholds.written hopen hframed e n, ?_⟩
  rw [wholeEntries_snoc]
  by_cases hwhole : (appendBytes cipher crc32 reg e).length ≤ n
  · rw [if_pos hwhole, if_neg (fun htorn => hended.1 htorn hwhole), newestKeks_snoc, newestKeks_snoc,
      hnew]
  · rw [if_neg hwhole, if_pos (hended.2 hwhole), hnew]

theorem Kept.append : Kept cipher crc32 (s.append cipher crc32 reg e) := by
  refine ⟨I.written hreg hframed e _ ?_, fun reg' h => ?_⟩
  · exact ⟨nofun, absurd le_rfl⟩
  · cases h
    exact ⟨(I.registry reg hreg).1, rfl⟩

theorem Kept.tear (n : Nat) : Kept cipher crc32 (s.tear cipher crc32 reg e n) := by
  refine ⟨I.written hreg hframed e n ?_, fun reg' h => by cases h⟩
  split
  case isTrue hwhole => exact ⟨nofun, absurd hwhole⟩
  case isFalse htorn => exact ⟨fun _ => htorn, fun _ => rfl⟩

end

theorem Kept.step (h : LabelledWith (Step cipher crc32) OnFrames s t) : Kept cipher crc32 t := by
  obtain ⟨ev, hframed, hstep⟩ := h
  cases hstep with
  | load hload hnone => exact I.load hload hnone
  | reencrypt hload _ _ horder => exact I.reencrypt hload horder _
  | refuse _ => exact ⟨I.file, fun reg h => by cases h⟩
  | append hreg => exact I.append hreg hframed _
  | crash hreg => exact I.tear hreg hframed _ _

end

theorem Kept.loaded (I : Kept cipher crc32 s) (hload : loadWithKeys cipher crc32 s.file host prev = .ok r)
    (realm) (kek : Kek) : r.keks realm = some kek ↔ Newest s.appends realm kek := by
  obtain ⟨entries, hholds, hnew⟩ := I.file
  rw [(hholds.load hload).1, hnew]
  exact newest_iff

theorem Kept.opens (I : Kept cipher crc32 s) (hkey : s.hostKey = some host) (prev : Option HostKey) :
    ∃ r, loadWithKeys cipher crc32 s.file host prev = .ok r := by
  obtain ⟨entries, hholds, -⟩ := I.file
  exact (hkey ▸ hholds).load_host prev

theorem newest_append (s : KeyStore HostKey Kek) (reg : OpenRegistry HostKey) (e) :
    Newest (s.append cipher crc32 reg e).appends e.realm e.kek :=
  ⟨s.appends, ⟨e, .acked⟩, [], rfl, rfl, rfl, nofun, fun _ h => by cases h⟩

/-- While every append starts on whole entries: a load that returns gives each realm the key of its
newest whole append, the host key of the last load always opens the file, and an append can always
be made and is read back. -/
theorem acknowledged_keks_kept
    (h : Reachable (· = fresh) (LabelledWith (Step cipher crc32) OnFrames) s) :
    (∀ host prev r, loadWithKeys cipher crc32 s.file host prev = .ok r →
      ∀ realm kek, r.keks realm = some kek ↔ Newest s.appends realm kek) ∧
    (∀ host prev, s.hostKey = some host → ∃ r, loadWithKeys cipher crc32 s.file host prev = .ok r) ∧
    (∀ reg, s.registry = some reg → Framed s.file → ∀ e : KekEntry Kek, ∃ t,
      Step cipher crc32 (.append e) s t ∧ ∃ r, loadWithKeys cipher crc32 t.file reg.hostKey none = .ok r ∧
        r.keks e.realm = some e.kek) := by
  have I : Kept cipher crc32 s := h.invariant (fun _ h0 => h0 ▸ .fresh) fun _ _ _ I => I.step
  refine ⟨fun host prev r => I.loaded, fun host prev hkey => I.opens hkey prev,
    fun reg hreg hframed e => ⟨_, .append hreg, ?_⟩⟩
  have I' := I.append hreg hframed e
  obtain ⟨r, hload⟩ := I'.opens (I.registry reg hreg).1 none
  exact ⟨r, hload, (I'.loaded hload _ _).2 (newest_append s reg e)⟩

/-- One byte for a host key and one for a realm's key, in the clear. -/
def clearCipher : KekCipher UInt8 UInt8 where
  encryptKek kek host _ _ := host :: kek :: replicate 58 0
  decryptKek
    | host' :: kek :: _, host, _ => if host' = host then some kek else none
    | _, _, _ => none
  length_encryptKek _ _ _ _ := rfl
  decrypt_encrypt _ _ _ _ := if_pos rfl
  decrypt_other _ _ _ _ _ hne := if_neg hne.symm

def zeroRealm : RealmId := .nil

set_option maxRecDepth 1000 in
/-- Two appends, a third that crashes with one byte of its entry written, and a load. -/
theorem acknowledged_keks_kept_torn :
    ∃ s, Reachable (· = fresh) (LabelledWith (Step clearCipher fun _ => 0) OnFrames) s ∧
      s.appends = [⟨⟨zeroRealm, 6, 0⟩, .acked⟩, ⟨⟨zeroRealm, 7, 0⟩, .acked⟩, ⟨⟨zeroRealm, 8, 0⟩, .torn⟩] ∧
      ∃ r, loadWithKeys clearCipher (fun _ => 0) s.file 1 none = .ok r ∧ r.keks zeroRealm = some 7 := by
  have h0 : Reachable (· = fresh) (LabelledWith (Step clearCipher fun _ => 0) OnFrames) fresh := .start rfl
  have h1 := h0.next ⟨.load 1 none, trivial, .load rfl rfl⟩
  have h2 := h1.next ⟨.append ⟨zeroRealm, 6, 0⟩, trivial, .append rfl⟩
  have h3 := h2.next ⟨.append ⟨zeroRealm, 7, 0⟩, ⟨by decide +kernel, by decide +kernel⟩, .append rfl⟩
  have h4 := h3.next ⟨.crash ⟨zeroRealm, 8, 0⟩ 1, ⟨by decide +kernel, by decide +kernel⟩, .crash rfl⟩
  have h5 := h4.next ⟨.load 1 none, trivial, .load rfl rfl⟩
  obtain ⟨hkept, hopens, -⟩ := acknowledged_keks_kept h5
  obtain ⟨r, hr⟩ := hopens 1 none rfl
  exact ⟨_, h5, rfl, r, hr, (hkept 1 none r hr zeroRealm 7).2 ⟨[_], _, [_], rfl, rfl, rfl, nofun,
    fun _ hlater _ => by cases mem_singleton.1 hlater; rfl⟩⟩

/-- The first append crashes with one byte of its entry written. The restarted registry appends the
next key behind that byte, and the next load takes the last byte of its realm for the first byte of
its length: it returns, without the key. -/
theorem acknowledged_kek_hidden :
    ∃ s, Reachable (· = fresh) (LabelledWith (Step clearCipher fun _ => 0) fun _ _ => True) s ∧
      s.appends = [⟨⟨zeroRealm, 6, 0⟩, .torn⟩, ⟨⟨zeroRealm, 7, 0⟩, .acked⟩] ∧
      Newest s.appends zeroRealm 7 ∧
      ∃ r, loadWithKeys clearCipher (fun _ => 0) s.file 1 none = .ok r ∧ r.keks zeroRealm = none := by
  let loaded : KeyStore UInt8 UInt8 := fresh.reopen 1 none
  have hload : LabelledWith (Step clearCipher fun _ => 0) (fun _ _ => True) fresh loaded :=
    ⟨.load 1 none, trivial, .load rfl rfl⟩
  let torn := loaded.tear clearCipher (fun _ => 0) ⟨1, false⟩ ⟨zeroRealm, 6, 0⟩ 3
  have htorn : LabelledWith (Step clearCipher fun _ => 0) (fun _ _ => True) loaded torn :=
    ⟨.crash ⟨zeroRealm, 6, 0⟩ 3, trivial, .crash rfl⟩
  let reloaded := torn.reopen 1 torn.file
  have hreload : LabelledWith (Step clearCipher fun _ => 0) (fun _ _ => True) torn reloaded :=
    ⟨.load 1 none, trivial, .load rfl rfl⟩
  have happ : LabelledWith (Step clearCipher fun _ => 0) (fun _ _ => True) reloaded
      (reloaded.append clearCipher (fun _ => 0) ⟨1, true⟩ ⟨zeroRealm, 7, 0⟩) :=
    ⟨.append ⟨zeroRealm, 7, 0⟩, trivial, .append rfl⟩
  have hstart : Reachable (· = fresh) (LabelledWith (Step clearCipher fun _ => 0) fun _ _ => True) fresh :=
    .start rfl
  have hempty : loadWithKeys clearCipher (fun _ => 0)
      (reloaded.append clearCipher (fun _ => 0) ⟨1, true⟩ ⟨zeroRealm, 7, 0⟩).file 1 none = .ok .empty := rfl
  exact ⟨_, (((hstart.next hload).next htorn).next hreload).next happ, rfl,
    newest_append _ _ _, _, hempty, rfl⟩

end KeyStore

end

end Hearth.Storage
