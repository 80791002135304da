import Hearth.Wal.Torn

/-!
# Crashes inside an open

`open_with_fs` changes the file it reads: it empties and heads a file without a whole
header, rewrites a v0 segment in its v1 form, and replaces a torn segment by a rename.
A crash leaves the file in one of the states on the way.

Results:
1. `CrashedOpen.same`: a file that is not a v0 segment with records is replayed as before,
   and is left as such a file.
2. `reopen_same_iff`: so over any number of crashes, and only then.
3. `migration_loses`: a v0 segment is truncated before its v1 form is written.
-/

namespace Hearth.Wal

open Base Relation DurableFile List

section

variable (C : Cipher)

/-- The states of the file in a `set_len(0)`, `write_all` and `sync_all`. An empty file is not
truncated, and would stay as it is. -/
def rewriteInPlace (file content : Bytes) : List (DurableFile UInt8) :=
  let emptied := (stable file).truncate
  [.stable file, emptied, emptied.append content, (emptied.append content).sync]

/-- The states of the file while `open_with_fs` runs. A rebuild is staged in another file. -/
def openStates (i : Nat) (file : Bytes) : List (DurableFile UInt8) :=
  match recover C file with
  | .error _ => [.stable file]
  | .ok .fresh => rewriteInPlace file (writeFreshHeader C i).content
  | .ok (.kept wal) =>
    if walMagic.isPrefixOf file then [.stable file] else rewriteInPlace file wal.content
  | .ok (.torn scan) => [.stable file, .stable (rebuildTruncatedSegment C i scan).content]

/-- An open of the file crashes, and leaves the image. -/
def CrashedOpen (file img : Bytes) : Prop := ∃ i, ∃ f ∈ openStates C i file, f.Survives img

/-- `open_with_fs`, then `read_all`. -/
def replayed (i : Nat) (file : Bytes) : Except StorageError (List WalEntry) :=
  (openWithFs C i file).bind Segment.readAll

/-- Whatever key is fresh, the two files are replayed alike. -/
def Alike (file img : Bytes) : Prop := ∀ i j, replayed C j img = replayed C i file

/-- A v0 segment with at least one record, and nothing behind its records. -/
def PlainRecords (file : Bytes) : Prop :=
  walMagic.isPrefixOf file = false ∧ 76 ≤ file.length ∧ ∃ dek rs, rs ≠ [] ∧ C.unwrapDek (file.take 76) = .ok dek ∧
    file.drop 76 = frames C dek 0 (rs.map Record.payload)

end

variable {C : Cipher} {file img full : Bytes} {dek : C.Dek} {rs : List Record}

theorem replayed_eq (i : Nat) : replayed C i file = (recover C file).bind fun
    | .fresh => .ok []
    | .kept wal => wal.readAll
    | .torn scan => .ok scan.entries := by
  unfold replayed openWithFs
  cases hrec : recover C file with
  | error e => rfl
  | ok r =>
    cases r with
    | fresh =>
      have hheld : Holds C (writeFreshHeader C i).content (writeFreshHeader C i).dek [] := holds_fresh i _
      exact hheld.readAll
    | kept wal => rfl
    | torn scan =>
      obtain ⟨rs, hent, -⟩ := recover_torn hrec
      obtain ⟨es, n, valid⟩ := scan
      subst hent
      refine (Holds.readAll (holds_rebuilt i rs n valid)).trans ?_
      rw [List.map_map]
      rfl

theorem alike_refl : Alike C file file := fun i j => (replayed_eq j).trans (replayed_eq i).symm

theorem Holds.replayed (h : Holds C file dek rs) (i : Nat) : replayed C i file = .ok (rs.map Record.entry) := by
  obtain ⟨encHeader, hrec⟩ := h.recover_eq
  rw [replayed_eq, hrec]
  exact readAll h

/-- A part of a v1 segment is no v0 segment. -/
theorem Holds.not_plainRecords (h : Holds C full dek rs) (hpart : img <+: full) : ¬ PlainRecords C img := by
  rintro ⟨hmagic, hlen, -⟩
  rw [ isPrefixOf_iff_prefix.2 (prefix_of_prefix_length_le h.isPrefix_magic hpart
    (le_trans (by decide) hlen))] at hmagic
  cases hmagic

theorem survives_rewrite {content f} (hf : f ∈ rewriteInPlace file content) (h : f.Survives img) :
    img = file ∨ img <+: content := by
  simp only [rewriteInPlace, mem_cons, not_mem_nil, or_false] at hf
  rcases hf with rfl | rfl | rfl | rfl <;> simp [Survives, stable, truncate, append, sync] at h
  all_goals aesop

theorem rewrite_same {f} (hplain : ¬ PlainRecords C file) (hfile : ∀ i, replayed C i file = .ok [])
    (hheld : Holds C full dek []) (hf : f ∈ rewriteInPlace file full) (h : f.Survives img) :
    ¬ PlainRecords C img ∧ Alike C file img := by
  rcases survives_rewrite hf h with rfl | hpart
  · exact ⟨hplain, alike_refl⟩
  · refine ⟨hheld.not_plainRecords hpart, fun i j => ?_⟩
    obtain ⟨wal, hopen, hread⟩ := open_header_part hheld hpart
    rw [hfile, replayed, hopen]
    exact hread

section

variable (hmagic : walMagic.isPrefixOf file = false)

include hmagic

theorem versioned_plain : versioned file = .ok (walMagic ++ (leBytes 2 walVersionCurrent ++ file)) := by
  simp [versioned, hmagic]

theorem kept_plain {wal : Segment C} (hrec : recover C file = .ok (.kept wal)) (hplain : ¬ PlainRecords C file) :
    Holds C wal.content wal.dek [] := by
  obtain ⟨hver, hdek, rs, hreg, hheld, -⟩ := recover_kept hrec
  have hrep : repairPartialHeader file = file := by
    unfold recover at hrec
    unfold repairPartialHeader at hrec ⊢
    split_ifs at hrec ⊢
    all_goals first | rfl | cases hrec
  rw [hrep, versioned_plain hmagic] at hver
  have hlen := hheld.length_eq
  rw [← Except.ok.inj hver] at hdek hreg hlen
  suffices hrs : rs = [] from hrs ▸ hheld
  by_contra hne
  refine hplain ⟨hmagic, ?_, wal.dek, rs, hne, hdek, hreg⟩
  simp [walMagic, recordOffset] at hlen
  omega

/-- An open that crashes in the migration can leave an empty file. -/
theorem plain_lost (h76 : 76 ≤ file.length) (hdek : C.unwrapDek (file.take 76) = .ok dek)
    (hreg : file.drop 76 = frames C dek 0 (rs.map Record.payload)) :
    CrashedOpen C file [] ∧ ∀ i, replayed C i file = .ok (rs.map Record.entry) := by
  have htake : (file.take 76).length = 76 := by simp [h76]
  have hfull : walMagic ++ (leBytes 2 walVersionCurrent ++ file) =
      versionedHeader walVersionCurrent (file.take 76) ++ file.drop 76 := by
    simp [versionedHeader]
  have hheld : Holds C (walMagic ++ (leBytes 2 walVersionCurrent ++ file)) dek rs :=
    ⟨walVersionCurrent, file.take 76, le_rfl, htake, hdek, hreg ▸ hfull⟩
  have hne : file ≠ [] := ne_nil_of_length_pos (lt_of_lt_of_le (by decide) h76)
  have hsame : recover C file = recover C (walMagic ++ (leBytes 2 walVersionCurrent ++ file)) := by
    have hrep : repairPartialHeader file = file := by simp [repairPartialHeader, hmagic, h76]
    rw [recover, hrep, if_neg hne, versioned_plain hmagic, hfull, recover, repair_versioned htake,
      versioned_versioned htake le_rfl]
    simp [versionedHeader, walMagic]
  obtain ⟨encHeader, hrec⟩ := hheld.recover_eq
  refine ⟨⟨0, (stable file).truncate, ?_, ([], []), ?_, [], prefix_rfl, rfl⟩, fun i => ?_⟩
  · simp [openStates, hsame, hrec, hmagic, rewriteInPlace]
  · simp [truncate]
  · rw [replayed_eq, hsame, ← replayed_eq i, hheld.replayed]

end

theorem CrashedOpen.same (h : CrashedOpen C file img) (hplain : ¬ PlainRecords C file) :
    ¬ PlainRecords C img ∧ Alike C file img := by
  obtain ⟨k, f, hf, himg⟩ := h
  have hkept : f = .stable file → ¬ PlainRecords C img ∧ Alike C file img := by
    rintro rfl
    rw [survives_stable.1 himg]
    exact ⟨hplain, alike_refl⟩
  unfold openStates at hf
  cases hrec : recover C file with
  | error e =>
    rw [hrec] at hf
    exact hkept (mem_singleton.1 hf)
  | ok r =>
    rw [hrec] at hf
    cases r with
    | fresh =>
      refine rewrite_same hplain (fun i => ?_) (holds_fresh k _) hf himg
      rw [replayed_eq, hrec]
      rfl
    | kept wal =>
      dsimp only at hf
      split at hf
      · exact hkept (mem_singleton.1 hf)
      · next hmagic =>
        have hheld := kept_plain (Bool.eq_false_iff.2 hmagic) hrec hplain
        refine rewrite_same hplain (fun i => ?_) hheld hf himg
        rw [replayed_eq, hrec]
        exact hheld.readAll
    | torn scan =>
      rcases mem_cons.1 hf with hf | hf
      · exact hkept hf
      · rw [mem_singleton.1 hf] at himg
        rw [survives_stable.1 himg]
        obtain ⟨rs, hent, -⟩ := recover_torn hrec
        obtain ⟨es, n, valid⟩ := scan
        subst hent
        have hheld := holds_rebuilt (C := C) k rs n valid
        refine ⟨hheld.not_plainRecords prefix_rfl, fun i j => ?_⟩
        rw [hheld.replayed, replayed_eq, hrec, List.map_map]
        rfl

/-- Whatever crashes its opens have, a file is replayed as before exactly if it is no v0 segment with
records. -/
theorem reopen_same_iff (C : Cipher) (file : Bytes) :
    (∀ img, ReflTransGen (CrashedOpen C) file img → Alike C file img) ↔ ¬ PlainRecords C file := by
  constructor
  · rintro h ⟨hmagic, h76, dek, rs, hne, hdek, hreg⟩
    obtain ⟨hcrash, hread⟩ := plain_lost hmagic h76 hdek hreg
    have hsame := h [] (.single hcrash) 0 0
    rw [hread, replayed_eq] at hsame
    exact hne (map_eq_nil_iff.1 (Except.ok.inj hsame).symm)
  · intro hplain img hrun
    suffices hsame : ¬ PlainRecords C img ∧ Alike C file img from hsame.2
    induction hrun with
    | refl => exact ⟨hplain, alike_refl⟩
    | tail _ hcrash ih =>
      obtain ⟨hp, hsame⟩ := hcrash.same ih.1
      exact ⟨hp, fun i j => (hsame 0 j).trans (ih.2 i 0)⟩

def plainSegment : Bytes :=
  tagCipher.wrapDek 0 (0 : UInt8) ++ frames tagCipher (0 : UInt8) 0 [(emptyRecord .put).payload]

theorem migration_loses : CrashedOpen tagCipher plainSegment [] ∧
    replayed tagCipher 1 plainSegment = .ok [(emptyRecord .put).entry] ∧ replayed tagCipher 1 [] = .ok [] := by
  have hreg : plainSegment.drop 76 = frames tagCipher (0 : UInt8) 0 ([emptyRecord .put].map Record.payload) := rfl
  obtain ⟨hcrash, hread⟩ := plain_lost (by decide +kernel) (by decide +kernel) rfl hreg
  exact ⟨hcrash, hread 1, rfl⟩

end Hearth.Wal
