import Hearth.Wal.Commit

/-!
# Nonce uniqueness across crashes

Runs of a WAL in which the process may stop at any moment and the file is opened
again from what survived. A record is sealed under the segment key and a nonce
made from its number, so no two different payloads may be sealed under one key
and one number, counting also the seals whose bytes were lost.

Results:
1. `nonce_unique`: this holds in every run in which, whenever the surviving file
   is cut exactly at the end of a record, no later record had been sealed under
   its key.
2. `nonce_reused`: it fails otherwise. The open keeps the key of a file that
   ends in a whole record, and numbers on from there.
-/

namespace Hearth.Wal.WalSys

open Base List

variable {T : Type} [DecidableEq T] {C : Cipher}

/-- The seals an open performs: those of a rebuild. -/
def openSeals (i : Nat) : Recovery C → List (Seal C)
  | .torn scan => sealsFrom C (C.generateDek i) 0 (scan.entries.map WalEntry.serialize)
  | _ => []

/-- The keys known after an open: a kept segment's key is an old one, or one from before the
run; otherwise the open has generated one. -/
inductive OpenKeys (s : WalSys T C) : Recovery C → List C.Dek → Prop
  | fresh : OpenKeys s .fresh (s.keys ++ [C.generateDek s.nextKey])
  | torn {scan} : OpenKeys s (.torn scan) (s.keys ++ [C.generateDek s.nextKey])
  | old {wal} : wal.dek ∈ s.keys → OpenKeys s (.kept wal) s.keys
  | unknown {wal} : wal.dek ∉ s.keys → OpenKeys s (.kept wal) (s.keys ++ [wal.dek])

/-- The process stops, `img` survives, and the next process opens it. -/
inductive Reopen (s : WalSys T C) (img : Bytes) : WalSys T C → Prop
  | intro {r rs keys} : s.file.Survives img →
      recover C img = .ok r → Holds C (r.segment s.nextKey).content (r.segment s.nextKey).dek rs →
      (r.segment s.nextKey).recordCounter = rs.length → OpenKeys s r keys →
      Reopen s img { (ofSegment s.nextKey (r.segment s.nextKey) rs : WalSys T C) with
          keys := keys, seals := s.seals ++ openSeals s.nextKey r }

/-- A step of the process, or a crash and the next open. -/
inductive CrashStep (maxSize : Nat) : WalSys T C → WalSys T C → Prop
  | run {s s'} : Step maxSize s s' → CrashStep maxSize s s'
  | reopen {s s' img} : Reopen s img s' → CrashStep maxSize s s'

/-- If `img` is a header and whole records numbered below `k`, then no record from `k` on has
been sealed under its key. -/
def TailWhole (s : WalSys T C) (img : Bytes) : Prop :=
  ∀ allData dek ps, versioned (repairPartialHeader img) = .ok allData →
    C.unwrapDek (slice allData 6 76) = .ok dek → allData.drop recordOffset = frames C dek 0 ps →
    ∀ q ∈ s.seals, q.dek = dek → q.num < ps.length

/-- Every file opened by this step has a whole tail in the sense of `TailWhole`. -/
def ReopensWhole (s s' : WalSys T C) : Prop := ∀ img, Reopen s img s' → TailWhole s img

/-- No two payloads were sealed under one key and number. -/
def NonceUnique (s : WalSys T C) : Prop :=
  ∀ q ∈ s.seals, ∀ q' ∈ s.seals, q.dek = q'.dek → q.num = q'.num → q.payload = q'.payload

/-! ## Seals of consecutive records -/

variable {s s' : WalSys T C} {maxSize : Nat}

section

omit [DecidableEq T]

theorem mem_sealsFrom {dek n ps q} (h : q ∈ sealsFrom C dek n ps) :
    q.dek = dek ∧ n ≤ q.num ∧ q.num < n + ps.length ∧ ps[q.num - n]? = some q.payload := by
  induction ps generalizing n with
  | nil => cases h
  | cons p ps ih =>
    rcases mem_cons.1 h with rfl | h
    · exact ⟨rfl, le_rfl, by simp, by simp⟩
    · obtain ⟨h1, h2, h3, h4⟩ := ih h
      refine ⟨h1, by omega, by rw [length_cons]; omega, ?_⟩
      rw [show q.num - n = q.num - (n + 1) + 1 by omega]
      exact h4

/-- The invariant behind `nonce_unique`: seals use known keys, those of the current key are
numbered below the counter, and a key generated for a rotation under way has no seals. -/
structure NonceOk (s : WalSys T C) : Prop where
  known : ∀ q ∈ s.seals, q.dek ∈ s.keys
  current : s.dek ∈ s.keys
  below : ∀ q ∈ s.seals, q.dek = s.dek → q.num < s.recordCounter
  unique : NonceUnique s
  pending : ∀ k, (s.io = .flushed k ∨ s.io = .truncated k ∨ s.io = .headed k) →
    C.generateDek k ∈ s.keys ∧ ∀ q ∈ s.seals, q.dek ≠ C.generateDek k

/-- Sealing records from the counter on, under a key whose seals lie below it. -/
theorem nonceUnique_append {dek n ps}
    (h : NonceUnique s) (hbelow : ∀ q ∈ s.seals, q.dek = dek → q.num < n) :
    ∀ q ∈ s.seals ++ sealsFrom C dek n ps, ∀ q' ∈ s.seals ++ sealsFrom C dek n ps,
      q.dek = q'.dek → q.num = q'.num → q.payload = q'.payload := by
  have hcross : ∀ q ∈ s.seals, ∀ q' ∈ sealsFrom C dek n ps, q.dek = q'.dek → q.num ≠ q'.num := by
    intro q hq q' hq' hd hn
    obtain ⟨h1, h2, -, -⟩ := mem_sealsFrom hq'
    have := hbelow q hq (hd.trans h1)
    omega
  intro q hq q' hq' hd hn
  rcases mem_append.1 hq with hq | hq <;> rcases mem_append.1 hq' with hq' | hq'
  · exact h q hq q' hq' hd hn
  · exact absurd hn (hcross q hq q' hq' hd)
  · exact absurd hn.symm (hcross q' hq' q hq hd.symm)
  · have h1 := (mem_sealsFrom hq).2.2.2
    have h2 := (mem_sealsFrom hq').2.2.2
    rw [hn, h2] at h1
    exact (Option.some.inj h1).symm

/-! ## Steps -/

theorem nonceOk_ofSegment {i wal rs} (hcount : wal.recordCounter = rs.length) :
    NonceOk (ofSegment i wal rs : WalSys T C) := by
  have hall : ∀ q ∈ (ofSegment i wal rs : WalSys T C).seals, q.dek = wal.dek ∧ q.num < rs.length := by
    intro q hq
    obtain ⟨h1, -, h3, -⟩ := mem_sealsFrom hq
    rw [length_map] at h3
    exact ⟨h1, by omega⟩
  refine ⟨fun q hq => ?_, mem_singleton_self _, fun q hq _ => ?_, fun q hq q' hq' _ hn => ?_, ?_⟩
  · rw [(hall q hq).1]
    exact mem_singleton_self _
  · show q.num < wal.recordCounter
    rw [hcount]
    exact (hall q hq).2
  · have h1 := (mem_sealsFrom hq).2.2.2
    have h2 := (mem_sealsFrom hq').2.2.2
    rw [hn, h2] at h1
    exact (Option.some.inj h1).symm
  · rintro k (h | h | h) <;> cases h

theorem NonceOk.sealBatch (h : NonceOk s) (b) : NonceOk (s.sealBatch b) := by
  have hlen : ((records b).map Record.payload).length = b.length := by simp [records]
  refine ⟨forall_mem_append.2 ⟨h.known, fun q hq => ?_⟩, h.current, fun q hq hd => ?_,
    nonceUnique_append h.unique h.below, ?_⟩
  · rw [(mem_sealsFrom hq).1]
    exact h.current
  · show q.num < s.recordCounter + b.length
    rcases mem_append.1 hq with hq | hq
    · have := h.below q hq hd
      omega
    · have := (mem_sealsFrom hq).2.2.1
      omega
  · rintro k (hk | hk | hk) <;> cases hk

theorem NonceOk.swapDek (h : NonceOk s) {k} (hio : s.io = .headed k) : NonceOk (s.swapDek k) := by
  obtain ⟨hkey, hfresh⟩ := h.pending k (.inr (.inr hio))
  refine { h with current := hkey, below := fun q hq hd => absurd hd (hfresh q hq) }

/-- A reopened WAL numbers on above the seals of its key. -/
theorem nonceOk_reopen {img} (h : NonceOk s) (hnd : s'.keys.Nodup)
    (hre : Reopen s img s') (hwhole : TailWhole s img) : NonceOk s' := by
  obtain @⟨r, rs, keys, -, hrec, -, hcount, hkeys⟩ := hre
  -- a key that the open generates has no seals yet
  have hfresh : C.generateDek s.nextKey ∉ s.keys → ∀ q ∈ s.seals, q.dek ≠ C.generateDek s.nextKey :=
    fun hnew q hq hd => hnew (hd ▸ h.known q hq)
  have hnew : keys = s.keys ++ [C.generateDek s.nextKey] → C.generateDek s.nextKey ∉ s.keys := by
    intro hk hmem
    have hnd' : keys.Nodup := hnd
    rw [hk] at hnd'
    exact (nodup_append.1 hnd').2.2 _ hmem _ (mem_singleton_self _) rfl
  have hpend : ∀ k, ((.idle : Io) = .flushed k ∨ Io.idle = .truncated k ∨ Io.idle = .headed k) →
      C.generateDek k ∈ keys ∧ ∀ q ∈ s.seals ++ openSeals s.nextKey r, q.dek ≠ C.generateDek k := by
    rintro k (hk | hk | hk) <;> cases hk
  cases hkeys with
  | fresh =>
    have hno := hfresh (hnew rfl)
    simp only [openSeals, append_nil] at hpend ⊢
    exact ⟨fun q hq => mem_append_left _ (h.known q hq),
      mem_append_right _ (mem_singleton_self _), fun q hq hd => absurd hd (hno q hq),
      h.unique, hpend⟩
  | @torn scan =>
    have hno := hfresh (hnew rfl)
    have hlen : (scan.entries.map WalEntry.serialize).length = rs.length := by
      obtain ⟨rs', hent, hc⟩ := recover_torn hrec
      rw [length_map, hent, length_map, ← hc]
      exact hcount
    refine ⟨fun q hq => ?_, mem_append_right _ (mem_singleton_self _), fun q hq hd => ?_,
      nonceUnique_append h.unique fun q hq hd => absurd hd (hno q hq), hpend⟩
    · rcases mem_append.1 hq with hq | hq
      · exact mem_append_left _ (h.known q hq)
      · rw [(mem_sealsFrom hq).1]
        exact mem_append_right _ (mem_singleton_self _)
    · show q.num < scan.count
      rw [show scan.count = rs.length from hcount]
      rcases mem_append.1 hq with hq | hq
      · exact absurd hd (hno q hq)
      · have := (mem_sealsFrom hq).2.2.1
        omega
  | @old wal hmem =>
    obtain ⟨hv, hd, rs', hreg, -, hc⟩ := recover_kept hrec
    simp only [openSeals, append_nil] at hpend ⊢
    refine ⟨h.known, hmem, fun q hq hqd => ?_, h.unique, hpend⟩
    have := hwhole wal.content wal.dek _ hv hd hreg q hq hqd
    rw [length_map, ← hc] at this
    exact this
  | @unknown wal hmem =>
    simp only [openSeals, append_nil] at hpend ⊢
    refine ⟨fun q hq => mem_append_left _ (h.known q hq), mem_append_right _ (mem_singleton_self _),
      fun q hq (hd : q.dek = wal.dek) => absurd (hd ▸ h.known q hq) hmem, h.unique, hpend⟩

end

theorem nonceOk_step (h : NonceOk s) (hnd : s'.keys.Nodup) (hst : Step maxSize s s') : NonceOk s' := by
  cases hst with
  | thread => exact { h with }
  | flushed =>
    have hnew : C.generateDek s.nextKey ∉ s.keys := by
      have := nodup_append.1 hnd
      exact fun hmem => this.2.2 _ hmem _ (mem_singleton_self _) rfl
    refine ⟨fun q hq => mem_append_left _ (h.known q hq), mem_append_left _ h.current,
      h.below, h.unique, ?_⟩
    rintro k (hk | hk | hk)
    · cases hk
      refine ⟨mem_append_right _ (mem_singleton_self _), fun q hq hd => hnew ?_⟩
      rw [← hd]
      exact h.known q hq
    · cases hk
    · cases hk
  | reserve => exact h.sealBatch _
  | truncate hio =>
    refine { h with pending := fun k hk => h.pending k ?_ }
    rcases hk with hk | hk | hk <;> cases hk
    exact .inl hio
  | writeHeader hio =>
    refine { h with pending := fun k hk => h.pending k ?_ }
    rcases hk with hk | hk | hk <;> cases hk
    exact .inr (.inl hio)
  | syncHeader hio _ => exact (h.swapDek hio).sealBatch _
  | _ =>
    refine { h with pending := fun k hk => ?_ }
    rcases hk with hk | hk | hk <;> cases hk

/-! ## Runs -/

theorem crashStep_keys (h : CrashStep maxSize s s') : s.keys <+: s'.keys := by
  cases h with
  | run hst =>
    cases hst with
    | flushed => exact prefix_append _ _
    | _ => exact prefix_rfl
  | reopen hre =>
    obtain @⟨r, rs, keys, -, -, -, -, hkeys⟩ := hre
    cases hkeys with
    | old => exact prefix_rfl
    | _ => exact prefix_append _ _

theorem nonce_ok (h : Reachable Opened (Guarded (CrashStep maxSize) ReopensWhole) s) :
    s.keys.Nodup → NonceOk s := by
  refine h.invariant (I := fun s => s.keys.Nodup → NonceOk s) (fun s hs _ => ?_)
    fun s s' _ ih hst hnd => ?_
  · obtain ⟨i, file, wal, rs, -, -, hcount, rfl⟩ := hs
    exact nonceOk_ofSegment hcount
  · have hok := ih (hnd.sublist (crashStep_keys hst.1).sublist)
    obtain ⟨hc, hwhole⟩ := hst
    cases hc with
    | run hst => exact nonceOk_step hok hnd hst
    | reopen hre => exact nonceOk_reopen hok hnd hre (hwhole _ hre)

/-- A lone writer of a WAL without a size limit gets its record sealed under the next number. -/
theorem lone_seal {Init R}
    (hR : ∀ s s', Step 0 s s' → s'.proto.pc () ≠ .start → R s s') {s : WalSys Unit C}
    (h : Reachable Init R s)
    (hp : s.proto = .init) (hio : s.io = .idle) (r : Record) :
    ∃ s', Reachable Init R s' ∧ s'.keys = s.keys ∧ s'.file = s.file ∧
      s'.seals = s.seals ++ [⟨s.dek, s.recordCounter, r.payload⟩] ∧
      s'.io = .sealedBuf (frames C s.dek s.recordCounter [r.payload]) ∧
      s'.proto.pc () ≠ .start := by
  obtain ⟨proto, file, dek, encHeader, counter, nextKey, io, keys, seals, placed, starts, synced, torn,
    lost, base, live, out⟩ := s
  subst hp hio
  have h1 := h.next (hR _ _ (.thread (.passFence (t := ()) rfl rfl) rfl) nofun)
  have h2 := h1.next (hR _ _ (.thread (.enqueue (t := ()) r rfl) rfl) nofun)
  have h3 := h2.next (hR _ _ (.thread (.drain (t := ()) rfl) rfl) nofun)
  have h4 := h3.next (hR _ _ (.reserve (t := ()) rfl rfl rfl) nofun)
  exact ⟨_, h4, rfl, rfl, rfl, rfl, nofun⟩

section

omit [DecidableEq T]

theorem Reopen.survives {img} (h : Reopen s img s') : s.file.Survives img := by
  obtain ⟨hsurv⟩ := h
  exact hsurv

/-- A file with a record is not whole without it. -/
theorem tailWhole_of_holds {img dek r} (h : Holds C img dek [r])
    (hseals : ∀ q ∈ s.seals, q.num = 0) : TailWhole s img := by
  intro allData dek' ps hv hdek' hframes q hq _
  obtain ⟨encHeader, hrec⟩ := h.recover_eq
  obtain ⟨hv', hdek, -⟩ := recover_kept hrec
  cases hv.symm.trans hv'
  obtain ⟨version, encHeader', -, h76, -, hfile⟩ := h.header
  rw [hfile, drop_versionedHeader h76] at hframes
  rw [hseals q hq]
  refine length_pos_iff.2 fun hnil => ?_
  rw [hnil] at hframes
  have hlen := length_frames_ge C dek 0 ([r].map Record.payload)
  rw [hframes] at hlen
  exact absurd hlen (by simp [frames])

end

/-- In every run of commits, failures, rotations, crashes and opens in which each file opened
has a whole tail, and in which no key is generated twice, no two payloads are sealed under
one key and number. -/
theorem nonce_unique {maxSize : Nat} {s : WalSys T C}
    (h : Reachable Opened (Guarded (CrashStep maxSize) ReopensWhole) s) (hkeys : s.keys.Nodup) :
    NonceUnique s :=
  (nonce_ok h hkeys).unique

/-- A put is written and synced; the process stops, and the next one keeps the key and seals a
delete under the next number. -/
theorem nonce_unique_reopened : ∃ s : WalSys Unit tagCipher,
    s.seals = [⟨(0 : UInt8), 0, (emptyRecord .put).payload⟩,
      ⟨(0 : UInt8), 1, (emptyRecord .delete).payload⟩] ∧ NonceUnique s := by
  have hR : ∀ s s' : WalSys Unit tagCipher, Step 0 s s' → s'.proto.pc () ≠ .start →
      Guarded (CrashStep 0) ReopensWhole s s' := by
    intro s s' hst hpc
    refine ⟨.run hst, fun img hre => ?_⟩
    obtain ⟨⟩ := hre
    exact absurd rfl hpc
  obtain ⟨s, h, hkeys, hfile, hseals, hio, hpc⟩ :=
    lone_seal hR (.start opened_fresh) rfl rfl (emptyRecord .put)
  have h1 := h.next (hR _ _ (.write hio) hpc)
  have h2 := h1.next (hR _ _ (.sync rfl) hpc)
  have hheld : Holds tagCipher (s.file.content ++
      frames tagCipher (0 : UInt8) 0 [(emptyRecord .put).payload]) (0 : UInt8) [emptyRecord .put] := by
    rw [hfile]
    exact (holds_fresh 0 _).append [emptyRecord .put]
  obtain ⟨encHeader, hrec⟩ := hheld.recover_eq
  have h3 := h2.next ⟨.reopen (.intro (DurableFile.survives_sync.2 rfl) hrec hheld rfl
    (.old (by rw [hkeys]; exact mem_singleton_self _))), fun img hre => ?_⟩
  · obtain ⟨s', h', hkeys', -, hseals', -⟩ := lone_seal hR h3 rfl rfl (emptyRecord .delete)
    refine ⟨s', ?_, nonce_unique h' ?_⟩
    · rw [hseals']
      show s.seals ++ [] ++ [_] = _
      rw [hseals]
      rfl
    · rw [hkeys']
      exact hkeys ▸ pairwise_singleton _ _
  · rw [DurableFile.survives_sync.1 hre.survives]
    refine tailWhole_of_holds hheld fun q hq => ?_
    replace hq : q ∈ s.seals := hq
    rw [hseals] at hq
    rw [mem_singleton.1 hq]
    rfl

/-! ## A nonce used twice -/

/-- A process seals record 0 and stops before a byte of it is written. The next process keeps
the key, because the file ends in a whole header, and seals another payload as record 0. -/
theorem nonce_reused : ∃ s : WalSys Unit tagCipher,
    Reachable Opened (CrashStep 0) s ∧ s.keys.Nodup ∧ ¬ NonceUnique s := by
  obtain ⟨s, h, hkeys, hfile, hseals, -⟩ := lone_seal (fun _ _ hst _ => CrashStep.run hst)
    (.start (opened_fresh (C := tagCipher))) rfl rfl _
  have hheld : Holds tagCipher s.file.content (0 : UInt8) [] := by
    rw [hfile]
    exact holds_fresh 0 _
  obtain ⟨encHeader, hrec⟩ := hheld.recover_eq
  have hre : Reopen s s.file.content _ := .intro
    (by rw [hfile]; exact DurableFile.survives_stable.2 rfl) hrec hheld rfl
    (.old (by rw [hkeys]; exact mem_singleton_self _))
  obtain ⟨s', h', hkeys', -, hseals', -⟩ :=
    lone_seal (fun _ _ hst _ => .run hst) (h.next (.reopen hre)) rfl rfl _
  refine ⟨s', h', ?_, fun hu => ?_⟩
  · rw [hkeys']
    exact hkeys ▸ pairwise_singleton _ _
  · have h1 : (⟨(0 : UInt8), 0, (emptyRecord .put).payload⟩ : Seal tagCipher) ∈ s'.seals := by
      rw [hseals']
      rw [hseals]
      exact mem_cons_self
    have h2 : (⟨(0 : UInt8), 0, (emptyRecord .delete).payload⟩ : Seal tagCipher) ∈ s'.seals := by
      rw [hseals']
      exact mem_append_right _ mem_cons_self
    exact absurd (hu _ h1 _ h2 rfl rfl) (by decide)

end Hearth.Wal.WalSys
