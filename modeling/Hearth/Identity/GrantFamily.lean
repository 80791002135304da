import Hearth.Base.Replicated

/-!
# Rotation and revocation of a grant family

A refresh token is rotated by whoever first claims its hash with a replicated
put-if-absent; the family's row then gets the hash of the next token. A
revocation writes a tombstone and claims the hash it found in the row. Checks
are made on a node's own, possibly old, state; the claims are decided in the
log.

`revocation_wins`: a revoker that has the row's current hash wins.
`revocation_loses`: a revoker with an old row claims the wrong hash.
-/

namespace Hearth.Identity

open Base Function Replicated

/-- The fields of the row that a rotation or a revocation reads or writes. -/
structure StoredGrantFamily where
  familyId : String
  currentRefreshHash : String
  expiresAt : Int
  revoked : Bool
  deriving DecidableEq

/-- The rows of one family: its record, its tombstone and the `consumed:refresh:` markers. -/
structure FamilyStore where
  family : Option StoredGrantFamily
  tombstone : Bool
  consumed : String → Bool

namespace FamilyStore

variable (x : FamilyStore)

def putTombstone : FamilyStore := { x with tombstone := true }

def claim (hash : String) : FamilyStore := { x with consumed := update x.consumed hash true }

def putFamily (family : StoredGrantFamily) : FamilyStore := { x with family := some family }

def grantFamilyIsRevoked (family : StoredGrantFamily) : Bool := family.revoked || x.tombstone

end FamilyStore

/-- A call of `rotate_grant_family` (`checked` to `rotated`), of `mark_grant_family_revoked`
(`marking`, `marked`) or the rest of a revocation (`flagging`, `refused`). The row a call has read
goes with it. -/
inductive FamilyCall
  | idle
  | checked (family : StoredGrantFamily)
  /-- The claim is won; `late` if the tombstone was in the log before it. -/
  | claimed (family : StoredGrantFamily) (late : Bool)
  | lost (family : StoredGrantFamily)
  /-- A token pair is returned; `after` if a revocation had returned `Ok`. -/
  | rotated (late after : Bool)
  | marking (family : StoredGrantFamily)
  | marked (family : StoredGrantFamily)
  | flagging (family : StoredGrantFamily)
  | refused

inductive FamilyEvent (T : Type)
  | claim (t : T)
  | tombstone (t : T)
  | flagFailed (t : T)
  | fail (t : T)
  | other

structure FamilySys (N T : Type) where
  rep : Replicated N FamilyStore
  call : T → FamilyCall
  /-- Some `mark_grant_family_revoked` has returned `Ok`. -/
  revokedOk : Bool

namespace FamilySys

variable {N T : Type} [DecidableEq N] [DecidableEq T] (s : FamilySys N T)

def goto (rep : Replicated N FamilyStore) (t : T) (c : FamilyCall) : FamilySys N T :=
  { s with rep, call := update s.call t c }

/-- `node t` is where call `t` runs. -/
inductive Step (node : T → N) : FamilyEvent T → FamilySys N T → FamilySys N T → Prop
  /-- A rotation has passed all its checks on its node's state. -/
  | check {s t f} : s.call t = .idle →
      (s.rep.read (node t)).family = some f → (s.rep.read (node t)).grantFamilyIsRevoked f = false →
      Step node .other s (s.goto s.rep t (.checked f))
  /-- The presented token is not the row's: `revoke_replayed_family`. -/
  | replay {s t f} : s.call t = .idle →
      (s.rep.read (node t)).family = some f → (s.rep.read (node t)).grantFamilyIsRevoked f = false →
      Step node .other s (s.goto s.rep t (.marking f))
  | claim {s t f} : s.call t = .checked f → s.rep.current.consumed f.currentRefreshHash = false →
      Step node (.claim t) s
      (s.goto (s.rep.propose (node t) (s.rep.current.claim f.currentRefreshHash)) t
        (.claimed f s.rep.current.tombstone))
  | lose {s t f} : s.call t = .checked f → s.rep.current.consumed f.currentRefreshHash = true →
      Step node (.claim t) s (s.goto (s.rep.propose (node t) s.rep.current) t (.lost f))
  | lostRevoked {s t f} : s.call t = .lost f → (s.rep.read (node t)).grantFamilyIsRevoked f = true →
      Step node .other s (s.goto s.rep t .refused)
  | lostReplay {s t f} : s.call t = .lost f → (s.rep.read (node t)).grantFamilyIsRevoked f = false →
      Step node .other s (s.goto s.rep t (.marking f))
  /-- The row gets the next token's hash and the pair is returned. -/
  | rotate {s t f late hash expiresAt} : s.call t = .claimed f late → Step node .other s (s.goto
        (s.rep.propose (node t)
          (s.rep.current.putFamily { f with currentRefreshHash := hash, expiresAt }))
        t (.rotated late s.revokedOk))
  /-- Consent is withdrawn, a session ends, a client is archived. -/
  | revoke {s t f} : s.call t = .idle →
      (s.rep.read (node t)).family = some f → Step node .other s (s.goto s.rep t (.marking f))
  | tombstone {s t f} : s.call t = .marking f →
      Step node (.tombstone t) s
      (s.goto (s.rep.propose (node t) s.rep.current.putTombstone) t (.marked f))
  | mark {s t f} : s.call t = .marked f → Step node .other s
        { s.goto (s.rep.propose (node t) (s.rep.current.claim f.currentRefreshHash)) t
          (.flagging f) with
          revokedOk := true }
  | flag {s t f} : s.call t = .flagging f →
      Step node .other s (s.goto
        (s.rep.propose (node t) (s.rep.current.putFamily { f with revoked := true }))
        t .refused)
  /-- `revoke_session` flags the row also when its `mark_grant_family_revoked` has failed. -/
  | flagFailed {s t f} : s.call t = .marking f ∨ s.call t = .marked f → Step node (.flagFailed t) s
        (s.goto (s.rep.propose (node t) (s.rep.current.putFamily { f with revoked := true })) t
          .refused)
  /-- A check refuses the call, or a storage operation of it fails. -/
  | fail {s t} : (∀ late after, s.call t ≠ .rotated late after) →
      Step node (.fail t) s (s.goto s.rep t .refused)
  | catchUp {s n v} (hv : v ≤ s.rep.length) : s.rep.view n ≤ v →
      Step node .other s { s with rep := s.rep.catchUp n v hv }

/-- One row, applied everywhere, and no call. -/
def Init : Prop := (∃ x, s.rep = .start x) ∧ s.call = (fun _ => .idle) ∧ s.revokedOk = false

/-- No rotation that claimed after the tombstone returns a pair after a revocation has returned
`Ok`. -/
def RevocationWins : Prop :=
  ∀ t late after, s.call t = .rotated late after → ¬(late = true ∧ after = true)

/-- The row in the log has the hash of the one read. -/
def Fresh (f : StoredGrantFamily) : Prop :=
  ∃ g, s.rep.current.family = some g ∧ g.currentRefreshHash = f.currentRefreshHash

/-- When a revocation writes its tombstone, or flags the row without one, the row it read is still
fresh; it does not fail between its two writes, and no rotation claims there. -/
def Careful : FamilyEvent T → FamilySys N T → Prop
  | .tombstone t, s => ∀ f, s.call t = .marking f → s.Fresh f
  | .claim _, s => ∀ u f, s.call u ≠ .marked f
  | .flagFailed t, s => (∀ f, s.call t = .marking f → s.Fresh f) ∧ ∀ f, s.call t ≠ .marked f
  | .fail t, s => ∀ f, s.call t ≠ .marked f
  | .other, _ => True

end FamilySys

/-! ## Runs -/

namespace FamilyCall

def Claims : FamilyCall → Prop
  | .claimed .. => True
  | _ => False

/-- What a call has to keep to, with the hashes that a token can have been checked against. -/
def Ok (x : FamilyStore) (opened : String → Prop) : FamilyCall → Prop
  | .checked f => opened f.currentRefreshHash
  | .claimed _ late => late = false ∧ ∀ hash, opened hash → x.consumed hash = true
  | .rotated late _ => late = false
  | .marked f => x.tombstone = true ∧
      ∀ hash, opened hash → x.consumed hash = true ∨ f.currentRefreshHash = hash
  | .flagging _ => x.tombstone = true ∧ ∀ hash, opened hash → x.consumed hash = true
  | _ => True

variable {x y : FamilyStore} {p q : String → Prop} {c : FamilyCall}

theorem Ok.sealed (h : c.Ok x p) (hc : c.Claims) : ∀ hash, p hash → x.consumed hash = true := by
  cases c with
  | claimed => exact h.2
  | _ => cases hc

theorem Ok.mono (h : c.Ok x p) (htomb : x.tombstone = true → y.tombstone = true)
    (hcons : ∀ hash, x.consumed hash = true → y.consumed hash = true)
    (hgrow : ∀ hash, p hash → q hash)
    (hshrink : y.tombstone = true ∨ c.Claims → ∀ hash, q hash → p hash) : c.Ok y q := by
  cases c with
  | checked => exact hgrow _ h
  | claimed =>
    exact ⟨h.1, fun hash hq => hcons hash (h.2 hash (hshrink (.inr trivial) hash hq))⟩
  | rotated => exact h
  | marked =>
    have ht := htomb h.1
    exact ⟨ht, fun hash hq => (h.2 hash (hshrink (.inl ht) hash hq)).imp_left (hcons hash)⟩
  | flagging =>
    have ht := htomb h.1
    exact ⟨ht, fun hash hq => hcons hash (h.2 hash (hshrink (.inl ht) hash hq))⟩
  | _ => trivial

end FamilyCall

namespace FamilySys

variable {N T : Type} [DecidableEq N] [DecidableEq T] (s : FamilySys N T)

/-- The hash stood in the row while there was no tombstone: a node can have checked a token
against it. -/
def OpenHash (hash : String) : Prop :=
  ∃ x f, s.rep.Logged x ∧ x.tombstone = false ∧ x.family = some f ∧ f.currentRefreshHash = hash

/-- Every hash a token can have been checked against is spent. -/
def Sealed : Prop := ∀ hash, s.OpenHash hash → s.rep.current.consumed hash = true

structure Inv (s : FamilySys N T) : Prop where
  known : ∀ hash, s.OpenHash hash → s.rep.current.consumed hash = true ∨
    ∃ g, s.rep.current.family = some g ∧ g.currentRefreshHash = hash
  calls : ∀ t, (s.call t).Ok s.rep.current s.OpenHash
  single : ∀ t u, (s.call t).Claims → (s.call u).Claims → t = u
  tombstone : s.rep.current.tombstone = true → s.Sealed ∨ ∃ u f, s.call u = .marked f

section

variable {s : FamilySys N T} {rep : Replicated N FamilyStore} {t u : T} {c d : FamilyCall}

omit [DecidableEq N] [DecidableEq T] in
theorem openHash_mono {s' : FamilySys N T} (h : ∀ x, s.rep.Logged x → s'.rep.Logged x)
    {hash : String}
    (hopen : s.OpenHash hash) : s'.OpenHash hash := by
  obtain ⟨x, f, hx, hrest⟩ := hopen
  exact ⟨x, f, h x hx, hrest⟩

omit [DecidableEq N] in
theorem call_goto : (s.goto rep t c).call = update s.call t c := rfl

omit [DecidableEq N] in
/-- A call moves on. The tombstone and the markers stay, and an open row is put only when no
rotation holds a claim. -/
theorem Inv.goto (h : s.Inv) {x} (hx : rep.current = x) (hlog : ∀ y, s.rep.Logged y → rep.Logged y)
    (htomb : s.rep.current.tombstone = true → x.tombstone = true)
    (hcons : ∀ hash, s.rep.current.consumed hash = true → x.consumed hash = true)
    (hopen : ∀ hash, (s.goto rep t c).OpenHash hash → s.OpenHash hash ∨
      x.tombstone = false ∧ (∃ g, x.family = some g ∧ g.currentRefreshHash = hash) ∧
        ∀ u, ¬((s.goto rep t c).call u).Claims)
    (hknown : ∀ hash, s.OpenHash hash → x.consumed hash = true ∨
      ∃ g, x.family = some g ∧ g.currentRefreshHash = hash)
    (hself : c.Ok x s.OpenHash) (hclaim : c.Claims → ∀ u, ¬(s.call u).Claims)
    (htombstone : x.tombstone = true → (∀ hash, s.OpenHash hash → x.consumed hash = true) ∨
      (∃ f, c = .marked f) ∨ s.rep.current.tombstone = true ∧ ∀ f, s.call t ≠ .marked f) :
    (s.goto rep t c).Inv := by
  subst hx
  have hgrow : ∀ hash, s.OpenHash hash → (s.goto rep t c).OpenHash hash :=
    fun _ => openHash_mono hlog
  -- with a tombstone in the log, or a claim, no hash becomes open
  have hshrink : ∀ u, rep.current.tombstone = true ∨ ((s.goto rep t c).call u).Claims →
      ∀ hash, (s.goto rep t c).OpenHash hash → s.OpenHash hash := fun u hu hash hh =>
    (hopen hash hh).resolve_right fun ⟨ht, _, hno⟩ =>
      hu.elim (fun ht' => nomatch ht'.symm.trans ht) (hno u)
  refine ⟨fun hash hh => ?_, fun u => ?_, ?_, fun ht => ?_⟩
  · rcases hopen hash hh with hh | ⟨-, hg, -⟩
    · exact hknown hash hh
    · exact .inr hg
  · exact forall_move call_goto (fun hs => hself.mono id (fun _ => id) hgrow hs)
      (fun u _ hs => (h.calls u).mono htomb hcons hgrow hs) u (hshrink u)
  · exact unique_move h.single call_goto fun hc u hu => absurd hu (hclaim hc u)
  · have hold := hshrink t (.inl ht)
    rcases htombstone ht with hs | ⟨f, hc⟩ | ⟨ht', hnot⟩
    · exact .inl fun hash hh => hs hash (hold hash hh)
    · exact .inr ⟨t, f, (update_self ..).trans hc⟩
    · rcases h.tombstone ht' with hs | ⟨u, f, hu⟩
      · exact .inl fun hash hh => hcons hash (hs hash (hold hash hh))
      · refine .inr ⟨u, f, ?_⟩
        have hne : u ≠ t := by
          rintro rfl
          exact hnot f hu
        exact (update_of_ne hne ..).trans hu

omit [DecidableEq N] in
/-- A call moves on without a write. -/
theorem Inv.quiet (h : s.Inv) (hnot : ∀ f, s.call t ≠ .marked f)
    (hself : c.Ok s.rep.current s.OpenHash)
    (hclaim : ¬c.Claims) : (s.goto s.rep t c).Inv :=
  h.goto rfl (fun _ hy => hy) (fun ht => ht) (fun _ hc => hc) (fun _ => .inl) h.known hself
    (fun hc => absurd hc hclaim) fun ht => .inr (.inr ⟨ht, hnot⟩)

omit [DecidableEq N] [DecidableEq T] in
theorem Inv.callOk (h : s.Inv) (hc : s.call t = c) : c.Ok s.rep.current s.OpenHash := hc ▸ h.calls t

end

section

variable {s s' : FamilySys N T} {n : N} {t : T} {c : FamilyCall} {x : FamilyStore}
  {f : StoredGrantFamily} {hash : String}

section

variable (h : (s.goto (s.rep.propose n x) t c).OpenHash hash)

include h

theorem openHash_propose :
    s.OpenHash hash ∨ x.tombstone = false ∧ ∃ g, x.family = some g ∧
    g.currentRefreshHash = hash := by
  obtain ⟨y, g, hy, ht, hg, hhash⟩ := h
  rcases logged_propose.1 hy with hy | rfl
  · exact .inl ⟨y, g, hy, ht, hg, hhash⟩
  · exact .inr ⟨ht, g, hg, hhash⟩

/-- A write that leaves the row's hash alone, or that comes after a tombstone, opens no hash. -/
theorem openHash_write
    (hx : x.tombstone = false → s.rep.current.tombstone = false ∧ ∀ g, x.family = some g →
      s.Fresh g) :
    s.OpenHash hash := by
  rcases openHash_propose h with h | ⟨ht, g, hg, hhash⟩
  · exact h
  · obtain ⟨ht', hfresh⟩ := hx ht
    obtain ⟨g', hg', heq⟩ := hfresh g hg
    exact ⟨s.rep.current, g', s.rep.logged_current, ht', hg', heq.trans hhash⟩

theorem openHash_same (htomb : x.tombstone = s.rep.current.tombstone := by rfl)
    (hfamily : x.family = s.rep.current.family := by rfl) : s.OpenHash hash :=
  openHash_write h fun ht => ⟨htomb ▸ ht, fun g hg => ⟨g, hfamily ▸ hg, rfl⟩⟩

end

omit [DecidableEq T] in
theorem logged_mono (y : FamilyStore) (hy : s.rep.Logged y) : (s.rep.propose n x).Logged y :=
  logged_propose.2 (.inl hy)

theorem consumed_claim {hash'} (h : x.consumed hash' = true) :
    (x.claim hash).consumed hash' = true := by
  show update x.consumed hash true hash' = true
  by_cases heq : hash' = hash
  · rw [heq, update_self]
  · rw [update_of_ne heq, h]

theorem consumed_claim_self : (x.claim hash).consumed hash = true := update_self ..

omit [DecidableEq N] [DecidableEq T] in
theorem claim_seals (h : ∀ hash', s.OpenHash hash' → x.consumed hash' = true ∨ hash = hash')
    (hash' : String)
    (hopen : s.OpenHash hash') : (x.claim hash).consumed hash' = true := by
  rcases h hash' hopen with hc | rfl
  · exact consumed_claim hc
  · exact consumed_claim_self

section

variable (h : s.Inv)

include h

theorem inv_claim (ht : s.call t = .checked f)
    (hfree : s.rep.current.consumed f.currentRefreshHash = false)
    (hcare : ∀ u g, s.call u ≠ .marked g) :
    (s.goto (s.rep.propose n (s.rep.current.claim f.currentRefreshHash)) t
      (.claimed f s.rep.current.tombstone)).Inv := by
  have hopen : s.OpenHash f.currentRefreshHash := h.callOk ht
  have hunseal : ¬s.Sealed := fun hs => nomatch hfree.symm.trans (hs _ hopen)
  have htomb : s.rep.current.tombstone = false := by
    by_contra hne
    rcases h.tombstone (eq_true_of_ne_false hne) with hs | ⟨u, g, hu⟩
    · exact hunseal hs
    · exact hcare u g hu
  -- the claimed hash is the row's, and all others were spent before
  have hseal := claim_seals fun hash hh => (h.known hash hh).imp_right fun ⟨g, hg, hhash⟩ => by
    rcases h.known _ hopen with hc | ⟨g', hg', heq⟩
    · exact nomatch hfree.symm.trans hc
    · cases hg.symm.trans hg'
      exact heq.symm.trans hhash
  exact h.goto current_propose logged_mono (fun ht => ht) (fun _ => consumed_claim)
    (fun _ hh => .inl (openHash_same hh)) (fun hash hh => .inl (hseal hash hh)) ⟨htomb, hseal⟩
    (fun _ u hu => hunseal ((h.calls u).sealed hu)) fun ht => nomatch htomb.symm.trans ht

theorem inv_lose (ht : s.call t = .checked f) :
    (s.goto (s.rep.propose n s.rep.current) t (.lost f)).Inv :=
  h.goto current_propose logged_mono (fun ht => ht) (fun _ hc => hc)
    (fun _ hh => .inl (openHash_same hh)) h.known trivial nofun
    fun htomb => .inr (.inr ⟨htomb, by rw [ht]; nofun⟩)

theorem inv_rotate {late after} (ht : s.call t = .claimed f late) (g : StoredGrantFamily) :
    (s.goto (s.rep.propose n (s.rep.current.putFamily g)) t (.rotated late after)).Inv := by
  obtain ⟨hlate, hseal⟩ := h.callOk ht
  -- only this rotation held a claim
  have hnone : ∀ u, ¬((s.goto (s.rep.propose n (s.rep.current.putFamily g)) t
      (.rotated late after)).call u).Claims :=
    forall_move (motive := fun _ c => ¬c.Claims) call_goto id fun u hne hu =>
      hne (h.single u t hu (by rw [ht]; trivial))
  exact h.goto current_propose logged_mono (fun htomb => htomb) (fun _ hc => hc)
    (fun _ hh => (openHash_propose hh).imp_right fun ⟨htomb, hg⟩ => ⟨htomb, hg, hnone⟩)
    (fun hash hh => .inl (hseal hash hh)) hlate nofun
    fun htomb => .inr (.inr ⟨htomb, by rw [ht]; nofun⟩)

theorem inv_tombstone (hfresh : s.Fresh f) :
    (s.goto (s.rep.propose n s.rep.current.putTombstone) t (.marked f)).Inv := by
  refine h.goto current_propose logged_mono (fun _ => rfl) (fun _ hc => hc)
    (fun _ hh => .inl (openHash_write hh fun ht => (nomatch ht))) h.known ?_ nofun
    fun _ => .inr (.inl ⟨f, rfl⟩)
  refine ⟨rfl, fun hash hh => (h.known hash hh).imp_right fun ⟨g, hg, hhash⟩ => ?_⟩
  obtain ⟨g', hg', heq⟩ := hfresh
  cases hg.symm.trans hg'
  exact heq.symm.trans hhash

theorem inv_mark (ht : s.call t = .marked f) :
    (s.goto (s.rep.propose n (s.rep.current.claim f.currentRefreshHash)) t (.flagging f)).Inv := by
  obtain ⟨htomb, hspent⟩ := h.callOk ht
  have hseal := claim_seals hspent
  exact h.goto current_propose logged_mono (fun ht => ht) (fun _ => consumed_claim)
    (fun _ hh => .inl (openHash_same hh)) (fun hash hh => .inl (hseal hash hh)) ⟨htomb, hseal⟩ nofun
    fun _ => .inl hseal

theorem inv_flag (ht : s.call t = .flagging f) (g : StoredGrantFamily) :
    (s.goto (s.rep.propose n (s.rep.current.putFamily g)) t .refused).Inv := by
  obtain ⟨htomb, hseal⟩ := h.callOk ht
  have hlate : (s.rep.current.putFamily g).tombstone ≠ false := by
    show s.rep.current.tombstone ≠ false
    rw [htomb]
    nofun
  exact h.goto current_propose logged_mono (fun ht => ht) (fun _ hc => hc)
    (fun _ hh => .inl (openHash_write hh fun ht => absurd ht hlate))
      (fun hash hh => .inl (hseal hash hh))
    trivial nofun fun _ => .inl hseal

theorem inv_flagFailed (ht : ∀ f, s.call t ≠ .marked f) (hfresh : s.Fresh f) :
    (s.goto (s.rep.propose n (s.rep.current.putFamily { f with revoked := true })) t
      .refused).Inv := by
  have hopen : ∀ hash,
      (s.goto (s.rep.propose n (s.rep.current.putFamily { f with revoked := true })) t
        .refused).OpenHash hash → s.OpenHash hash := by
    refine fun hash hh => openHash_write hh fun htomb => ⟨htomb, fun g hg => ?_⟩
    cases hg
    exact hfresh
  refine h.goto current_propose logged_mono (fun ht => ht) (fun _ hc => hc)
    (fun hash hh => .inl (hopen hash hh)) (fun hash hh => ?_) trivial nofun
    fun htomb => .inr (.inr ⟨htomb, ht⟩)
  refine (h.known hash hh).imp_right fun ⟨g, hg, hhash⟩ => ⟨_, rfl, ?_⟩
  obtain ⟨g', hg', heq⟩ := hfresh
  cases hg.symm.trans hg'
  exact heq.symm.trans hhash

theorem inv_family_step {node ev} (hc : Careful ev s) (hst : Step node ev s s') : s'.Inv := by
  cases hst with
  | @check _ t f ht hf hlive =>
    exact h.quiet (by rw [ht]; nofun)
      ⟨_, f, s.rep.logged_read _, (Bool.or_eq_false_iff.1 hlive).2, hf, rfl⟩ id
  | replay ht | lostRevoked ht | lostReplay ht | revoke ht =>
    exact h.quiet (by rw [ht]; nofun) trivial id
  | claim ht hfree => exact inv_claim h ht hfree hc
  | lose ht => exact inv_lose h ht
  | rotate ht => exact inv_rotate h ht _
  | tombstone ht => exact inv_tombstone h (hc _ ht)
  | @mark _ t _ ht =>
    have hmark := inv_mark (n := node t) h ht
    exact { hmark with }
  | flag ht => exact inv_flag h ht _
  | @flagFailed _ t f ht =>
    obtain ⟨hfresh, hmarked⟩ := hc
    exact inv_flagFailed h hmarked (hfresh f (ht.resolve_right (hmarked f)))
  | fail => exact h.quiet hc trivial id
  | catchUp =>
    exact { h with }

end

omit [DecidableEq N] [DecidableEq T] in
theorem inv_family_init (h : Init s) : s.Inv := by
  obtain ⟨⟨x, hrep⟩, hcall, -⟩ := h
  have hone : ∀ {hash}, s.OpenHash hash → x.tombstone = false ∧ ∃ g, x.family = some g ∧
      g.currentRefreshHash = hash := fun ⟨y, g, hy, hrest⟩ => by
    rw [hrep] at hy
    obtain rfl := logged_start.1 hy
    exact ⟨hrest.1, g, hrest.2⟩
  have hcur : s.rep.current = x := by rw [hrep]; rfl
  refine ⟨fun hash hh => ?_, fun t => ?_, fun t u ht => ?_, fun ht => .inl fun hash hh => ?_⟩
  · rw [hcur]
    exact .inr (hone hh).2
  · rw [hcall]
    trivial
  · rw [hcall] at ht
    cases ht
  · rw [hcur] at ht
    exact nomatch ht.symm.trans (hone hh).1

/-- In every run in which a revocation has the row's current hash when it writes its tombstone and
no rotation claims between its two writes, no rotation that claims after a tombstone returns a token
pair once a revocation has returned `Ok`. -/
theorem revocation_wins {node : T → N} (h : Reachable Init (LabelledWith (Step node) Careful) s) :
    s.RevocationWins := by
  have hinv : s.Inv := h.preserves inv_family_init fun hi => inv_family_step hi
  intro t late after ht hbad
  have hlate : late = false := hinv.callOk ht
  exact nomatch hlate.symm.trans hbad.1

end

section

def demoFamily (hash : String) : StoredGrantFamily :=
  { familyId := "fam_1", currentRefreshHash := hash, expiresAt := 0, revoked := false }

def demoStore : FamilyStore :=
  { family := some (demoFamily "h0"), tombstone := false, consumed := fun _ => false }

/-- Three nodes, call `i` on node `i`. -/
def demoSys : FamilySys (Fin 3) (Fin 3) :=
  { rep := .start demoStore, call := fun _ => .idle, revokedOk := false }

/-- Call 0 rotates to `h1`; call 1 reads that row and revokes; call 2 has checked `h1` before the
tombstone and claims it afterwards. -/
theorem revocation_wins_rotated : ∃ s : FamilySys (Fin 3) (Fin 3),
    s.call 0 = .rotated false false ∧ s.revokedOk = true ∧ s.call 2 = .lost (demoFamily "h1") ∧
      s.RevocationWins := by
  have h0 : Reachable Init (LabelledWith (Step (id : Fin 3 → Fin 3)) Careful) demoSys :=
    .start ⟨⟨demoStore, rfl⟩, rfl, rfl⟩
  have h1 := h0.take (.check (t := 0) rfl rfl rfl)
  have h2 := h1.next ⟨.claim 0, fun
    | 0, _, hu | 1, _, hu => (nomatch hu)
    | 2, _, hu => (nomatch hu),
    .claim rfl rfl⟩
  have h3 := h2.take (@Step.rotate _ _ _ _ id _ 0 _ _ "h1" 0 rfl)
  have h4 := h3.take (.catchUp (n := 1) (Nat.le_refl 2) (Nat.zero_le 2))
  have h5 := h4.take (.catchUp (n := 2) (Nat.le_refl 2) (Nat.zero_le 2))
  have h6 := h5.take (.check (t := 2) rfl rfl rfl)
  have h7 := h6.take (.revoke (t := 1) rfl rfl)
  have h8 := h7.next ⟨.tombstone 1, fun f hf => ⟨demoFamily "h1", rfl, by cases hf; rfl⟩,
    .tombstone rfl⟩
  have h9 := h8.take (.mark (t := 1) rfl)
  have h10 := h9.next ⟨.claim 2, fun
    | 0, _, hu | 1, _, hu => (nomatch hu)
    | 2, _, hu => (nomatch hu),
    .lose rfl rfl⟩
  exact ⟨_, rfl, rfl, rfl, revocation_wins h10⟩

/-- Call 0 rotates from `h0` to `h1`, and node 2 applies it. Call 1, on a node that has not,
revokes the family: it finds `h0`, which is spent, writes the tombstone and returns `Ok`. Call 2
then claims `h1` and returns a pair. -/
theorem revocation_loses : ∃ s : FamilySys (Fin 3) (Fin 3),
    Reachable Init (LabelledWith (Step id) fun _ _ => True) s ∧ ¬s.RevocationWins := by
  have h0 : Reachable Init (LabelledWith (Step (id : Fin 3 → Fin 3)) fun _ _ => True) demoSys :=
    .start ⟨⟨demoStore, rfl⟩, rfl, rfl⟩
  have h1 := h0.take (.check (t := 0) rfl rfl rfl)
  have h2 := h1.take (.claim (t := 0) rfl rfl)
  have h3 := h2.take (@Step.rotate _ _ _ _ id _ 0 _ _ "h1" 0 rfl)
  have h4 := h3.take (.catchUp (n := 2) (Nat.le_refl 2) (Nat.zero_le 2))
  have h5 := h4.take (.check (t := 2) rfl rfl rfl)
  have h6 := h5.take (.revoke (t := 1) rfl rfl)
  have h7 := h6.take (.tombstone (t := 1) rfl)
  have h8 := h7.take (.mark (t := 1) rfl)
  have h9 := h8.take (.claim (t := 2) rfl rfl)
  have h10 := h9.take (@Step.rotate _ _ _ _ id _ 2 _ true "h2" 0 rfl)
  exact ⟨_, h10, fun hwins => hwins 2 true true rfl ⟨rfl, rfl⟩⟩

end

end FamilySys

end Hearth.Identity
