import Hearth.Cluster.Counter

/-!
# The values of a replicated counter

A node applies a log and answers each `IncrementU64` of one counter with a value.
It may go back to an earlier entry, as after a restart or with a snapshot that is
ahead of its log id, and the counter's row or its sidecar may be damaged.

Results:
1. `counter_values_distinct`: if only the counter's last entry is applied again,
   and only while its rows decode, then the values increase with the log, an
   entry answers one value, and no value exceeds the entry's index.
2. `counter_value_changes`: an entry before the last answers another value when
   it is applied again.
-/

namespace Hearth.Cluster

open Base Storage RaftCommand

variable {M : Type}

/-- A node's rows, its place in the log, and the index and value of each answered increment. -/
structure CountSys where
  rows : Rows
  next : Nat
  answers : List (Nat × Nat)

inductive CountEvent
  | apply
  | goBack
  | damage

namespace CountSys

def answered (r : RealmId) (key : Bytes) (e : LogEntry M) (resp : HearthLogResponse) : List (Nat × Nat) :=
  match e.opAt r key with
  | .increment => [(e.logId.index, leNat resp.payload)]
  | _ => []

inductive Step (codec : RowCodec M) (log : CommittedLog M) (r : RealmId) (key : Bytes) :
    CountEvent → CountSys → CountSys → Prop
  | apply {s e} : log.entries[s.next]? = some e →
      Step codec log r key .apply s ⟨(applyEntry codec s.rows e).1, s.next + 1,
        s.answers ++ answered r key e (applyEntry codec s.rows e).2⟩
  | goBack {s n} : n ≤ s.next → Step codec log r key .goBack s { s with next := n }
  /-- The row or its sidecar is replaced by bytes that are no counter. -/
  | damage {s k} {bytes : Bytes} : k = key ∨ k = appliedIndexKey key → bytes.length ≠ 8 →
      Step codec log r key .damage s { s with rows := s.rows.putBatch r [(k, bytes)] }

/-- The counter has not been written yet. -/
def Init (r : RealmId) (key : Bytes) (s : CountSys) : Prop :=
  s.rows.cell r key = ⟨none, none⟩ ∧ s.answers = []

/-- Values increase with the log, an entry has one value, and none exceeds its index. -/
def Distinct (answers : List (Nat × Nat)) : Prop :=
  ∀ a ∈ answers, a.2 ≤ a.1 ∧ ∀ b ∈ answers, (a.1 < b.1 → a.2 < b.2) ∧ (a.1 = b.1 → a.2 = b.2)

/-- The rows of the counter decode to a value and the index of its last entry. -/
def Reads (c : Cell) (value index : Nat) : Prop :=
  decodeU64Counter c.value = .ok value ∧ decodeU64Counter c.sidecar = .ok index

/-- No entry names a row of the state machine or a sidecar, and an entry of the counter comes after
those that were applied, or is the last of them and the rows decode. -/
def Orderly (log : CommittedLog M) (r : RealmId) (key : Bytes) : CountEvent → CountSys → Prop
  | .apply, s => ∀ e, log.entries[s.next]? = some e → isUserKey key = true ∧ e.NamesUserKeys ∧
      (e.opAt r key = .increment → (∀ a ∈ s.answers, a.1 < e.logId.index) ∨
        (∀ a ∈ s.answers, a.1 ≤ e.logId.index) ∧ ∃ value index, Reads (s.rows.cell r key) value index)
  | _, _ => True

/-- When the rows decode, they hold the last answer. -/
structure Inv (r : RealmId) (key : Bytes) (s : CountSys) : Prop where
  distinct : Distinct s.answers
  last : ∀ {v i}, Reads (s.rows.cell r key) v i →
    v ≤ i ∧ (∀ a ∈ s.answers, a.1 ≤ i ∧ a.2 ≤ v) ∧ (s.answers = [] ∧ i = 0 ∨ (i, v) ∈ s.answers)

section

variable {codec : RowCodec M} {log : CommittedLog M} {r : RealmId} {key : Bytes} {s s' : CountSys} {e : LogEntry M}

theorem payload_of_opAt (he : e.opAt r key = .increment) : e.payload = .normal (.incrementU64 r key) := by
  unfold LogEntry.opAt at he
  split at he
  · next cmd hcmd =>
    cases cmd <;> simp only [opAt, CellOp.ofWrites, realm] at he <;> grind
  · cases he

variable (h : s.Inv r key)

include h

/-- An answer behind all others, or the last one again. -/
theorem Inv.answer {n v} (hv : v ≤ n) (hold : ∀ a ∈ s.answers, (a.1 < n ∧ a.2 < v) ∨ a = (n, v))
    (hreads : ∀ {v' i}, Reads (s'.rows.cell r key) v' i → v' = v ∧ i = n)
    (hs : s'.answers = s.answers ++ [(n, v)]) : s'.Inv r key := by
  constructor
  · intro a ha
    have hd := h.distinct
    grind [Distinct]
  · intro v' i hr
    grind

/-- The value of an increment is behind all others, or the last one, and the cell then holds it. -/
theorem Inv.increment {n} (hpos : 0 < n) (hlt : n < 2 ^ 64) (hnext : (∀ a ∈ s.answers, a.1 < n) ∨
      (∀ a ∈ s.answers, a.1 ≤ n) ∧ ∃ value index, Reads (s.rows.cell r key) value index) :
    ((s.rows.cell r key).increment n).2 ≤ n ∧
      (∀ a ∈ s.answers, (a.1 < n ∧ a.2 < ((s.rows.cell r key).increment n).2) ∨
        a = (n, ((s.rows.cell r key).increment n).2)) ∧
      ∀ {v i}, Reads ((s.rows.cell r key).increment n).1 v i → v = ((s.rows.cell r key).increment n).2 ∧ i = n := by
  have hdist := h.distinct
  have hfresh : ∀ {v w i}, w ≤ n → Reads ⟨some (leBytes 8 w), some (leBytes 8 n)⟩ v i → v = w ∧ i = n := by
    intro v w i hw hr
    rw [Reads, decodeU64Counter_leBytes hlt, decodeU64Counter_leBytes (lt_of_le_of_lt hw hlt)] at hr
    grind
  by_cases hr : ∃ v i, Reads (s.rows.cell r key) v i
  · obtain ⟨v, i, hr⟩ := hr
    obtain ⟨hvi, hall, hlast⟩ := h.last hr
    have hinc : (s.rows.cell r key).increment n = if n ≤ i then (s.rows.cell r key, v) else
        (⟨some (leBytes 8 (min (v + 1) u64Max)), some (leBytes 8 n)⟩, min (v + 1) u64Max) := by
      rw [Cell.increment, hr.1, hr.2]
    rw [hinc]
    split
    -- the counter's last entry is applied again
    · have hi : i = n := by grind
      subst hi
      refine ⟨hvi, fun a ha => ?_, fun hr' => ?_⟩
      · grind [Distinct]
      · rw [Reads, hr.1, hr.2] at hr'
        grind
    · have hmin : min (v + 1) u64Max = v + 1 := min_eq_left (by rw [u64Max]; omega)
      exact ⟨by omega, fun a ha => .inl (by have := hall a ha; omega), hfresh (by omega)⟩
  -- the rows do not decode: the value is the entry's index
  · have hinc : (s.rows.cell r key).increment n = (⟨some (leBytes 8 n), some (leBytes 8 n)⟩, n) := by
      rw [Cell.increment]
      split
      · next hv hi => exact absurd ⟨_, _, hv, hi⟩ hr
      · rfl
    rw [hinc]
    refine ⟨le_rfl, fun a ha => .inl ?_, hfresh le_rfl⟩
    rcases hnext with hnext | hnext
    · exact ⟨hnext a ha, (hdist a ha).1.trans_lt (hnext a ha)⟩
    · exact absurd hnext.2 hr

theorem Inv.apply (he : log.entries[s.next]? = some e)
    (hlog : e.opAt r key = .increment ∨ e.opAt r key = .keep) (hc : Orderly log r key .apply s) :
    Inv r key ⟨(applyEntry codec s.rows e).1, s.next + 1,
      s.answers ++ answered r key e (applyEntry codec s.rows e).2⟩ := by
  obtain ⟨hkey, hnames, hnext⟩ := hc e he
  have hcell : (applyEntry codec s.rows e).1.cell r key = (e.opAt r key).run e.logId.index (s.rows.cell r key) :=
    cell_applyEntry hnames hkey
  rcases hlog with hop | hop
  · have hlt := log.index_lt e (List.mem_of_getElem? he)
    have hpos := log.index_pos e (List.mem_of_getElem? he) _ (payload_of_opAt hop)
    obtain ⟨hv, hold, hreads⟩ := h.increment hpos hlt (hnext hop)
    refine h.answer hv hold (fun hr => hreads (by rwa [hcell, hop] at hr)) ?_
    have hvalue := incrementOnce_value s.rows r key e.logId.index (codec.encodeLogId e.logId)
    simp only [answered, hop, applyEntry, payload_of_opAt hop, applyCommand, applyIncrement, hvalue]
    rw [leNat_leBytes (lt_of_le_of_lt hv hlt)]
  · have hsame : answered r key e (applyEntry codec s.rows e).2 = [] := by rw [answered, hop]
    have hcell' : (applyEntry codec s.rows e).1.cell r key = s.rows.cell r key := by rw [hcell, hop, CellOp.run]
    rw [hsame, List.append_nil]
    exact ⟨h.distinct, fun hr => h.last (by rwa [hcell'] at hr)⟩

theorem Inv.step (hlog : ∀ e ∈ log.entries, e.opAt r key = .increment ∨ e.opAt r key = .keep)
    {ev} (hst : Step codec log r key ev s s') (hc : Orderly log r key ev s) : s'.Inv r key := by
  cases hst with
  | apply he => exact h.apply he (hlog _ (List.mem_of_getElem? he)) hc
  | goBack => exact { h with }
  | damage hk hlen =>
    refine ⟨h.distinct, fun hr => ?_⟩
    -- the damaged row does not decode
    simp only [Reads, Rows.cell, Rows.get_putBatch] at hr
    rcases hk with rfl | rfl <;> simp [valueAt, decodeU64Counter, hlen] at hr

end

/-- Values of a counter increase with the log, and an entry answers one value, if only the last
entry of the counter is applied again, and only while its rows decode. -/
theorem counter_values_distinct {codec : RowCodec M} {log : CommittedLog M} {r : RealmId} {key : Bytes}
    (hlog : ∀ e ∈ log.entries, e.opAt r key = .increment ∨ e.opAt r key = .keep) {s}
    (hr : Reachable (Init r key) (LabelledWith (Step codec log r key) (Orderly log r key)) s) :
    Distinct s.answers := by
  have hinv : s.Inv r key := by
    refine Reachable.invariant ?_ ?_ hr
    · rintro s ⟨hrows, hans⟩
      refine ⟨by simp [hans, Distinct], fun hread => ?_⟩
      simp only [Reads, decodeU64Counter] at hread
      grind
    · rintro s s' - h ⟨ev, hc, hst⟩
      exact h.step hlog hst hc
  exact hinv.distinct

open ApplySys (demoCodec demoRealm)

def twoIncrements : CommittedLog Unit where
  entries := [⟨⟨1, 0, 1⟩, .normal (.incrementU64 demoRealm [7])⟩, ⟨⟨1, 0, 5⟩, .normal (.incrementU64 demoRealm [7])⟩]
  increasing := by decide
  index_lt := by simp
  index_pos := by simp

/-- The counter is damaged after its first value, and the next one is the entry's index. -/
theorem counter_values_distinct_repaired : ∃ s, Reachable (Init demoRealm [7])
      (LabelledWith (Step demoCodec twoIncrements demoRealm [7]) (Orderly twoIncrements demoRealm [7])) s ∧
    s.answers = [(1, 1), (5, 5)] ∧ Distinct s.answers := by
  have hnames : ∀ {i : Nat} {e : LogEntry Unit}, twoIncrements.entries[i]? = some e →
      isUserKey [7] = true ∧ e.NamesUserKeys := by
    intro i e he
    have hmem := List.mem_of_getElem? he
    simp only [twoIncrements, List.mem_cons, List.not_mem_nil, or_false] at hmem
    refine ⟨by decide +kernel, fun cmd hcmd => ?_⟩
    rcases hmem with rfl | rfl <;> cases hcmd <;> exact ⟨by decide +kernel, nofun⟩
  have hstart : Reachable (Init demoRealm [7]) (LabelledWith (Step demoCodec twoIncrements demoRealm [7])
      (Orderly twoIncrements demoRealm [7])) ⟨.empty, 0, []⟩ := .start ⟨rfl, rfl⟩
  have hfirst := hstart.take (.apply rfl) fun e he => ⟨(hnames he).1, (hnames he).2, fun _ => .inl nofun⟩
  have hbroken := hfirst.take (.damage (.inl rfl) (show ([] : Bytes).length ≠ 8 by decide))
  have hsecond := hbroken.take (.apply rfl) fun e he => ⟨(hnames he).1, (hnames he).2, fun _ => .inl (by
    cases he
    decide +kernel)⟩
  refine ⟨_, hsecond, by decide +kernel, counter_values_distinct ?_ hsecond⟩
  simp [twoIncrements, LogEntry.opAt, realm, opAt]

/-- The first entry answers 1, and 2 when both entries are applied again. -/
theorem counter_value_changes : ∃ s, Reachable (Init demoRealm [7])
      (LabelledWith (Step demoCodec twoIncrements demoRealm [7]) fun _ _ => True) s ∧
    s.answers = [(1, 1), (5, 2), (1, 2)] ∧ ¬Distinct s.answers := by
  have hstart : Reachable (Init demoRealm [7]) (LabelledWith (Step demoCodec twoIncrements demoRealm [7])
      fun _ _ => True) ⟨.empty, 0, []⟩ := .start ⟨rfl, rfl⟩
  have hback := ((hstart.take (.apply rfl)).take (.apply rfl)).take (.goBack (Nat.zero_le _))
  have hanswers := hback.take (.apply rfl)
  refine ⟨_, hanswers, by decide +kernel, fun h => ?_⟩
  have hsame := ((h (1, 1) (by decide +kernel)).2 (1, 2) (by decide +kernel)).2 rfl
  exact absurd hsame (by decide)

end CountSys

end Hearth.Cluster
