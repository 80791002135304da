import Mathlib.Logic.Basic

/-!
# Checks that end a computation

A check fails with its error or goes on. A computation that ends with `ok` has
passed every check on its way.
-/

namespace Hearth.Base

open List Except

variable {ε α β σ : Type}

def failIf (bad : Bool) (e : ε) : Except ε Unit := if bad then .error e else .ok ()

def okOr (o : Option α) (e : ε) : Except ε α :=
  match o with
  | some a => .ok a
  | none => .error e

variable {x : Except ε α} {f : α → Except ε β} {l : List α}

@[simp] theorem bind_eq_ok {b : β} : x >>= f = .ok b ↔ ∃ a, x = .ok a ∧ f a = .ok b := by
  cases x with
  | error e => exact ⟨nofun, fun ⟨_, h, _⟩ => nomatch h⟩
  | ok a => exact ⟨fun h => ⟨a, rfl, h⟩, fun ⟨_, h, hf⟩ => by cases h; exact hf⟩

@[simp] theorem failIf_eq_ok {bad : Bool} {e : ε} {u : Unit} : failIf bad e = .ok u ↔ bad = false := by
  cases bad with
  | false => exact ⟨fun _ => rfl, fun _ => rfl⟩
  | true => exact ⟨nofun, nofun⟩

@[simp] theorem okOr_eq_ok {o : Option α} {e : ε} {a : α} : okOr o e = .ok a ↔ o = some a := by
  cases o with
  | none => exact ⟨nofun, nofun⟩
  | some b => exact ⟨fun h => congrArg some (ok.inj h), fun h => congrArg ok (Option.some.inj h)⟩

theorem exists_ok_of_isOk (h : x.isOk = true) : ∃ a, x = .ok a := by
  cases x with
  | error e => cases h
  | ok a => exact ⟨a, rfl⟩

theorem mapError_eq_ok {ε' : Type} {f : ε → ε'} {a : α} : x.mapError f = .ok a ↔ x = .ok a := by
  cases x with
  | error e => exact ⟨nofun, nofun⟩
  | ok b =>
    exact ⟨fun h => congrArg ok (ok.inj h), fun h => congrArg ok (ok.inj h)⟩

theorem exists_map_eq_error {g : α → β} : (∃ e, x.map g = .error e) ↔ ∃ e, x = .error e := by
  cases x with
  | error e => exact ⟨fun _ => ⟨e, rfl⟩, fun _ => ⟨e, rfl⟩⟩
  | ok a => exact ⟨nofun, nofun⟩

theorem ok_bind (a : α) (f : α → Except ε β) : .ok a >>= f = f a := rfl

theorem bind_eq_bind {y : Except ε α} {g : α → Except ε β} (hx : x = y) (hf : ∀ a, f a = g a) :
    x >>= f = y >>= g := by
  rw [hx, funext hf]

theorem foldlM_congr_mem {f g : σ → α → Except ε σ}
    (h : ∀ a ∈ l, ∀ s, f s a = g s a) (s : σ) : l.foldlM f s = l.foldlM g s := by
  induction l generalizing s with
  | nil => rfl
  | cons a l ih =>
    rw [foldlM_cons, h a mem_cons_self]
    exact bind_eq_bind rfl (ih (fun b hb => h b (mem_cons_of_mem _ hb)))

theorem forM_eq_ok {f : α → Except ε PUnit} : l.forM f = .ok () ↔ ∀ a ∈ l, f a = .ok () := by
  induction l with
  | nil => exact ⟨fun _ _ h => absurd h not_mem_nil, fun _ => rfl⟩
  | cons a l ih =>
    change (f a >>= fun _ => l.forM f) = _ ↔ _
    rw [bind_eq_ok, forall_mem_cons]
    exact ⟨fun ⟨_, ha, hl⟩ => ⟨ha, ih.1 hl⟩, fun ⟨ha, hl⟩ => ⟨(), ha, ih.2 hl⟩⟩

/-- A list of results is a result for each element. -/
theorem mapM_eq_ok {bs : List β} : l.mapM f = .ok bs ↔
    l.length = bs.length ∧ ∀ (i : Nat) a b, l[i]? = some a → bs[i]? = some b → f a = .ok b := by
  induction l generalizing bs with
  | nil =>
    constructor
    · rintro h
      cases h
      exact ⟨rfl, fun i a b ha => by cases ha⟩
    · rintro ⟨hlen, -⟩
      rw [eq_nil_of_length_eq_zero hlen.symm]
      rfl
  | cons x l ih =>
    rw [mapM_cons, bind_eq_ok]
    constructor
    · rintro ⟨y, hy, h⟩
      obtain ⟨ys, hys, h⟩ := bind_eq_ok.1 h
      cases h
      obtain ⟨hlen, hall⟩ := ih.1 hys
      refine ⟨congrArg Nat.succ hlen, fun i a b ha hb => ?_⟩
      cases i with
      | zero => cases ha; cases hb; exact hy
      | succ i => exact hall i a b ha hb
    · rintro ⟨hlen, hall⟩
      cases bs with
      | nil => cases hlen
      | cons y ys =>
        refine ⟨y, hall 0 x y rfl rfl, bind_eq_ok.2 ⟨ys, ih.2 ⟨Nat.succ.inj hlen, ?_⟩, rfl⟩⟩
        exact fun i => hall (i + 1)

/-- A loop that stops at its first error. -/
theorem foldlM_invariant {f : σ → α → Except ε σ} {P : σ → Prop}
    (hstep : ∀ s a s', P s → f s a = .ok s' → P s') {s s' : σ} (hs : P s)
    (h : l.foldlM f s = .ok s') : P s' := by
  induction l generalizing s with
  | nil => cases h; exact hs
  | cons a l ih =>
    obtain ⟨s1, h1, h⟩ := bind_eq_ok.1 h
    exact ih (hstep s a s1 hs h1) h

/-- `P` holds of the state throughout, and `Q a` from the step for `a` on. -/
theorem foldlM_spec {f : σ → α → Except ε σ} {P : σ → Prop} {Q : α → σ → Prop}
    (hstep : ∀ s a s', P s → f s a = .ok s' → P s' ∧ Q a s')
    (hkeep : ∀ s a b s', P s → Q a s → f s b = .ok s' → Q a s') {s s' : σ} (hs : P s)
    (h : l.foldlM f s = .ok s') : P s' ∧ ∀ a ∈ l, Q a s' := by
  induction l generalizing s with
  | nil =>
    cases h
    exact ⟨hs, fun _ ha => absurd ha not_mem_nil⟩
  | cons a l ih =>
    obtain ⟨s1, h1, h⟩ := bind_eq_ok.1 h
    obtain ⟨hP, hQ⟩ := hstep s a s1 hs h1
    obtain ⟨hP', hl⟩ := ih hP h
    have ha : P s' ∧ Q a s' :=
      foldlM_invariant (P := fun s => P s ∧ Q a s)
        (fun s b s' hs hb => ⟨(hstep s b s' hs.1 hb).1, hkeep s a b s' hs.1 hs.2 hb⟩) ⟨hP, hQ⟩ h
    exact ⟨hP', forall_mem_cons.2 ⟨ha.2, hl⟩⟩

/-! ## How a computation ends -/

/-- With a value of `P`, or with an error of `E`. -/
def Ends (x : Except ε α) (P : α → Prop) (E : ε → Prop) : Prop :=
  (∀ a, x = .ok a → P a) ∧ ∀ e, x = .error e → E e

section

variable {x : Except ε α} {P P' : α → Prop} {Q : β → Prop} {E E' : ε → Prop}

theorem Ends.ok {a : α} (h : P a) : Ends (.ok a) P E :=
  ⟨fun _ he => ok.inj he ▸ h, nofun⟩

theorem Ends.error {e : ε} (h : E e) : Ends (.error e) P E :=
  ⟨nofun, fun _ he => error.inj he ▸ h⟩

theorem Ends.mono (h : Ends x P E) (hP : ∀ a, P a → P' a) (hE : ∀ e, E e → E' e) : Ends x P' E' :=
  ⟨fun a ha => hP a (h.1 a ha), fun e he => hE e (h.2 e he)⟩

theorem Ends.bind {f : α → Except ε β} (h : Ends x P E) (hf : ∀ a, P a → Ends (f a) Q E) :
    Ends (x >>= f) Q E := by
  cases x with
  | error e => exact .error (h.2 e rfl)
  | ok a => exact hf a (h.1 a rfl)

theorem Ends.mapError {ε' : Type} {f : ε → ε'} {E : ε' → Prop} (h : ∀ e, E (f e)) :
    Ends (x.mapError f) (fun a => x = .ok a) E := by
  cases x with
  | error e => exact .error (h e)
  | ok a => exact .ok rfl

theorem Ends.failIf {bad : Bool} {e : ε} (h : E e) : Ends (failIf bad e) (fun _ => bad = false) E := by
  cases bad with
  | true => exact .error h
  | false => exact .ok rfl

theorem Ends.foldlM {f : σ → α → Except ε σ} {P : σ → Prop} {l : List α}
    (h : ∀ a ∈ l, ∀ s, P s → Ends (f s a) P E) {s : σ} (hs : P s) : Ends (l.foldlM f s) P E := by
  induction l generalizing s with
  | nil => exact .ok hs
  | cons a l ih =>
    exact (h a mem_cons_self s hs).bind fun s' hs' =>
      ih (fun b hb => h b (mem_cons_of_mem _ hb)) hs'

end

end Hearth.Base
