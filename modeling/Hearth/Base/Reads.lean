import Hearth.Base.Fallible

/-!
# Computations that read

A computation that asks one question after another, so that something else may
happen between two answers. Evaluated against fixed answers it is a function; a
script also writes.
-/

namespace Hearth.Base

variable {Q : Type}

/-- Asks one question after another, and ends with a result. -/
inductive Reads (A : Q → Type) (ρ : Type) : Type
  | done (r : ρ)
  | ask (q : Q) (next : A q → Reads A ρ)

namespace Reads

variable {A : Q → Type} {α β σ ε ρ : Type}

/-- The result if every question is answered from the same answers. -/
def eval (answer : (q : Q) → A q) : Reads A ρ → ρ
  | done r => r
  | ask q next => (next (answer q)).eval answer

def bind : Reads A α → (α → Reads A β) → Reads A β
  | done a, f => f a
  | ask q next, f => ask q fun a => (next a).bind f

instance : Monad (Reads A) where
  pure := done
  bind := bind

/-- One question. -/
def query (q : Q) : ExceptT ε (Reads A) (A q) := .mk (ask q fun a => done (.ok a))

/-- No question at all. -/
def ofExcept (x : Except ε α) : ExceptT ε (Reads A) α := .mk (done x)

/-- The value or the error of a computation that can fail. -/
def evalE (answer : (q : Q) → A q) (x : ExceptT ε (Reads A) α) : Except ε α := eval answer x.run

variable {answer : (q : Q) → A q}

/-- No question that the rest asks is answered differently. -/
def Agree (answer answer' : (q : Q) → A q) : Reads A ρ → Prop
  | done _ => True
  | ask q next => answer' q = answer q ∧ (next (answer q)).Agree answer answer'

theorem Agree.eval_eq {answer' : (q : Q) → A q} {x : Reads A ρ} (h : x.Agree answer answer') :
    x.eval answer' = x.eval answer := by
  induction x with
  | done r => rfl
  | ask q next ih =>
    rw [eval, eval, h.1]
    exact ih _ h.2

theorem eval_bind (x : Reads A α) (f : α → Reads A β) :
    (x.bind f).eval answer = (f (x.eval answer)).eval answer := by
  induction x with
  | done a => rfl
  | ask q next ih => exact ih _

@[simp] theorem evalE_query (q : Q) :
    evalE answer (query q : ExceptT ε (Reads A) (A q)) = .ok (answer q) := rfl

@[simp] theorem evalE_bind (x : ExceptT ε (Reads A) α) (f : α → ExceptT ε (Reads A) β) :
    evalE answer (x >>= f) = evalE answer x >>= fun a => evalE answer (f a) := by
  change (bind x.run _).eval answer = _
  rw [eval_bind]
  unfold evalE
  cases x.run.eval answer with
  | error e | ok a => rfl

theorem evalE_foldlM {f : σ → α → ExceptT ε (Reads A) σ} (l : List α) (s : σ) :
    evalE answer (l.foldlM f s) = l.foldlM (fun s a => evalE answer (f s a)) s := by
  induction l generalizing s with
  | nil => rfl
  | cons a l ih =>
    rw [List.foldlM_cons, evalE_bind]
    exact bind_eq_bind rfl ih

end Reads

/-- Reads and writes, one after another. The flag of a write says whether an
invalidation follows it. -/
inductive Script (A : Q → Type) (W : Type) : Type
  | done
  | ask (q : Q) (next : A q → Script A W)
  | write (w : W) (bumps : Bool) (next : Script A W)

namespace Script

variable {A : Q → Type} {W α : Type}

/-- One script for each element, and then the rest. -/
def forEach (body : α → Script A W → Script A W) (rest : Script A W) : List α → Script A W
  | [] => rest
  | a :: l => body a (forEach body rest l)

end Script

end Hearth.Base
