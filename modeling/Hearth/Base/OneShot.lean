import Mathlib.Logic.Basic

/-!
# Winning at most once

Contenders take a register; the one that takes it while the contest is open has
won. The register is emptied only after the contest is closed, and then nobody
can win any more. The two facts that make the winner unique are fields, so the
operations below are all that can happen to such a contest.
-/

namespace Hearth.Base

structure OneShot (T : Type) where
  held : Prop
  closed : Prop
  won : T → Prop
  unique : ∀ t u, won t → won u → t = u
  /-- While the contest is open, the winner's mark stands in the register. -/
  kept : ¬closed → ∀ t, won t → held

namespace OneShot

variable {T : Type}

/-- An empty register and no winner. -/
def start (closed : Prop) : OneShot T where
  held := False
  closed := closed
  won _ := False
  unique _ _ h := h.elim
  kept _ _ h := h

variable (o : OneShot T)

/-- `t` takes the free register of an open contest. -/
def win (t : T) (hfree : ¬o.held) (hopen : ¬o.closed) : OneShot T where
  held := True
  closed := o.closed
  won u := u = t ∨ o.won u
  unique := by
    have hnone : ∀ u, ¬o.won u := fun u hu => hfree (o.kept hopen u hu)
    rintro u v (rfl | hu) (rfl | hv)
    · rfl
    · exact absurd hv (hnone v)
    · exact absurd hu (hnone u)
    · exact absurd hu (hnone u)
  kept _ _ _ := trivial

/-- The register is taken, or stays taken, by one that does not win. -/
def hold : OneShot T where
  held := True
  closed := o.closed
  won := o.won
  unique := o.unique
  kept _ _ _ := trivial

def clear (hclosed : o.closed) : OneShot T where
  held := False
  closed := o.closed
  won := o.won
  unique := o.unique
  kept h := absurd hclosed h

/-- The contest may end; it does not open again. -/
def close (closed : Prop) (hmono : o.closed → closed) : OneShot T where
  held := o.held
  closed := closed
  won := o.won
  unique := o.unique
  kept h := o.kept fun hc => h (hmono hc)

end OneShot

end Hearth.Base
