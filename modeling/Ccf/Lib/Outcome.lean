import Mathlib.Tactic.TypeStar

/-! # State passing with exceptions that keep the state

`Outcome ε σ` is the result of a procedure that mutates a state `σ` in place and may throw: the mutations made before
the throw are kept, so both results carry a state. `andThen` is sequencing, `forEach` a loop over a list. -/

namespace Ccf

inductive Outcome (ε σ : Type*) where
  | ok (s : σ)
  | raised (e : ε) (s : σ)
deriving DecidableEq, Repr

namespace Outcome

variable {ε σ α : Type*}

/-- The state the procedure leaves behind. -/
def state : Outcome ε σ → σ
  | ok s => s
  | raised _ s => s

def error? : Outcome ε σ → Option ε
  | ok _ => none
  | raised e _ => some e

/-- Run `f` on the state left by a procedure that did not throw. -/
def andThen (o : Outcome ε σ) (f : σ → Outcome ε σ) : Outcome ε σ :=
  match o with
  | ok s => f s
  | raised e s => raised e s

/-- Run `f` for every element in turn, up to the first throw. -/
def forEach (f : σ → α → Outcome ε σ) : List α → σ → Outcome ε σ
  | [], s => ok s
  | x :: xs, s => (f s x).andThen (forEach f xs)

@[simp] theorem state_ok (s : σ) : (ok s : Outcome ε σ).state = s := rfl

@[simp] theorem state_raised (e : ε) (s : σ) : (raised e s).state = s := rfl

@[simp] theorem andThen_ok (s : σ) (f : σ → Outcome ε σ) : (ok s).andThen f = f s := rfl

@[simp] theorem andThen_raised (e : ε) (s : σ) (f : σ → Outcome ε σ) : (raised e s).andThen f = raised e s := rfl

@[simp] theorem forEach_cons (f : σ → α → Outcome ε σ) (x : α) (xs : List α) (s : σ) :
    forEach f (x :: xs) s = (f s x).andThen (forEach f xs) := rfl

end Outcome
end Ccf
