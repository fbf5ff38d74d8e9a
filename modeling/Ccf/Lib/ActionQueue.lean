import Mathlib.Data.List.Basic

/-! # A queue of actions that can be paused

Actions are run one at a time in the order in which they have been added. While the queue is paused no
action starts; one that is running goes on. -/

namespace Ccf

structure ActionQueue (α : Type) where
  pending : List α
  running : Option α
  paused : Bool

namespace ActionQueue

variable {α : Type} {q : ActionQueue α} {action : α}

def empty : ActionQueue α := ⟨[], none, false⟩

inductive Op (α : Type) where
  | add (action : α)
  | pause
  | resume
  | start
  | finish

/-- The action that starts next, if one can start. -/
def next (q : ActionQueue α) : Option α := if q.running.isSome || q.paused then none else q.pending.head?

def step (q : ActionQueue α) : Op α → ActionQueue α
  | .add action => { q with pending := q.pending ++ [action] }
  | .pause => { q with paused := true }
  | .resume => { q with paused := false }
  | .start =>
    match q.next with
    | some action => { q with pending := q.pending.tail, running := some action }
    | none => q
  | .finish => { q with running := none }

theorem next_eq_some_iff :
    q.next = some action ↔ q.running = none ∧ q.paused = false ∧ q.pending.head? = some action := by
  unfold next
  cases q.running <;> cases q.paused <;> simp

theorem step_start (h : q.next = some action) :
    q.step .start = { q with pending := q.pending.tail, running := some action } := by
  simp only [step, h]

end ActionQueue

end Ccf
