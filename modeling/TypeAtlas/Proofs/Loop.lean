/-!
# Loops

A loop is given by its rounds. A round leads from a state to the next one; there is none when the
loop is over, and none when it fails.

## Main definitions

* `Loop.after?` — the state after a number of rounds.
-/

namespace TypeAtlas.Loop

variable {State : Type} {round? : State → Option State}

/-- The state after a number of rounds, if there are so many. -/
def after? (round? : State → Option State) : Nat → State → Option State
  | 0, s => some s
  | n + 1, s => (round? s).bind (after? round? n)

theorem after?_succ {s next : State} (h : round? s = some next) (n : Nat) :
    after? round? (n + 1) s = after? round? n next := by
  rw [after?, h, Option.bind_some]

theorem after?_add (m n : Nat) (s : State) :
    after? round? (m + n) s = (after? round? m s).bind (after? round? n) := by
  induction m generalizing s with
  | zero => simp [after?]
  | succ m ih =>
    rw [Nat.add_right_comm, after?, after?, Option.bind_assoc]
    exact congrArg (Option.bind (round? s)) (funext ih)

/-- What comes after the rounds up to some state comes after those and further ones. -/
theorem after?_of_after? {m : Nat} {s middle : State} (h : after? round? m s = some middle)
    (n : Nat) : after? round? (m + n) s = after? round? n middle := by
  rw [after?_add, h, Option.bind_some]

end TypeAtlas.Loop
