import Mathlib.Data.List.Basic

/-!
Buffered Go channels, `make(chan T, cap)`. A send blocks on a full buffer and
panics on a closed channel; a second close panics; a receive takes the oldest
buffered value and, on a closed and drained channel, returns at once. `exec` runs one
interleaving of a producer's turns with its consumers' receives; a consumer whose receive
would block is not scheduled, and the result is the producer's outcome.
-/
namespace Dela

structure Chan (α : Type) where
  cap : Nat
  buf : List α
  closed : Bool
  deriving DecidableEq, Repr

inductive Outcome (σ : Type) where
  | ok (s : σ)
  | blocks
  | panics
  deriving DecidableEq, Repr

namespace Chan

variable {α : Type}

def make (cap : Nat) : Chan α := ⟨cap, [], false⟩

def send (c : Chan α) (v : α) : Outcome (Chan α) :=
  if c.closed then .panics
  else if c.buf.length < c.cap then .ok { c with buf := c.buf ++ [v] }
  else .blocks

def close (c : Chan α) : Outcome (Chan α) :=
  if c.closed then .panics else .ok { c with closed := true }

def recv (c : Chan α) : Outcome (Option α × Chan α) :=
  match c.buf with
  | v :: rest => .ok (some v, { c with buf := rest })
  | [] => if c.closed then .ok (none, c) else .blocks

theorem send_eq_panics (c : Chan α) (v : α) : c.send v = .panics ↔ c.closed = true := by
  unfold send
  split
  · simp_all
  · split <;> simp_all

theorem send_eq_ok {c c' : Chan α} {v : α} (h : c.send v = .ok c') :
    c.closed = false ∧ c' = { c with buf := c.buf ++ [v] } := by
  unfold send at h
  split at h
  · cases h
  · split at h <;> cases h; simp_all

theorem close_eq_panics (c : Chan α) : c.close = .panics ↔ c.closed = true := by
  unfold close; split <;> simp_all

theorem close_eq_ok {c c' : Chan α} (h : c.close = .ok c') :
    c.closed = false ∧ c' = { c with closed := true } := by
  unfold close at h; split at h <;> cases h; simp_all

@[simp] theorem close_ne_blocks (c : Chan α) : c.close ≠ .blocks := by
  unfold close; split <;> simp

inductive Turn (α : Type) where
  | send (v : α)
  | close
  | recv

def Turn.byProducer : Turn α → Bool
  | .recv => false
  | _ => true

def exec (c : Chan α) : List (Turn α) → Outcome (Chan α)
  | [] => .ok c
  | .send v :: ts =>
    match c.send v with
    | .ok c' => exec c' ts
    | .blocks => .blocks
    | .panics => .panics
  | .close :: ts =>
    match c.close with
    | .ok c' => exec c' ts
    | .blocks => .blocks
    | .panics => .panics
  | .recv :: ts =>
    match c.recv with
    | .ok (_, c') => exec c' ts
    | _ => exec c ts

theorem recv_buf_le {c c' : Chan α} {v : Option α} (h : c.recv = .ok (v, c')) :
    c'.buf.length ≤ c.buf.length ∧ c'.cap = c.cap ∧ c'.closed = c.closed := by
  unfold recv at h
  split at h
  · rename_i hb; cases h; simp [hb]
  · split at h <;> cases h; simp

theorem recv_eq_ok {c c' : Chan α} {o : Option α} (h : c.recv = .ok (o, c')) :
    (∃ v rest, c.buf = v :: rest ∧ o = some v ∧ c' = { c with buf := rest }) ∨
    (c.buf = [] ∧ c.closed = true ∧ o = none ∧ c' = c) := by
  unfold recv at h
  split at h
  · cases h; exact .inl ⟨_, _, ‹_›, rfl, rfl⟩
  · split at h
    · cases h; exact .inr ⟨‹_›, ‹_›, rfl, rfl⟩
    · cases h

theorem recv_eq_blocks (c : Chan α) : c.recv = .blocks ↔ c.buf = [] ∧ c.closed = false := by
  unfold recv
  split <;> simp_all

@[simp] theorem recv_ne_panics (c : Chan α) : c.recv ≠ .panics := by
  unfold recv
  split <;> simp only [ne_eq, reduceCtorEq, not_false_eq_true]
  split <;> simp

theorem exec_consumers {c : Chan α} {ts : List (Turn α)}
    (h : ts.filter Turn.byProducer = []) : ∃ c', c.exec ts = .ok c' ∧ c'.closed = c.closed := by
  induction ts generalizing c with
  | nil => exact ⟨c, rfl, rfl⟩
  | cons t ts ih =>
    cases t with
    | send v => simp [Turn.byProducer] at h
    | close => simp [Turn.byProducer] at h
    | recv =>
      simp only [List.filter_cons, Turn.byProducer] at h
      simp only [exec]
      split
      · rename_i c' hr
        obtain ⟨c'', he, hc⟩ := ih (c := c') h
        exact ⟨c'', he, hc.trans (recv_buf_le hr).2.2⟩
      · exact ih h

theorem exec_sends_then_close (c : Chan α) (vs : List α) (ts : List (Turn α))
    (hts : ts.filter Turn.byProducer = vs.map .send ++ [.close])
    (hopen : c.closed = false) (hroom : c.buf.length + vs.length ≤ c.cap) :
    ∃ c', c.exec ts = .ok c' ∧ c'.closed = true := by
  induction ts generalizing c vs with
  | nil => simp at hts
  | cons t ts ih =>
    cases t with
    | send v =>
      cases vs with
      | nil => simp [Turn.byProducer] at hts
      | cons w ws =>
        simp only [List.filter_cons, Turn.byProducer, ite_true, List.map_cons, List.cons_append,
          List.cons.injEq, Turn.send.injEq] at hts
        obtain ⟨rfl, hts⟩ := hts
        have hlt : c.buf.length < c.cap := by simp at hroom; omega
        simp only [exec, send, hopen, hlt, ite_true, Bool.false_eq_true, ite_false]
        exact ih _ ws hts rfl (by simp at hroom ⊢; omega)
    | close =>
      cases vs with
      | nil =>
        simp only [List.filter_cons, Turn.byProducer, ite_true, List.map_nil, List.nil_append,
          List.cons.injEq, true_and] at hts
        simp only [exec, Chan.close, hopen, Bool.false_eq_true, ite_false]
        obtain ⟨c', he, hc⟩ := exec_consumers (c := { c with closed := true }) hts
        exact ⟨c', he, hc⟩
      | cons w ws => simp [Turn.byProducer] at hts
    | recv =>
      simp only [List.filter_cons, Turn.byProducer] at hts
      simp only [exec]
      split
      · rename_i c' hr
        obtain ⟨hb, hcap, hcl⟩ := recv_buf_le hr
        exact ih c' vs hts (hcl.trans hopen) (by omega)
      · exact ih c vs hts hopen hroom

end Chan

end Dela
