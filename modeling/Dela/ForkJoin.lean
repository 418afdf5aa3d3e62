import Dela.Chan
import Mathlib.Data.List.Perm.Basic

/-!
Goroutines that push on one channel and join the goroutines they start with a
`sync.WaitGroup`: `wg.Add(n)`, `n` times `go f(..., &wg)` where `f` defers `wg.Done()`,
then `wg.Wait()`. A `Proc` is what one goroutine does on the channel in program order;
`Runs` gives the producer turns of every schedule: the turns of started goroutines
interleave in any order, and their parent goes on only once all of them have returned.
-/
namespace Dela

inductive Interleave {β : Type} : List β → List β → List β → Prop
  | nil : Interleave [] [] []
  | left {x : β} {t₁ t₂ t : List β} : Interleave t₁ t₂ t → Interleave (x :: t₁) t₂ (x :: t)
  | right {x : β} {t₁ t₂ t : List β} : Interleave t₁ t₂ t → Interleave t₁ (x :: t₂) (x :: t)

theorem Interleave.perm {β : Type} {t₁ t₂ t : List β} (h : Interleave t₁ t₂ t) :
    t.Perm (t₁ ++ t₂) := by
  induction h with
  | nil => rfl
  | left _ ih => exact ih.cons _
  | right _ ih => exact (ih.cons _).trans List.perm_middle.symm

mutual
inductive Proc (α : Type) where
  | done
  | push (v : α) (k : Proc α)
  | close (k : Proc α)
  | forkJoin (children : Procs α) (k : Proc α)
inductive Procs (α : Type) where
  | nil
  | cons (p : Proc α) (ps : Procs α)
end

variable {α : Type}

def Proc.pushes : List α → Proc α → Proc α
  | [], k => k
  | v :: vs, k => .push v (pushes vs k)

def Proc.seq : Proc α → Proc α → Proc α
  | .done, k => k
  | .push v p, k => .push v (p.seq k)
  | .close p, k => .close (p.seq k)
  | .forkJoin cs p, k => .forkJoin cs (p.seq k)

mutual
def Proc.Runs : Proc α → List (Chan.Turn α) → Prop
  | .done, tr => tr = []
  | .push v k, tr => ∃ tr', tr = .send v :: tr' ∧ k.Runs tr'
  | .close k, tr => ∃ tr', tr = .close :: tr' ∧ k.Runs tr'
  | .forkJoin cs k, tr => ∃ t tr', tr = t ++ tr' ∧ cs.Runs t ∧ k.Runs tr'
def Procs.Runs : Procs α → List (Chan.Turn α) → Prop
  | .nil, tr => tr = []
  | .cons p ps, tr => ∃ t₁ t₂, p.Runs t₁ ∧ ps.Runs t₂ ∧ Interleave t₁ t₂ tr
end

mutual
def Proc.turns : Proc α → List (Chan.Turn α)
  | .done => []
  | .push v k => .send v :: k.turns
  | .close k => .close :: k.turns
  | .forkJoin cs k => cs.turns ++ k.turns
def Procs.turns : Procs α → List (Chan.Turn α)
  | .nil => []
  | .cons p ps => p.turns ++ ps.turns
end

@[simp] theorem Proc.turns_pushes (vs : List α) (k : Proc α) :
    (Proc.pushes vs k).turns = vs.map .send ++ k.turns := by
  induction vs with
  | nil => rfl
  | cons v vs ih => simp [Proc.pushes, Proc.turns, ih]

@[simp] theorem Proc.turns_seq : ∀ p k : Proc α, (p.seq k).turns = p.turns ++ k.turns
  | .done, _ => rfl
  | .push _ p, k => by simp [Proc.seq, Proc.turns, turns_seq p k]
  | .close p, k => by simp [Proc.seq, Proc.turns, turns_seq p k]
  | .forkJoin _ p, k => by simp [Proc.seq, Proc.turns, turns_seq p k]

mutual
theorem Proc.Runs.perm : ∀ {p : Proc α} {tr : List (Chan.Turn α)}, p.Runs tr → tr.Perm p.turns
  | .done, _, h => by rw [show _ = _ from h]; rfl
  | .push _ _, _, ⟨_, rfl, h⟩ => h.perm.cons _
  | .close _, _, ⟨_, rfl, h⟩ => h.perm.cons _
  | .forkJoin _ _, _, ⟨_, _, rfl, hc, hk⟩ => hc.perm.append hk.perm
theorem Procs.Runs.perm : ∀ {ps : Procs α} {tr : List (Chan.Turn α)}, ps.Runs tr → tr.Perm ps.turns
  | .nil, _, h => by rw [show _ = _ from h]; rfl
  | .cons _ _, _, ⟨_, _, h₁, h₂, hi⟩ => hi.perm.trans (h₁.perm.append h₂.perm)
end

theorem Proc.Runs.of_seq : ∀ {p k : Proc α} {tr : List (Chan.Turn α)}, (p.seq k).Runs tr →
    ∃ t₁ t₂, tr = t₁ ++ t₂ ∧ p.Runs t₁ ∧ k.Runs t₂
  | .done, _, tr, h => ⟨[], tr, rfl, rfl, h⟩
  | .push v _, _, _, ⟨_, rfl, h⟩ =>
    let ⟨t₁, t₂, e, h₁, h₂⟩ := of_seq h
    ⟨.send v :: t₁, t₂, by rw [e]; rfl, ⟨t₁, rfl, h₁⟩, h₂⟩
  | .close _, _, _, ⟨_, rfl, h⟩ =>
    let ⟨t₁, t₂, e, h₁, h₂⟩ := of_seq h
    ⟨.close :: t₁, t₂, by rw [e]; rfl, ⟨t₁, rfl, h₁⟩, h₂⟩
  | .forkJoin _ _, _, _, ⟨t, _, rfl, hc, h⟩ =>
    let ⟨t₁, t₂, e, h₁, h₂⟩ := of_seq h
    ⟨t ++ t₁, t₂, by rw [e, List.append_assoc], ⟨t, t₁, rfl, hc, h₁⟩, h₂⟩

theorem Chan.Turn.exists_perm_map_send : ∀ {t : List (Chan.Turn α)} {vs : List α},
    t.Perm (vs.map .send) → ∃ us : List α, us.Perm vs ∧ t = us.map .send
  | [], vs, h => ⟨[], by simpa using h.symm, rfl⟩
  | x :: t, vs, h => by
    classical
    obtain ⟨v, hv, rfl⟩ := List.mem_map.mp (h.subset (List.mem_cons_self x t))
    have hvs := List.perm_cons_erase hv
    have ht : t.Perm ((vs.erase v).map .send) := (h.trans (hvs.map _)).cons_inv
    obtain ⟨us, hus, rfl⟩ := exists_perm_map_send ht
    exact ⟨v :: us, (hus.cons v).trans hvs.symm, rfl⟩

theorem Proc.runs_seq_close {body : Proc α} {vs : List α} (hb : body.turns = vs.map .send)
    {tr : List (Chan.Turn α)} (h : (body.seq (.close .done)).Runs tr) :
    ∃ us : List α, us.Perm vs ∧ tr = us.map .send ++ [.close] := by
  obtain ⟨t₁, _, rfl, h₁, _, rfl, rfl⟩ := h.of_seq
  obtain ⟨us, hus, rfl⟩ := Chan.Turn.exists_perm_map_send (hb ▸ h₁.perm)
  exact ⟨us, hus, rfl⟩

theorem Proc.runs_seq_close_exec {body : Proc α} {vs : List α} (hb : body.turns = vs.map .send)
    {n : Nat} (hn : vs.length ≤ n) {ts : List (Chan.Turn α)}
    (h : (body.seq (.close .done)).Runs (ts.filter Chan.Turn.byProducer)) :
    (∃ us : List α, us.Perm vs ∧ ts.filter Chan.Turn.byProducer = us.map .send ++ [.close]) ∧
      ∃ c, (Chan.make n).exec ts = .ok c ∧ c.closed = true := by
  obtain ⟨us, hus, he⟩ := runs_seq_close hb h
  exact ⟨⟨us, hus, he⟩,
    Chan.exec_sends_then_close _ us ts he rfl (by simpa [Chan.make, hus.length_eq] using hn)⟩

end Dela
