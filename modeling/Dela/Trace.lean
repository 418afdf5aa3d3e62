import Mathlib.Data.List.Basic

/-!
Runs of a step function. Every component below is a step function
`σ → α → Option σ`, where `none` means the action is not enabled in that
state (the goroutine that would take it is blocked, or it is not its turn).
A run is the list of actions taken, in the order they happened; any
interleaving of the goroutines of a component is such a list.
-/
namespace Dela

variable {σ α : Type}

def run (step : σ → α → Option σ) : σ → List α → Option σ
  | s, [] => some s
  | s, a :: as => (step s a).bind fun t => run step t as

variable {step : σ → α → Option σ}

@[simp] theorem run_nil (s : σ) : run step s [] = some s := rfl

@[simp] theorem run_cons (s : σ) (a : α) (as : List α) :
    run step s (a :: as) = (step s a).bind fun t => run step t as := rfl

theorem run_append (s : σ) (xs ys : List α) :
    run step s (xs ++ ys) = (run step s xs).bind fun t => run step t ys := by
  induction xs generalizing s with
  | nil => rfl
  | cons a as ih => cases h : step s a <;> simp [h, ih]

theorem run_snoc (s : σ) (xs : List α) (a : α) :
    run step s (xs ++ [a]) = (run step s xs).bind fun t => step t a := by
  rw [run_append]
  cases run step s xs <;> simp

theorem run_snoc_eq_some {s u : σ} {xs : List α} {a : α}
    (h : run step s (xs ++ [a]) = some u) : ∃ t, run step s xs = some t ∧ step t a = some u := by
  rw [run_snoc] at h
  cases ht : run step s xs with
  | none => simp [ht] at h
  | some t => exact ⟨t, rfl, by simpa [ht] using h⟩

theorem run_invariant (P : σ → Prop) (hstep : ∀ s a t, P s → step s a = some t → P t) :
    ∀ {s t : σ} (xs : List α), P s → run step s xs = some t → P t := by
  intro s t xs
  induction xs generalizing s with
  | nil => intro hs h; cases h; exact hs
  | cons a as ih =>
    intro hs h
    simp only [run_cons] at h
    cases ha : step s a with
    | none => simp [ha] at h
    | some u => exact ih (hstep s a u hs ha) (by simpa [ha] using h)

theorem run_invariant_of (P : σ → Prop) (ok : α → Prop)
    (hstep : ∀ s a t, ok a → P s → step s a = some t → P t) :
    ∀ {s t : σ} (xs : List α), (∀ a ∈ xs, ok a) → P s → run step s xs = some t → P t := by
  intro s t xs
  induction xs generalizing s with
  | nil => intro _ hs h; cases h; exact hs
  | cons a as ih =>
    intro hok hs h
    obtain ⟨u, hu, h⟩ := Option.bind_eq_some.mp h
    exact ih (fun b hb => hok b (List.mem_cons_of_mem a hb))
      (hstep s a u (hok a (List.mem_cons_self a as)) hs hu) h

theorem getElem?_concat_eq_some {β : Type} {l : List β} {x d : β} {j : Nat} :
    (l ++ [x])[j]? = some d ↔ l[j]? = some d ∨ (j = l.length ∧ d = x) := by
  rcases Nat.lt_trichotomy j l.length with hj | rfl | hj
  · simp [List.getElem?_append_left hj, hj.ne]
  · simp [eq_comm]
  · have h1 : l[j]? = none := List.getElem?_eq_none (by omega)
    have h2 : (l ++ [x])[j]? = none := List.getElem?_eq_none (by simp; omega)
    simp [h1, h2, hj.ne']

end Dela
