import Dela.Session.Send
import Dela.Trace
import Mathlib.Data.Finset.Card
import Mathlib.Logic.Hydra

/-!
The retries of `sendPacket` against a routing table that remembers failed gateways. The
goroutines of one call tree share the table: each `sendPacket` asks `Forward` for routes
and starts a `sendTo` goroutine per route; a `sendTo` whose relay cannot be set up, or
whose relay's `Send` fails, calls `onFailure`, which asks the table's `OnFailure(g)` and,
when it returns nil, calls `sendPacket` again with the same packet. The table is assumed
to return nil from `OnFailure(g)` only for a gateway `g` not yet marked failed, marking
it, and never to route through a marked gateway; `gateways` are the addresses it routes to.
A `sendPacket` that waits for its `sendTo`s, and an `onFailure` that waits for its retry,
do nothing else, so a task ends once it has started its children.
-/
namespace Dela.Session

inductive Task (A : Type) where
  | sendPacket (pkt : Packet A) (path : List A)
  | sendTo (hop : Option A) (pkt : Packet A) (path : List A)
  | done

structure Tree (A : Type) where
  failed : Finset A
  tasks : List (Task A)
  errs : List (SendError A)

inductive TreeAct (A : Type) where
  | forward (i : Nat) (queueFails : Bool) (voids : List A) (routes : List (Option A × Packet A))
  | acked (i : Nat) (errors : List String)
  | closing (i : Nat)
  | refused (i : Nat) (marks : Bool)
  | retry (i : Nat)

variable {A : Type} [DecidableEq A]

def routable (gateways failed : Finset A) : Option A → Bool
  | some g => g ∈ gateways && g ∉ failed
  | none => true

namespace Tree

def init (pkt : Packet A) : Tree A := ⟨∅, [.sendPacket pkt []], []⟩

def finish (s : Tree A) (i : Nat) (errs : List (SendError A)) : Tree A :=
  { s with tasks := s.tasks.set i .done, errs := s.errs ++ errs }

def step (me : A) (gateways : Finset A) (s : Tree A) : TreeAct A → Option (Tree A)
  | .forward i queueFails voids routes =>
    match s.tasks[i]? with
    | some (.sendPacket pkt path) =>
      if routes.all (fun r => routable gateways s.failed r.1) then
        some { s with
          tasks := s.tasks.set i .done ++ routes.map fun r => .sendTo r.1 r.2 path
          errs := s.errs ++ (if (pkt.slice me).1.isSome && queueFails then [.dropped] else []) ++
            voids.map .void }
      else none
    | _ => none
  | .acked i errors =>
    match s.tasks[i]? with
    | some (.sendTo _ _ _) => some (s.finish i (errors.map .ack))
    | _ => none
  | .closing i =>
    match s.tasks[i]? with
    | some (.sendTo none _ _) => some (s.finish i [.closing])
    | _ => none
  | .refused i marks =>
    match s.tasks[i]? with
    | some (.sendTo (some g) _ _) =>
      some { s.finish i [.noRoute g] with failed := if marks then insert g s.failed else s.failed }
    | _ => none
  | .retry i =>
    match s.tasks[i]? with
    | some (.sendTo (some g) pkt path) =>
      if g ∈ s.failed then none
      else some { s with tasks := s.tasks.set i (.sendPacket pkt (g :: path)), failed := insert g s.failed }
    | _ => none

section
variable {me : A} {gateways : Finset A} {s t : Tree A} {i : Nat}

theorem step_forward {queueFails : Bool} {voids : List A} {routes : List (Option A × Packet A)}
    (h : s.step me gateways (.forward i queueFails voids routes) = some t) :
    ∃ pkt path, s.tasks[i]? = some (.sendPacket pkt path) ∧
      routes.all (fun r => routable gateways s.failed r.1) = true ∧
      t = { s with
        tasks := s.tasks.set i .done ++ routes.map fun r => .sendTo r.1 r.2 path
        errs := s.errs ++ (if (pkt.slice me).1.isSome && queueFails then [.dropped] else []) ++
          voids.map .void } := by
  simp only [step] at h
  split at h
  · rename_i pkt path hi
    obtain ⟨hr, ⟨⟩⟩ := Option.ite_none_right_eq_some.mp h
    exact ⟨pkt, path, hi, hr, rfl⟩
  · cases h

theorem step_acked {errors : List String} (h : s.step me gateways (.acked i errors) = some t) :
    ∃ hop pkt path, s.tasks[i]? = some (.sendTo hop pkt path) ∧ t = s.finish i (errors.map .ack) := by
  simp only [step] at h
  split at h
  · rename_i hop pkt path hi; cases h; exact ⟨hop, pkt, path, hi, rfl⟩
  · cases h

theorem step_closing (h : s.step me gateways (.closing i) = some t) :
    ∃ pkt path, s.tasks[i]? = some (.sendTo none pkt path) ∧ t = s.finish i [.closing] := by
  simp only [step] at h
  split at h
  · rename_i pkt path hi; cases h; exact ⟨pkt, path, hi, rfl⟩
  · cases h

theorem step_refused {marks : Bool} (h : s.step me gateways (.refused i marks) = some t) :
    ∃ g pkt path, s.tasks[i]? = some (.sendTo (some g) pkt path) ∧
      t = { s.finish i [.noRoute g] with failed := if marks then insert g s.failed else s.failed } := by
  simp only [step] at h
  split at h
  · rename_i g pkt path hi; cases h; exact ⟨g, pkt, path, hi, rfl⟩
  · cases h

theorem step_retry (h : s.step me gateways (.retry i) = some t) :
    ∃ g pkt path, s.tasks[i]? = some (.sendTo (some g) pkt path) ∧ g ∉ s.failed ∧
      t = { s with tasks := s.tasks.set i (.sendPacket pkt (g :: path)), failed := insert g s.failed } := by
  simp only [step] at h
  split at h
  · rename_i g pkt path hi
    obtain ⟨hg, ⟨⟩⟩ := Option.ite_none_left_eq_some.mp h
    exact ⟨g, pkt, path, hi, hg, rfl⟩
  · cases h

end

end Tree

def Task.path : Task A → List A
  | .sendPacket _ path | .sendTo _ _ path => path
  | .done => []

namespace Tree

structure Inv (gateways : Finset A) (s : Tree A) : Prop where
  failed : s.failed ⊆ gateways
  path : ∀ x ∈ s.tasks, x.path.Nodup ∧ ∀ g ∈ x.path, g ∈ s.failed
  hop : ∀ g pkt path, Task.sendTo (some g) pkt path ∈ s.tasks → g ∈ gateways

omit [DecidableEq A] in
theorem inv_init (gateways : Finset A) (pkt : Packet A) : Inv gateways (init pkt) :=
  ⟨by simp [init], by simp [init, Task.path], by simp [init]⟩

section
variable {me : A} {gateways : Finset A} {s t : Tree A}

omit [DecidableEq A] in
theorem Inv.set (hs : Inv gateways s) {i : Nat} {y : Task A}
    (htasks : t.tasks = s.tasks.set i y) (hf : s.failed ⊆ t.failed) (hg : t.failed ⊆ gateways)
    (hy : y.path.Nodup ∧ ∀ g ∈ y.path, g ∈ t.failed)
    (hyhop : ∀ g pkt path, y = .sendTo (some g) pkt path → g ∈ gateways) : Inv gateways t := by
  refine ⟨hg, fun x hx => ?_, fun g pkt path hx => ?_⟩
  · rw [htasks] at hx
    rcases List.mem_or_eq_of_mem_set hx with hx | rfl
    · exact ⟨(hs.path x hx).1, fun g h => hf ((hs.path x hx).2 g h)⟩
    · exact hy
  · rw [htasks] at hx
    rcases List.mem_or_eq_of_mem_set hx with hx | hx
    · exact hs.hop g pkt path hx
    · exact hyhop g pkt path hx.symm

theorem Inv.step (hs : Inv gateways s) {a : TreeAct A} (h : s.step me gateways a = some t) :
    Inv gateways t := by
  cases a with
  | forward i queueFails voids routes =>
    obtain ⟨pkt, path, hi, hr, rfl⟩ := step_forward h
    have hset : Inv gateways { s with tasks := s.tasks.set i .done } :=
      hs.set (y := .done) rfl (fun _ h => h) hs.failed (by simp [Task.path]) (by simp)
    refine ⟨hs.failed, fun x hx => ?_, fun g q p hx => ?_⟩
    · rcases List.mem_append.mp hx with hx | hx
      · exact hset.path x hx
      · obtain ⟨r, -, rfl⟩ := List.mem_map.mp hx
        exact hs.path (.sendPacket pkt path) (List.getElem?_mem hi)
    · rcases List.mem_append.mp hx with hx | hx
      · exact hset.hop g q p hx
      · obtain ⟨r, hr', hx⟩ := List.mem_map.mp hx
        injection hx with hg
        have := List.all_eq_true.mp hr r hr'
        simp only [hg, routable, Bool.and_eq_true, decide_eq_true_eq] at this
        exact this.1
  | acked i errors =>
    obtain ⟨hop, pkt, path, -, rfl⟩ := step_acked h
    exact hs.set (y := .done) rfl (fun _ h => h) hs.failed (by simp [Task.path]) (by simp)
  | closing i =>
    obtain ⟨pkt, path, -, rfl⟩ := step_closing h
    exact hs.set (y := .done) rfl (fun _ h => h) hs.failed (by simp [Task.path]) (by simp)
  | refused i marks =>
    obtain ⟨g, pkt, path, hi, rfl⟩ := step_refused h
    have hg := hs.hop g pkt path (List.getElem?_mem hi)
    cases marks
    · exact hs.set (y := .done) rfl (fun _ h => h) hs.failed (by simp [Task.path]) (by simp)
    · exact hs.set (y := .done) rfl (Finset.subset_insert _ _) (Finset.insert_subset hg hs.failed)
        (by simp [Task.path]) (by simp)
  | retry i =>
    obtain ⟨g, pkt, path, hi, hgf, rfl⟩ := step_retry h
    have hg := hs.hop g pkt path (List.getElem?_mem hi)
    obtain ⟨hnd, hpf⟩ := hs.path _ (List.getElem?_mem hi)
    refine hs.set rfl (Finset.subset_insert _ _) (Finset.insert_subset hg hs.failed) ⟨?_, ?_⟩ (by simp)
    · exact List.nodup_cons.mpr ⟨fun hm => hgf (hpf g hm), hnd⟩
    · intro g' hg'
      rcases List.mem_cons.mp hg' with rfl | hg'
      · exact Finset.mem_insert_self _ _
      · exact Finset.mem_insert_of_mem (hpf g' hg')

theorem Inv.path_length (hs : Inv gateways s) {x : Task A} (hx : x ∈ s.tasks) :
    x.path.length ≤ gateways.card := by
  rw [← List.toFinset_card_of_nodup (hs.path x hx).1]
  exact Finset.card_le_card fun g hg => hs.failed ((hs.path x hx).2 g (List.mem_toFinset.mp hg))

end

theorem inv_run {me : A} {gateways : Finset A} {pkt : Packet A} {trace : List (TreeAct A)}
    {s : Tree A} (h : run (step me gateways) (init pkt) trace = some s) : Inv gateways s :=
  run_invariant (Inv gateways) (fun _ _ _ hs h => hs.step h) trace (inv_init gateways pkt) h

end Tree

def Task.rank (G : Nat) : Task A → Option Nat
  | .sendPacket _ path => some (2 * (G - path.length) + 1)
  | .sendTo _ _ path => some (2 * (G - path.length))
  | .done => none

omit [DecidableEq A] in
theorem filterMap_cons_eq {β γ : Type} (f : β → Option γ) (a : β) (l : List β) :
    (a :: l).filterMap f = (f a).toList ++ l.filterMap f := by
  cases h : f a <;> simp [List.filterMap_cons, h]

omit [DecidableEq A] in
theorem filterMap_set_perm {β γ : Type} [DecidableEq γ] (f : β → Option γ) (y : β) :
    ∀ {l : List β} {i : Nat} {x : β}, l[i]? = some x →
      ((l.set i y).filterMap f ++ (f x).toList).Perm (l.filterMap f ++ (f y).toList)
  | [], _, _, h => by simp at h
  | a :: l, 0, x, h => by
    obtain rfl : a = x := by simpa using h
    rw [List.set_cons_zero, filterMap_cons_eq, filterMap_cons_eq, List.perm_iff_count]
    intro c
    simp only [List.count_append]
    omega
  | a :: l, i + 1, x, h => by
    rw [List.set_cons_succ, filterMap_cons_eq, filterMap_cons_eq, List.append_assoc,
      List.append_assoc]
    exact (filterMap_set_perm f y (by simpa using h)).append_left _

namespace Tree

def ranks (G : Nat) (tasks : List (Task A)) : Multiset Nat := (tasks.filterMap (Task.rank G) : List Nat)

omit [DecidableEq A] in
theorem ranks_set (G : Nat) {l : List (Task A)} {i : Nat} {x : Task A} (hx : l[i]? = some x)
    (y : Task A) (extra : List (Task A)) :
    ranks G (l.set i y ++ extra) + ((x.rank G).toList : Multiset Nat) =
      ranks G l + ((y.rank G).toList : Multiset Nat) + ranks G extra := by
  have h := Multiset.coe_eq_coe.mpr (filterMap_set_perm (Task.rank G) y hx)
  simp only [ranks, List.filterMap_append, ← Multiset.coe_add] at h ⊢
  rw [add_right_comm, h]

omit [DecidableEq A] in
theorem finish_cutExpand (G : Nat) {s : Tree A} {i k : Nat} {x : Task A}
    (hx : s.tasks[i]? = some x) (hk : x.rank G = some k) (errs : List (SendError A)) :
    Relation.CutExpand (· < ·) (ranks G (s.finish i errs).tasks) (ranks G s.tasks) := by
  have h := ranks_set G hx .done []
  rw [hk] at h
  exact ⟨0, k, by simp, by simpa [Task.rank, finish, ranks] using h⟩

section
variable {me : A} {gateways : Finset A} {s t : Tree A}

theorem Inv.cutExpand (hs : Inv gateways s) {a : TreeAct A} (h : s.step me gateways a = some t) :
    Relation.CutExpand (· < ·) (ranks gateways.card t.tasks) (ranks gateways.card s.tasks) := by
  have ht := hs.step h
  cases a with
  | forward i queueFails voids routes =>
    obtain ⟨pkt, path, hi, -, rfl⟩ := step_forward h
    refine ⟨_, 2 * (gateways.card - path.length) + 1, fun b hb => ?_,
      by simpa [Task.rank] using ranks_set gateways.card hi .done _⟩
    obtain ⟨x, hx, hb⟩ := List.mem_filterMap.mp (Multiset.mem_coe.mp hb)
    obtain ⟨r, -, rfl⟩ := List.mem_map.mp hx
    simp only [Task.rank, Option.some.injEq] at hb
    omega
  | acked i errors =>
    obtain ⟨hop, pkt, path, hi, rfl⟩ := step_acked h
    exact finish_cutExpand _ hi rfl _
  | closing i =>
    obtain ⟨pkt, path, hi, rfl⟩ := step_closing h
    exact finish_cutExpand _ hi rfl _
  | refused i marks =>
    obtain ⟨g, pkt, path, hi, rfl⟩ := step_refused h
    exact finish_cutExpand _ hi rfl [.noRoute g]
  | retry i =>
    obtain ⟨g, pkt, path, hi, -, rfl⟩ := step_retry h
    have hlen := ht.path_length (x := .sendPacket pkt (g :: path))
      (List.mem_iff_getElem?.mpr ⟨i, by simp [(List.getElem?_eq_some_iff.mp hi).1]⟩)
    simp only [Task.path, List.length_cons] at hlen
    refine ⟨{2 * (gateways.card - (path.length + 1)) + 1}, _, fun b hb => ?_,
      by simpa [Task.rank, ranks] using ranks_set gateways.card hi (.sendPacket pkt (g :: path)) []⟩
    rw [Multiset.mem_singleton] at hb
    omega

end

theorem step_acc (me : A) (gateways : Finset A) (pkt : Packet A) :
    Acc (fun t s => ∃ a, s.step me gateways a = some t) (init pkt) := by
  have hwf : WellFounded fun t s : Tree A => Inv gateways s ∧ ∃ a, s.step me gateways a = some t :=
    Subrelation.wf (fun ⟨hs, _, h⟩ => hs.cutExpand h)
      (InvImage.wf (fun s : Tree A => ranks gateways.card s.tasks) wellFounded_lt.cutExpand)
  suffices ∀ s, Acc (fun t s => Inv gateways s ∧ ∃ a, s.step me gateways a = some t) s →
      Inv gateways s → Acc (fun t s => ∃ a, s.step me gateways a = some t) s from
    this _ (hwf.apply _) (inv_init gateways pkt)
  intro s hacc
  induction hacc with
  | intro s _ ih => exact fun hs => ⟨_, fun t ⟨a, h⟩ => ih t ⟨hs, a, h⟩ (hs.step h)⟩

/-- Whatever `Forward` returns within the table's assumptions and whatever relays fail,
the goroutines started by one `sendPacket` call take finitely many steps in every
interleaving; and every goroutine sits below at most as many nested retries as the table
has gateways, each retry for a different gateway. -/
theorem retries_terminate (me : A) (gateways : Finset A) (pkt : Packet A) :
    Acc (fun t s => ∃ a, s.step me gateways a = some t) (init pkt) ∧
      ∀ (trace : List (TreeAct A)) (s : Tree A), run (step me gateways) (init pkt) trace = some s →
        ∀ x ∈ s.tasks, x.path.Nodup ∧ (∀ g ∈ x.path, g ∈ gateways) ∧
          x.path.length ≤ gateways.card := by
  refine ⟨step_acc me gateways pkt, fun _ _ h x hx => ?_⟩
  have hs := inv_run h
  exact ⟨(hs.path x hx).1, fun g hg => hs.failed ((hs.path x hx).2 g hg), hs.path_length hx⟩

end Tree

end Dela.Session
