import Dela.Chan
import Dela.Trace
import Mathlib.Logic.Function.Basic

/-!
The lifecycle of a session (mino/minogrpc/session): `Listen`, `SetPassive`,
`Close` and the `errs` case of `Recv`, over the parents map and the session's
`errs` channel, made with capacity one by `NewSession`. Each `Listen` call is a
goroutine with its own program counter; its deferred teardown deletes the
parent entry of its relay's distant address. A Go panic (a send on, or a close
of, a closed channel) ends the process: no step follows it.
-/
namespace Dela.Session

inductive StreamEnd where
  /-- `io.EOF` -/
  | eof
  /-- `nil`, or an error whose status code is not Unknown (`status.Code(nil)` is OK) -/
  | status
  /-- an error of status Unknown: `stream closed unexpectedly` -/
  | unknown
  deriving DecidableEq, Repr

inductive ListenPc where
  | draining
  | publishing
  | returned
  deriving DecidableEq, Repr

structure Lifecycle (A : Type) where
  errs : Chan Nat
  parents : A → Option Nat
  listeners : Nat → Option (A × ListenPc)
  crashed : Bool

inductive LifeAct (A : Type) where
  | listen (l : Nat) (addr : A)
  | setPassive (relay : Nat) (addr : A)
  | streamEnds (l : Nat) (addr : A) (e : StreamEnd)
  | publish (l : Nat) (addr : A)
  | close
  | recv
  deriving DecidableEq, Repr

variable {A : Type} [DecidableEq A]

namespace Lifecycle

def init : Lifecycle A := ⟨Chan.make 1, fun _ => none, fun _ => none, false⟩

def setPassive (s : Lifecycle A) (relay : Nat) (addr : A) : Lifecycle A :=
  { s with parents := Function.update s.parents addr (some relay) }

def leave (s : Lifecycle A) (l : Nat) (addr : A) : Lifecycle A :=
  { s with parents := Function.update s.parents addr none,
           listeners := Function.update s.listeners l (some (addr, .returned)) }

def crash (s : Lifecycle A) : Lifecycle A := { s with crashed := true }

def step (s : Lifecycle A) (act : LifeAct A) : Option (Lifecycle A) :=
  if s.crashed then none else
  match act with
  | .listen l addr =>
    if s.listeners l = none then
      some { s.setPassive l addr with
        listeners := Function.update s.listeners l (some (addr, .draining)) }
    else none
  | .setPassive relay addr => some (s.setPassive relay addr)
  | .streamEnds l addr e =>
    if s.listeners l = some (addr, .draining) then
      if e = .unknown then
        some { s with listeners := Function.update s.listeners l (some (addr, .publishing)) }
      else some (s.leave l addr)
    else none
  | .publish l addr =>
    if s.listeners l = some (addr, .publishing) then
      match s.errs.send l with
      | .ok c => some ({ s with errs := c }.leave l addr)
      | .blocks => none
      | .panics => some s.crash
    else none
  | .close =>
    match s.errs.close with
    | .ok c => some { s with errs := c }
    | .blocks => none
    | .panics => some s.crash
  | .recv =>
    match s.errs.recv with
    | .ok (_, c) => some { s with errs := c }
    | _ => none

end Lifecycle

def LifeAct.isClose : LifeAct A → Bool
  | .close => true
  | _ => false

def LifeAct.touchesErrs : LifeAct A → Bool
  | .close | .publish _ _ => true
  | _ => false

def Orderly : Bool → List (LifeAct A) → Prop
  | _, [] => True
  | closed, act :: rest =>
    (closed = true → act.touchesErrs = false) ∧ Orderly (closed || act.isClose) rest

namespace Lifecycle

theorem step_crashed {s t : Lifecycle A} {act : LifeAct A} (hs : s.crashed = false)
    (h : step s act = some t) :
    t.crashed = (s.errs.closed && act.touchesErrs) ∧
      (t.crashed = false → t.errs.closed = (s.errs.closed || act.isClose)) := by
  cases act with
  | listen l addr =>
    simp only [step, hs, Bool.false_eq_true, ite_false, Option.ite_none_right_eq_some,
      Option.some.injEq] at h
    obtain ⟨-, rfl⟩ := h
    simp [setPassive, hs, LifeAct.touchesErrs, LifeAct.isClose]
  | setPassive relay addr =>
    simp only [step, hs, Bool.false_eq_true, ite_false, Option.some.injEq] at h
    subst h; simp [setPassive, hs, LifeAct.touchesErrs, LifeAct.isClose]
  | streamEnds l addr e =>
    simp only [step, hs, Bool.false_eq_true, ite_false, Option.ite_none_right_eq_some] at h
    obtain ⟨-, h⟩ := h
    split at h <;> cases h <;> simp [leave, hs, LifeAct.touchesErrs, LifeAct.isClose]
  | publish l addr =>
    simp only [step, hs, Bool.false_eq_true, ite_false, Option.ite_none_right_eq_some] at h
    obtain ⟨-, h⟩ := h
    rcases hsend : s.errs.send l with c | _ | _ <;> simp only [hsend] at h <;> cases h
    · simp [leave, hs, (Chan.send_eq_ok hsend).1, (Chan.send_eq_ok hsend).2,
        LifeAct.touchesErrs, LifeAct.isClose]
    · simp [crash, (Chan.send_eq_panics _ _).mp hsend, LifeAct.touchesErrs]
  | close =>
    simp only [step, hs, Bool.false_eq_true, ite_false] at h
    rcases hclose : s.errs.close with c | _ | _ <;> simp only [hclose] at h <;> cases h
    · simp [hs, (Chan.close_eq_ok hclose).1, (Chan.close_eq_ok hclose).2,
        LifeAct.touchesErrs, LifeAct.isClose]
    · simp [crash, (Chan.close_eq_panics _).mp hclose, LifeAct.touchesErrs]
  | recv =>
    simp only [step, hs, Bool.false_eq_true, ite_false] at h
    split at h
    · rename_i c hr; cases h
      simp [hs, LifeAct.touchesErrs, LifeAct.isClose, (Chan.recv_buf_le hr).2.2]
    · cases h

theorem step_of_crashed {s : Lifecycle A} (hs : s.crashed = true) (act : LifeAct A) :
    step s act = none := by simp [step, hs]

theorem run_crashed_iff : ∀ (trace : List (LifeAct A)) (s t : Lifecycle A),
    s.crashed = false → run step s trace = some t →
    (t.crashed = false ↔ Orderly s.errs.closed trace)
  | [], s, t, hs, h => by cases h; simp [Orderly, hs]
  | act :: rest, s, t, hs, h => by
    simp only [run_cons] at h
    cases hu : step s act with
    | none => simp [hu] at h
    | some u =>
      rw [hu, Option.some_bind] at h
      obtain ⟨hc, hcl⟩ := step_crashed hs hu
      cases huc : u.crashed
      · have hok : s.errs.closed = true → act.touchesErrs = false := by
          intro hcl'; simpa [hcl', huc] using hc
        rw [run_crashed_iff rest u t huc h, hcl huc]
        simp only [Orderly, iff_and_self]
        exact fun _ => hok
      · cases rest with
        | nil =>
          cases h
          have hbad : s.errs.closed = true ∧ act.touchesErrs = true := by simpa [huc] using hc
          simp [Orderly, huc, hbad.1, hbad.2]
        | cons b bs => simp [run_cons, step_of_crashed huc] at h

/-- Closing `errs` twice, or sending on it once closed, happens exactly when a run has
a second `Close`, or a `Listen` publishing its failure after `Close`. -/
theorem errs_fault_iff_disorderly (trace : List (LifeAct A)) (s : Lifecycle A)
    (h : run step init trace = some s) : s.crashed = false ↔ Orderly false trace :=
  run_crashed_iff trace init s rfl h

theorem errs_fault_iff_disorderly_close_twice :
    ∃ s, run step (init : Lifecycle Nat) [.close, .close] = some s ∧
      (s.crashed = false ↔ Orderly false ([.close, .close] : List (LifeAct Nat))) :=
  ⟨_, rfl, errs_fault_iff_disorderly _ _ rfl⟩

/-- A second `Close` closes the closed `errs`, and a `Listen` whose stream fails after
`Close` sends on it: both are Go panics. -/
theorem close_twice_panics :
    (run step (init : Lifecycle Nat) [.close, .close]).map (·.crashed) = some true ∧
    (run step (init : Lifecycle Nat)
      [.listen 0 7, .close, .streamEnds 0 7 .unknown, .publish 0 7]).map (·.crashed) = some true :=
  ⟨rfl, rfl⟩

end Lifecycle

def LifeAct.entry (addr : A) : LifeAct A → Option (Option Nat)
  | .listen l a | .setPassive l a => if a = addr then some (some l) else none
  | .streamEnds _ a e => if a = addr ∧ e ≠ .unknown then some none else none
  | .publish _ a => if a = addr then some none else none
  | .close | .recv => none

def registered (trace : List (LifeAct A)) (addr : A) : Option Nat :=
  trace.foldl (fun v act => (act.entry addr).getD v) none

namespace Lifecycle

theorem step_parents {s t : Lifecycle A} {act : LifeAct A} (h : step s act = some t)
    (ht : t.crashed = false) (addr : A) :
    t.parents addr = (act.entry addr).getD (s.parents addr) := by
  have hs : s.crashed = false := by
    cases hs : s.crashed
    · rfl
    · simp [step_of_crashed hs] at h
  cases act with
  | listen l a =>
    simp only [step, hs, Bool.false_eq_true, ite_false, Option.ite_none_right_eq_some,
      Option.some.injEq] at h
    obtain ⟨-, rfl⟩ := h
    by_cases ha : a = addr
    · subst ha; simp [setPassive, LifeAct.entry]
    · simp [setPassive, LifeAct.entry, ha, Ne.symm ha]
  | setPassive r a =>
    simp only [step, hs, Bool.false_eq_true, ite_false, Option.some.injEq] at h
    subst h
    by_cases ha : a = addr
    · subst ha; simp [setPassive, LifeAct.entry]
    · simp [setPassive, LifeAct.entry, ha, Ne.symm ha]
  | streamEnds l a e =>
    simp only [step, hs, Bool.false_eq_true, ite_false, Option.ite_none_right_eq_some] at h
    obtain ⟨-, h⟩ := h
    split at h <;> cases h
    · simp_all [LifeAct.entry]
    · rename_i he
      by_cases ha : a = addr
      · subst ha; simp [leave, LifeAct.entry, he]
      · simp [leave, LifeAct.entry, ha, Ne.symm ha]
  | publish l a =>
    simp only [step, hs, Bool.false_eq_true, ite_false, Option.ite_none_right_eq_some] at h
    obtain ⟨-, h⟩ := h
    rcases hsend : s.errs.send l with c | _ | _ <;> simp only [hsend] at h <;> cases h
    · by_cases ha : a = addr
      · subst ha; simp [leave, LifeAct.entry]
      · simp [leave, LifeAct.entry, ha, Ne.symm ha]
    · simp [crash] at ht
  | close =>
    simp only [step, hs, Bool.false_eq_true, ite_false] at h
    rcases hclose : s.errs.close with c | _ | _ <;> simp only [hclose] at h <;> cases h
    · simp [LifeAct.entry]
    · simp [crash] at ht
  | recv =>
    simp only [step, hs, Bool.false_eq_true, ite_false] at h
    split at h <;> cases h
    simp [LifeAct.entry]

/-- The parents map of a live session is the last-writer map of its run. -/
theorem parents_eq_registered (trace : List (LifeAct A)) (s : Lifecycle A)
    (h : run step init trace = some s) (hs : s.crashed = false) : s.parents = registered trace := by
  induction trace using List.reverseRecOn generalizing s with
  | nil => cases h; rfl
  | append_singleton tr act ih =>
    obtain ⟨t, ht, hstep⟩ := run_snoc_eq_some h
    have htc : t.crashed = false := by
      cases htc : t.crashed
      · rfl
      · simp [step_of_crashed htc] at hstep
    funext addr
    rw [step_parents hstep hs, ih t ht htc]
    simp [registered, List.foldl_append]

theorem parents_eq_registered_listen_passive :
    ∃ s, run step (init : Lifecycle Nat) [.listen 0 7, .setPassive 3 7] = some s ∧
      s.crashed = false ∧ s.parents = registered [.listen 0 7, .setPassive 3 7] :=
  ⟨_, rfl, rfl, parents_eq_registered _ _ rfl rfl⟩

/-- Two `Listen` calls for one address: when the first stream ends, the entry goes although
the second `Listen` still runs. -/
theorem second_listen_loses_entry :
    (run step (init : Lifecycle Nat) [.listen 0 7, .listen 1 7, .streamEnds 0 7 .eof]).map
      (fun s => (s.listeners 1, s.parents 7)) = some (some (7, .draining), none) :=
  rfl

section
variable {s t : Lifecycle A}

theorem step_listen {l : Nat} {addr : A} (h : step s (.listen l addr) = some t) :
    s.crashed = false ∧ s.listeners l = none ∧
      t = { s.setPassive l addr with
        listeners := Function.update s.listeners l (some (addr, .draining)) } := by
  cases hs : s.crashed
  · simp only [step, hs, Bool.false_eq_true, ite_false, Option.ite_none_right_eq_some,
      Option.some.injEq] at h
    exact ⟨rfl, h.1, h.2.symm⟩
  · simp [step_of_crashed hs] at h

theorem step_setPassive {relay : Nat} {addr : A} (h : step s (.setPassive relay addr) = some t) :
    s.crashed = false ∧ t = s.setPassive relay addr := by
  cases hs : s.crashed
  · simp only [step, hs, Bool.false_eq_true, ite_false, Option.some.injEq] at h
    exact ⟨rfl, h.symm⟩
  · simp [step_of_crashed hs] at h

theorem step_streamEnds {l : Nat} {addr : A} {e : StreamEnd}
    (h : step s (.streamEnds l addr e) = some t) :
    s.crashed = false ∧ s.listeners l = some (addr, .draining) ∧
      (e = .unknown ∧
          t = { s with listeners := Function.update s.listeners l (some (addr, .publishing)) } ∨
        e ≠ .unknown ∧ t = s.leave l addr) := by
  cases hs : s.crashed
  · simp only [step, hs, Bool.false_eq_true, ite_false, Option.ite_none_right_eq_some] at h
    obtain ⟨hl, h⟩ := h
    refine ⟨rfl, hl, ?_⟩
    split at h <;> cases h
    · exact .inl ⟨‹_›, rfl⟩
    · exact .inr ⟨‹_›, rfl⟩
  · simp [step_of_crashed hs] at h

theorem step_publish {l : Nat} {addr : A} (h : step s (.publish l addr) = some t) :
    s.crashed = false ∧ s.listeners l = some (addr, .publishing) ∧
      ((∃ c, s.errs.send l = .ok c ∧ t = { s with errs := c }.leave l addr) ∨ t = s.crash) := by
  cases hs : s.crashed
  · simp only [step, hs, Bool.false_eq_true, ite_false, Option.ite_none_right_eq_some] at h
    obtain ⟨hl, h⟩ := h
    refine ⟨rfl, hl, ?_⟩
    split at h <;> cases h
    · exact .inl ⟨_, ‹_›, rfl⟩
    · exact .inr rfl
  · simp [step_of_crashed hs] at h

theorem step_close (h : step s .close = some t) :
    (∃ c, s.errs.close = .ok c ∧ t = { s with errs := c }) ∨ t = s.crash := by
  cases hs : s.crashed
  · simp only [step, hs, Bool.false_eq_true, ite_false] at h
    split at h <;> cases h
    · exact .inl ⟨_, ‹_›, rfl⟩
    · exact .inr rfl
  · simp [step_of_crashed hs] at h

theorem step_recv (h : step s .recv = some t) :
    ∃ v c, s.errs.recv = .ok (v, c) ∧ t = { s with errs := c } := by
  cases hs : s.crashed
  · simp only [step, hs, Bool.false_eq_true, ite_false] at h
    split at h <;> cases h
    exact ⟨_, _, ‹_›, rfl⟩
  · simp [step_of_crashed hs] at h

end

end Lifecycle

inductive RecvEnd where
  | unexpected (relay : Nat)
  | eof
  deriving DecidableEq, Repr

def RecvEnd.relay : RecvEnd → Option Nat
  | .unexpected l => some l
  | .eof => none

def published : List (LifeAct A) → List Nat :=
  List.filterMap fun | .publish l _ => some l | _ => none

namespace Lifecycle

def recvEnd (s : Lifecycle A) : Option RecvEnd :=
  match s.errs.recv with
  | .ok (some l, _) => some (.unexpected l)
  | .ok (none, _) => some .eof
  | _ => none

def stepRecv (x : Lifecycle A × List RecvEnd) (act : LifeAct A) :
    Option (Lifecycle A × List RecvEnd) :=
  (step x.1 act).map fun t => (t, match act with
    | .recv => x.2 ++ x.1.recvEnd.toList
    | _ => x.2)

structure Reported (trace : List (LifeAct A)) (s : Lifecycle A) (out : List RecvEnd) : Prop where
  fifo : out.filterMap RecvEnd.relay ++ s.errs.buf = published trace
  nodup : (published trace).Nodup
  published_returned : ∀ l ∈ published trace, ∃ addr, s.listeners l = some (addr, .returned)
  publishing : ∀ l addr, s.listeners l = some (addr, .publishing) →
    .streamEnds l addr .unknown ∈ trace
  unknown : ∀ l ∈ published trace, ∃ addr, .streamEnds l addr .unknown ∈ trace
  closed : s.errs.closed = true → .close ∈ trace
  eof : .eof ∈ out → s.errs.closed = true ∧ s.errs.buf = []

omit [DecidableEq A] in
theorem reported_init : Reported [] (init : Lifecycle A) [] where
  fifo := rfl
  nodup := List.nodup_nil
  published_returned := fun _ h => absurd h (List.not_mem_nil _)
  publishing := fun _ _ h => nomatch h
  unknown := fun _ h => absurd h (List.not_mem_nil _)
  closed := fun h => nomatch h
  eof := fun h => absurd h (List.not_mem_nil _)

section
variable {trace trace' : List (LifeAct A)} {s t : Lifecycle A} {out out' : List RecvEnd}

theorem Reported.frame (hr : Reported trace s out) (hsub : trace ⊆ trace')
    (hp : published trace' = published trace)
    (hl : ∀ l, t.listeners l ≠ s.listeners l → (∀ a, s.listeners l ≠ some (a, .returned)) ∧
      ∀ a, t.listeners l = some (a, .publishing) → .streamEnds l a .unknown ∈ trace')
    (fifo : out'.filterMap RecvEnd.relay ++ t.errs.buf = published trace)
    (closed : t.errs.closed = true → .close ∈ trace')
    (eof : .eof ∈ out' → t.errs.closed = true ∧ t.errs.buf = []) : Reported trace' t out' where
  fifo := hp ▸ fifo
  nodup := hp ▸ hr.nodup
  published_returned l hmem := by
    obtain ⟨a, ha⟩ := hr.published_returned l (hp ▸ hmem)
    by_cases hc : t.listeners l = s.listeners l
    · exact ⟨a, hc ▸ ha⟩
    · exact absurd ha ((hl l hc).1 a)
  publishing l a hpub := by
    by_cases hc : t.listeners l = s.listeners l
    · exact hsub (hr.publishing l a (hc ▸ hpub))
    · exact (hl l hc).2 a hpub
  unknown l hmem := (hr.unknown l (hp ▸ hmem)).imp fun _ h => hsub h
  closed := closed
  eof := eof

theorem Reported.publish {l : Nat} {addr : A} (hr : Reported trace s out)
    (h : step s (.publish l addr) = some t) (ht : t.crashed = false) :
    Reported (trace ++ [.publish l addr]) t out := by
  obtain ⟨-, hl, ⟨c, hsend, rfl⟩ | rfl⟩ := step_publish h
  · obtain ⟨hopen, rfl⟩ := Chan.send_eq_ok hsend
    have mem : ∀ {a}, a ∈ trace → a ∈ trace ++ [.publish l addr] := List.mem_append_left _
    have hnew : l ∉ published trace := fun hmem => by
      obtain ⟨a, ha⟩ := hr.published_returned l hmem
      simp [hl] at ha
    have hpub : published (trace ++ [.publish l addr]) = published trace ++ [l] := by
      simp [published]
    refine ⟨?_, ?_, fun j hj => ?_, fun j a hj => ?_, fun j hj => ?_, fun hc => ?_, fun he => ?_⟩
    · simp [leave, hpub, ← hr.fifo]
    · exact hpub ▸ List.pairwise_append.mpr ⟨hr.nodup, List.pairwise_singleton _ _,
        fun a ha b hb hab => hnew (List.eq_of_mem_singleton hb ▸ hab ▸ ha)⟩
    · by_cases hjl : j = l
      · exact ⟨addr, by simp [leave, hjl]⟩
      · obtain ⟨a, ha⟩ := hr.published_returned j (by simpa [hpub, hjl] using hj)
        exact ⟨a, by simp [leave, hjl, ha]⟩
    · by_cases hjl : j = l
      · simp [leave, hjl] at hj
      · exact mem (hr.publishing j a (by simpa [leave, hjl] using hj))
    · rcases (by simpa [hpub] using hj : j ∈ published trace ∨ j = l) with hj | rfl
      · exact (hr.unknown j hj).imp fun _ h => mem h
      · exact ⟨addr, mem (hr.publishing j addr hl)⟩
    · simp [leave, hopen] at hc
    · exact absurd (hr.eof he).1 (by simp [hopen])
  · simp [crash] at ht

theorem Reported.close (hr : Reported trace s out) (h : step s .close = some t)
    (ht : t.crashed = false) : Reported (trace ++ [.close]) t out := by
  obtain ⟨c, hclose, rfl⟩ | rfl := step_close h
  · obtain ⟨-, rfl⟩ := Chan.close_eq_ok hclose
    exact hr.frame (List.subset_append_left _ _) (by simp [published]) (fun _ h => absurd rfl h)
      hr.fifo (fun _ => by simp) fun he => ⟨rfl, (hr.eof he).2⟩
  · simp [crash] at ht

theorem Reported.recv (hr : Reported trace s out) (h : step s .recv = some t) :
    Reported (trace ++ [.recv]) t (out ++ s.recvEnd.toList) := by
  obtain ⟨v, c, hrecv, rfl⟩ := step_recv h
  have hp : published (trace ++ [.recv]) = published trace := by simp [published]
  rcases Chan.recv_eq_ok hrecv with ⟨l, rest, hbuf, rfl, rfl⟩ | ⟨hbuf, hclosed, rfl, rfl⟩
  · have hend : s.recvEnd = some (.unexpected l) := by simp [recvEnd, hrecv]
    refine hend ▸ hr.frame (List.subset_append_left _ _) hp (fun _ h => absurd rfl h) ?_
      (fun hc => List.mem_append_left _ (hr.closed hc)) fun he => ?_
    · simp [← hr.fifo, hbuf, RecvEnd.relay]
    · have := (hr.eof (by simpa using he)).2
      simp [hbuf] at this
  · have hend : s.recvEnd = some .eof := by simp [recvEnd, hrecv]
    exact hend ▸ hr.frame (List.subset_append_left _ _) hp (fun _ h => absurd rfl h)
      (by simpa [RecvEnd.relay] using hr.fifo) (fun hc => List.mem_append_left _ (hr.closed hc))
      fun _ => ⟨hclosed, hbuf⟩

theorem Reported.step {act : LifeAct A} (hr : Reported trace s out)
    (h : stepRecv (s, out) act = some (t, out')) (ht : t.crashed = false) :
    Reported (trace ++ [act]) t out' := by
  obtain ⟨u, hu, hx⟩ := Option.map_eq_some'.mp h
  obtain ⟨rfl, rfl⟩ := Prod.mk.inj hx
  dsimp only at hu
  have hsub := List.subset_append_left trace [act]
  cases act with
  | listen l addr =>
    obtain ⟨-, hl, rfl⟩ := step_listen hu
    refine hr.frame hsub (by simp [published]) (fun j hj => ?_) hr.fifo
      (fun hc => hsub (hr.closed hc)) hr.eof
    by_cases hjl : j = l
    · subst hjl; simp [hl]
    · exact absurd (Function.update_noteq hjl _ _) hj
  | setPassive relay addr =>
    obtain ⟨-, rfl⟩ := step_setPassive hu
    exact hr.frame hsub (by simp [published]) (fun _ h => absurd rfl h) hr.fifo
      (fun hc => hsub (hr.closed hc)) hr.eof
  | streamEnds l addr e =>
    obtain ⟨-, hl, ⟨rfl, rfl⟩ | ⟨he, rfl⟩⟩ := step_streamEnds hu <;>
    refine hr.frame hsub (by simp [published]) (fun j hj => ?_) hr.fifo
      (fun hc => hsub (hr.closed hc)) hr.eof <;>
    by_cases hjl : j = l
    · subst hjl; simp [hl]
    · exact absurd (Function.update_noteq hjl _ _) hj
    · subst hjl; simp [hl, leave]
    · exact absurd (Function.update_noteq hjl _ _) hj
  | publish l addr => exact hr.publish hu ht
  | close => exact hr.close hu ht
  | recv => exact hr.recv hu

end

theorem reported_run (trace : List (LifeAct A)) {s : Lifecycle A} {out : List RecvEnd}
    (h : run stepRecv (init, []) trace = some (s, out)) (hs : s.crashed = false) :
    Reported trace s out := by
  induction trace using List.reverseRecOn generalizing s out with
  | nil => cases h; exact reported_init
  | append_singleton trace act ih =>
    obtain ⟨⟨u, o⟩, hu, hstep⟩ := run_snoc_eq_some h
    have huc : u.crashed = false := by
      cases huc : u.crashed
      · rfl
      · simp [stepRecv, step_of_crashed huc] at hstep
    exact (ih hu huc).step hstep hs

/-- `Recv` reports the failure of every parent stream, once and in order, and loses none:
what it returned, then what `errs` still holds, are the relays the `Listen` calls
published, in order and each once, each after its stream ended with status Unknown. It
returns `io.EOF` only after `Close`, and only once every failure has been returned. -/
theorem recv_reports_failures {trace : List (LifeAct A)} {s : Lifecycle A} {out : List RecvEnd}
    (h : run stepRecv (init, []) trace = some (s, out)) (hs : s.crashed = false) :
    out.filterMap RecvEnd.relay ++ s.errs.buf = published trace ∧ (published trace).Nodup ∧
      (∀ l ∈ published trace, ∃ addr, .streamEnds l addr .unknown ∈ trace) ∧
      (.eof ∈ out → .close ∈ trace ∧ out.filterMap RecvEnd.relay = published trace) := by
  have hr := reported_run trace h hs
  refine ⟨hr.fifo, hr.nodup, hr.unknown, fun he => ?_⟩
  obtain ⟨hc, hb⟩ := hr.eof he
  exact ⟨hr.closed hc, by simpa [hb] using hr.fifo⟩

theorem recv_reports_failures_then_eof :
    ∃ s, run stepRecv ((init : Lifecycle Nat), [])
        [.listen 0 7, .listen 1 8, .streamEnds 1 8 .unknown, .streamEnds 0 7 .unknown,
          .publish 1 8, .recv, .publish 0 7, .close, .recv, .recv] =
        some (s, [.unexpected 1, .unexpected 0, .eof]) ∧ s.crashed = false ∧
      [RecvEnd.unexpected 1, .unexpected 0, .eof].filterMap RecvEnd.relay ++ s.errs.buf =
        [1, 0] ∧ [1, 0].Nodup ∧
      (∀ l ∈ [1, 0], ∃ addr, LifeAct.streamEnds l addr .unknown ∈
        [.listen 0 7, .listen 1 8, .streamEnds 1 8 .unknown, .streamEnds 0 7 .unknown,
          .publish 1 8, .recv, .publish 0 7, .close, .recv, .recv]) ∧
      (RecvEnd.eof ∈ [RecvEnd.unexpected 1, .unexpected 0, .eof] →
        LifeAct.close ∈ [LifeAct.listen 0 7, .listen 1 8, .streamEnds 1 8 .unknown,
          .streamEnds 0 7 .unknown, .publish 1 8, .recv, .publish 0 7, .close, .recv, .recv] ∧
        [RecvEnd.unexpected 1, .unexpected 0, .eof].filterMap RecvEnd.relay = [1, 0]) := by
  have h : run stepRecv ((init : Lifecycle Nat), [])
      [.listen 0 7, .listen 1 8, .streamEnds 1 8 .unknown, .streamEnds 0 7 .unknown,
        .publish 1 8, .recv, .publish 0 7, .close, .recv, .recv] =
      some (_, [.unexpected 1, .unexpected 0, .eof]) := rfl
  exact ⟨_, h, rfl, recv_reports_failures h rfl⟩

end Lifecycle

end Dela.Session
