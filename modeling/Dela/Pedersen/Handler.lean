import Dela.Trace
import Mathlib.Data.List.Basic

/-!
The DKG handler of one node (dkg/pedersen): the `Handler.Stream` calls, the `doDKG`
runs their `Start` messages launch, and what they share: `h.running`, the `startRes`
state read by `Done()`, and `h.privShare`. Each Stream call has its own `deals` and
`responses` cryChan of capacity `chanSize`, and a run pops from the channels of the call
that launched it. The network and the cryptographic outcomes (`NewDistKeyGenerator`,
`ProcessDeal`, `Certified`, `DistKeyShare`) are the environment's choice: a failure is a
step of its own.
-/
namespace Dela.Pedersen

def chanSize : Nat := 200

inductive Incoming where
  /-- `types.Start` with the number of its addresses and of its public keys, and whether
  `NewDistKeyGenerator` accepts them -/
  | start (addrs keys : Nat) (created : Bool)
  | deal
  | response
  | decrypt
  /-- a message of another type -/
  | other
  /-- `context.DeadlineExceeded` after `recvTimeout` -/
  | timeout
  | eof
  | error
  deriving DecidableEq, Repr

inductive CallPc where
  | looping
  | pushingDeal
  | pushingResponse
  | decrypting
  | returned
  deriving DecidableEq, Repr

structure Call where
  pc : CallPc
  deals : Nat
  responses : Nat
  deriving DecidableEq, Repr

inductive RunPc where
  | dealing
  | responding (got : Nat)
  | certifying (got : Nat) (expected : Int)
  | finalizing
  | keyed
  | announcing
  | ended
  deriving DecidableEq, Repr

structure Run where
  call : Nat
  pc : RunPc
  deriving DecidableEq, Repr

structure Handler where
  running : Bool
  distKey : Bool
  participants : Option Nat
  privShare : Bool
  calls : List Call
  runs : List Run
  crashed : Bool
  deriving DecidableEq, Repr

inductive Entry where
  /-- `h.running` is set: "DKG is running" -/
  | refused
  | setsRunning
  | passes
  deriving DecidableEq, Repr

inductive Act where
  | enter (e : Entry)
  | recv (i : Nat) (msg : Incoming)
  | push (i : Nat)
  | decryptRead (i : Nat)
  | deal (r : Nat)
  | popDeal (r : Nat)
  | respondDone (r : Nat)
  | popResponse (r : Nat)
  | certifyDone (r : Nat)
  | setDistKey (r : Nat)
  | setShare (r : Nat)
  | announce (r : Nat)
  | fail (r : Nat)
  deriving DecidableEq, Repr

namespace Handler

def init : Handler := ⟨false, false, none, false, [], [], false⟩

def done (s : Handler) : Bool := s.distKey && s.participants.isSome

def numParticipants (s : Handler) : Int := (s.participants.getD 0 : Nat)

def expectedResponses (s : Handler) : Int := (s.numParticipants - 1) * (s.numParticipants - 1)

def setCall (s : Handler) (i : Nat) (c : Call) : Handler := { s with calls := s.calls.set i c }

def setRun (s : Handler) (r : Nat) (x : Run) : Handler := { s with runs := s.runs.set r x }

def callAt (s : Handler) (i : Nat) (pc : CallPc) (k : Call → Option Handler) : Option Handler :=
  match s.calls[i]? with
  | some c => if c.pc = pc then k c else none
  | none => none

def runAt (s : Handler) (r : Nat) (k : Run → Call → Option Handler) : Option Handler :=
  match s.runs[r]? with
  | some x =>
    match s.calls[x.call]? with
    | some c => k x c
    | none => none
  | none => none

def enter (s : Handler) : Entry → Option Handler
  | .refused => if s.running then some s else none
  | .setsRunning =>
    if !s.running && !s.done then
      some { s with running := true, calls := s.calls ++ [⟨.looping, 0, 0⟩] }
    else none
  | .passes =>
    if !s.running && s.done then some { s with calls := s.calls ++ [⟨.looping, 0, 0⟩] }
    else none

def recv (s : Handler) (i : Nat) (msg : Incoming) : Option Handler :=
  s.callAt i .looping fun c =>
    match msg with
    | .start a k created =>
      if a ≠ k ∨ created = false then some (s.setCall i { c with pc := .returned })
      else some { s with participants := some a, runs := s.runs ++ [⟨i, .dealing⟩] }
    | .deal => some (s.setCall i { c with pc := .pushingDeal })
    | .response => some (s.setCall i { c with pc := .pushingResponse })
    | .decrypt => some (s.setCall i { c with pc := if s.done then .decrypting else .returned })
    | .timeout => some (if s.done then s.setCall i { c with pc := .returned } else s)
    | .other | .eof | .error => some (s.setCall i { c with pc := .returned })

def push (s : Handler) (i : Nat) : Option Handler :=
  match s.calls[i]? with
  | some c =>
    match c.pc with
    | .pushingDeal =>
      if c.deals < chanSize then some (s.setCall i { c with pc := .looping, deals := c.deals + 1 })
      else none
    | .pushingResponse =>
      if c.responses < chanSize then
        some (s.setCall i { c with pc := .looping, responses := c.responses + 1 })
      else none
    | _ => none
  | none => none

def endRun (s : Handler) (r : Nat) (x : Run) : Handler :=
  { s.setRun r { x with pc := .ended } with running := false }

def stepLive (s : Handler) : Act → Option Handler
  | .enter e => s.enter e
  | .recv i msg => s.recv i msg
  | .push i => s.push i
  | .decryptRead i => s.callAt i .decrypting fun c =>
    if s.privShare then some (s.setCall i { c with pc := .returned })
    else some { s with crashed := true }
  | .deal r => s.runAt r fun x _ =>
    if x.pc = .dealing then some (s.setRun r { x with pc := .responding 0 }) else none
  | .popDeal r => s.runAt r fun x c =>
    match x.pc with
    | .responding got =>
      if (got : Int) < s.numParticipants - 1 ∧ 0 < c.deals then
        some ((s.setRun r { x with pc := .responding (got + 1) }).setCall x.call
          { c with deals := c.deals - 1 })
      else none
    | _ => none
  | .respondDone r => s.runAt r fun x _ =>
    match x.pc with
    | .responding got =>
      if ¬(got : Int) < s.numParticipants - 1 then
        some (s.setRun r { x with pc := .certifying 0 s.expectedResponses })
      else none
    | _ => none
  | .popResponse r => s.runAt r fun x c =>
    match x.pc with
    | .certifying got expected =>
      if (got : Int) < expected ∧ 0 < c.responses then
        some ((s.setRun r { x with pc := .certifying (got + 1) expected }).setCall x.call
          { c with responses := c.responses - 1 })
      else none
    | _ => none
  | .certifyDone r => s.runAt r fun x _ =>
    match x.pc with
    | .certifying got expected =>
      if ¬(got : Int) < expected then some (s.setRun r { x with pc := .finalizing }) else none
    | _ => none
  | .setDistKey r => s.runAt r fun x _ =>
    if x.pc = .finalizing then some { s.setRun r { x with pc := .keyed } with distKey := true }
    else none
  | .setShare r => s.runAt r fun x _ =>
    if x.pc = .keyed then some { s.setRun r { x with pc := .announcing } with privShare := true }
    else none
  | .announce r => s.runAt r fun x _ =>
    if x.pc = .announcing then some (s.endRun r x) else none
  | .fail r => s.runAt r fun x _ =>
    match x.pc with
    | .keyed | .ended => none
    | _ => some (s.endRun r x)

def step (s : Handler) (a : Act) : Option Handler := if s.crashed then none else s.stepLive a

section
variable (s : Handler) (i : Nat) (c : Call) (r : Nat) (x : Run)

@[simp] theorem setCall_runs : (s.setCall i c).runs = s.runs := rfl
@[simp] theorem setCall_running : (s.setCall i c).running = s.running := rfl
@[simp] theorem setCall_distKey : (s.setCall i c).distKey = s.distKey := rfl
@[simp] theorem setCall_privShare : (s.setCall i c).privShare = s.privShare := rfl
@[simp] theorem setCall_calls : (s.setCall i c).calls = s.calls.set i c := rfl
@[simp] theorem setCall_setCall (d : Call) : (s.setCall i c).setCall i d = s.setCall i d := by
  simp [setCall, List.set_set]
@[simp] theorem setCall_crashed : (s.setCall i c).crashed = s.crashed := rfl
@[simp] theorem setRun_runs : (s.setRun r x).runs = s.runs.set r x := rfl
@[simp] theorem setRun_running : (s.setRun r x).running = s.running := rfl
@[simp] theorem setRun_distKey : (s.setRun r x).distKey = s.distKey := rfl
@[simp] theorem setRun_privShare : (s.setRun r x).privShare = s.privShare := rfl
@[simp] theorem setRun_calls : (s.setRun r x).calls = s.calls := rfl
@[simp] theorem endRun_eq :
    s.endRun r x = { s.setRun r { x with pc := .ended } with running := false } := rfl

end

section
variable {s t : Handler}

theorem step_eq_some {a : Act} (h : s.step a = some t) : s.crashed = false ∧ s.stepLive a = some t := by
  unfold step at h
  split at h
  · cases h
  · rename_i hc; exact ⟨by simpa using hc, h⟩

theorem callAt_eq_some {i : Nat} {pc : CallPc} {k : Call → Option Handler} :
    s.callAt i pc k = some t ↔ ∃ c, s.calls[i]? = some c ∧ c.pc = pc ∧ k c = some t := by
  unfold callAt
  split
  · rename_i c hc; by_cases hp : c.pc = pc <;> simp [hc, hp]
  · rename_i hn; simp [hn]

theorem runAt_eq_some {r : Nat} {k : Run → Call → Option Handler} :
    s.runAt r k = some t ↔
      ∃ x c, s.runs[r]? = some x ∧ s.calls[x.call]? = some c ∧ k x c = some t := by
  unfold runAt
  split
  · rename_i x hx
    split
    · rename_i c hc; simp [hx, hc]
    · rename_i hn; simp [hx, hn]
  · rename_i hn; simp [hn]

theorem stepLive_enter {e : Entry} (h : s.stepLive (.enter e) = some t) :
    (e = .refused ∧ s.running = true ∧ t = s) ∨
      (e = .setsRunning ∧ s.running = false ∧ s.done = false ∧
        t = { s with running := true, calls := s.calls ++ [⟨.looping, 0, 0⟩] }) ∨
      (e = .passes ∧ s.running = false ∧ s.done = true ∧
        t = { s with calls := s.calls ++ [⟨.looping, 0, 0⟩] }) := by
  cases e <;>
    simp only [stepLive, enter, Option.ite_none_right_eq_some, Option.some.injEq, Bool.and_eq_true,
      Bool.not_eq_true'] at h <;> simp [h.1, h.2.symm]

theorem stepLive_recv {i : Nat} {msg : Incoming} (h : s.stepLive (.recv i msg) = some t) :
    ∃ c, s.calls[i]? = some c ∧ c.pc = .looping ∧
      ((∃ a created, msg = .start a a created ∧ created = true ∧
          t = { s with participants := some a, runs := s.runs ++ [⟨i, .dealing⟩] }) ∨
        (∃ pc, t = s.setCall i { c with pc := pc } ∧ (pc = .pushingDeal → msg = .deal) ∧
          (pc = .pushingResponse → msg = .response) ∧ (pc = .decrypting → s.done = true)) ∨
        t = s) := by
  obtain ⟨c, hc, hpc, hk⟩ := callAt_eq_some.mp h
  refine ⟨c, hc, hpc, ?_⟩
  cases msg with
  | start a k created =>
    simp only at hk
    split at hk
    · cases hk; exact .inr (.inl ⟨_, rfl, by simp, by simp, by simp⟩)
    · rename_i hne
      cases hk
      simp only [not_or, ne_eq, not_not, Bool.not_eq_false] at hne
      obtain ⟨rfl, rfl⟩ := hne
      exact .inl ⟨a, true, rfl, rfl, rfl⟩
  | deal => cases hk; exact .inr (.inl ⟨_, rfl, fun _ => rfl, by simp, by simp⟩)
  | response => cases hk; exact .inr (.inl ⟨_, rfl, by simp, fun _ => rfl, by simp⟩)
  | decrypt =>
    cases hk
    exact .inr (.inl ⟨_, rfl, by split <;> simp, by split <;> simp, by split <;> simp_all⟩)
  | timeout =>
    cases hk
    split
    · exact .inr (.inl ⟨_, rfl, by simp, by simp, by simp⟩)
    · exact .inr (.inr rfl)
  | other | eof | error => cases hk; exact .inr (.inl ⟨_, rfl, by simp, by simp, by simp⟩)

theorem stepLive_push {i : Nat} (h : s.stepLive (.push i) = some t) :
    ∃ c, s.calls[i]? = some c ∧
      ((c.pc = .pushingDeal ∧ c.deals < chanSize ∧
          t = s.setCall i { c with pc := .looping, deals := c.deals + 1 }) ∨
        (c.pc = .pushingResponse ∧ c.responses < chanSize ∧
          t = s.setCall i { c with pc := .looping, responses := c.responses + 1 })) := by
  simp only [stepLive, push] at h
  split at h
  · rename_i c hc
    split at h
    · rename_i hpc
      simp only [Option.ite_none_right_eq_some, Option.some.injEq] at h
      exact ⟨c, hc, .inl ⟨hpc, h.1, h.2.symm⟩⟩
    · rename_i hpc
      simp only [Option.ite_none_right_eq_some, Option.some.injEq] at h
      exact ⟨c, hc, .inr ⟨hpc, h.1, h.2.symm⟩⟩
    · cases h
  · cases h

theorem stepLive_decryptRead {i : Nat} (h : s.stepLive (.decryptRead i) = some t) :
    ∃ c, s.calls[i]? = some c ∧ c.pc = .decrypting ∧
      ((s.privShare = true ∧ t = s.setCall i { c with pc := .returned }) ∨
        (s.privShare = false ∧ t = { s with crashed := true })) := by
  obtain ⟨c, hc, hpc, hk⟩ := callAt_eq_some.mp h
  refine ⟨c, hc, hpc, ?_⟩
  by_cases hp : s.privShare = true
  · rw [if_pos hp] at hk
    exact .inl ⟨hp, (Option.some.inj hk).symm⟩
  · rw [if_neg hp] at hk
    exact .inr ⟨by simpa using hp, (Option.some.inj hk).symm⟩

variable {r : Nat}

theorem stepLive_deal (h : s.stepLive (.deal r) = some t) :
    ∃ x, s.runs[r]? = some x ∧ x.pc = .dealing ∧ t = s.setRun r { x with pc := .responding 0 } := by
  obtain ⟨x, c, hx, -, hk⟩ := runAt_eq_some.mp h
  simp only [Option.ite_none_right_eq_some, Option.some.injEq] at hk
  exact ⟨x, hx, hk.1, hk.2.symm⟩

theorem stepLive_popDeal (h : s.stepLive (.popDeal r) = some t) :
    ∃ x c got, s.runs[r]? = some x ∧ s.calls[x.call]? = some c ∧ x.pc = .responding got ∧
      (got : Int) < s.numParticipants - 1 ∧ 0 < c.deals ∧
      t = (s.setRun r { x with pc := .responding (got + 1) }).setCall x.call
        { c with deals := c.deals - 1 } := by
  obtain ⟨x, c, hx, hc, hk⟩ := runAt_eq_some.mp h
  split at hk
  · rename_i got hpc
    simp only [Option.ite_none_right_eq_some, Option.some.injEq] at hk
    exact ⟨x, c, got, hx, hc, hpc, hk.1.1, hk.1.2, hk.2.symm⟩
  · cases hk

theorem stepLive_respondDone (h : s.stepLive (.respondDone r) = some t) :
    ∃ x got, s.runs[r]? = some x ∧ x.pc = .responding got ∧ ¬(got : Int) < s.numParticipants - 1 ∧
      t = s.setRun r { x with pc := .certifying 0 s.expectedResponses } := by
  obtain ⟨x, c, hx, -, hk⟩ := runAt_eq_some.mp h
  split at hk
  · rename_i got hpc
    simp only [Option.ite_none_right_eq_some, Option.some.injEq] at hk
    exact ⟨x, got, hx, hpc, hk.1, hk.2.symm⟩
  · cases hk

theorem stepLive_popResponse (h : s.stepLive (.popResponse r) = some t) :
    ∃ x c got expected, s.runs[r]? = some x ∧ s.calls[x.call]? = some c ∧
      x.pc = .certifying got expected ∧ (got : Int) < expected ∧ 0 < c.responses ∧
      t = (s.setRun r { x with pc := .certifying (got + 1) expected }).setCall x.call
        { c with responses := c.responses - 1 } := by
  obtain ⟨x, c, hx, hc, hk⟩ := runAt_eq_some.mp h
  split at hk
  · rename_i got expected hpc
    simp only [Option.ite_none_right_eq_some, Option.some.injEq] at hk
    exact ⟨x, c, got, expected, hx, hc, hpc, hk.1.1, hk.1.2, hk.2.symm⟩
  · cases hk

theorem stepLive_certifyDone (h : s.stepLive (.certifyDone r) = some t) :
    ∃ x got expected, s.runs[r]? = some x ∧ x.pc = .certifying got expected ∧
      ¬(got : Int) < expected ∧ t = s.setRun r { x with pc := .finalizing } := by
  obtain ⟨x, c, hx, -, hk⟩ := runAt_eq_some.mp h
  split at hk
  · rename_i got expected hpc
    simp only [Option.ite_none_right_eq_some, Option.some.injEq] at hk
    exact ⟨x, got, expected, hx, hpc, hk.1, hk.2.symm⟩
  · cases hk

theorem stepLive_setDistKey (h : s.stepLive (.setDistKey r) = some t) :
    ∃ x, s.runs[r]? = some x ∧ x.pc = .finalizing ∧
      t = { s.setRun r { x with pc := .keyed } with distKey := true } := by
  obtain ⟨x, c, hx, -, hk⟩ := runAt_eq_some.mp h
  simp only [Option.ite_none_right_eq_some, Option.some.injEq] at hk
  exact ⟨x, hx, hk.1, hk.2.symm⟩

theorem stepLive_setShare (h : s.stepLive (.setShare r) = some t) :
    ∃ x, s.runs[r]? = some x ∧ x.pc = .keyed ∧
      t = { s.setRun r { x with pc := .announcing } with privShare := true } := by
  obtain ⟨x, c, hx, -, hk⟩ := runAt_eq_some.mp h
  simp only [Option.ite_none_right_eq_some, Option.some.injEq] at hk
  exact ⟨x, hx, hk.1, hk.2.symm⟩

theorem stepLive_announce (h : s.stepLive (.announce r) = some t) :
    ∃ x, s.runs[r]? = some x ∧ x.pc = .announcing ∧ t = s.endRun r x := by
  obtain ⟨x, c, hx, -, hk⟩ := runAt_eq_some.mp h
  simp only [Option.ite_none_right_eq_some, Option.some.injEq] at hk
  exact ⟨x, hx, hk.1, hk.2.symm⟩

theorem stepLive_fail (h : s.stepLive (.fail r) = some t) :
    ∃ x, s.runs[r]? = some x ∧ x.pc ≠ .keyed ∧ x.pc ≠ .ended ∧ t = s.endRun r x := by
  obtain ⟨x, c, hx, -, hk⟩ := runAt_eq_some.mp h
  split at hk
  · cases hk
  · cases hk
  · rename_i hk1 hk2
    cases hk
    exact ⟨x, hx, hk1, hk2, rfl⟩

end

def Keyed (s : Handler) : Prop := s.distKey = true → s.privShare = true ∨ ∃ x ∈ s.runs, x.pc = .keyed

theorem keyed_init : Keyed init := by simp [Keyed, init]

theorem Keyed.setRun {s : Handler} (hs : Keyed s) {r : Nat} {x : Run} (hx : s.runs[r]? = some x)
    (hne : x.pc ≠ .keyed) (y : Run) : Keyed (s.setRun r y) := by
  intro hd
  rcases hs hd with hp | ⟨z, hz, hzk⟩
  · exact .inl hp
  · obtain ⟨j, hj⟩ := List.mem_iff_getElem?.mp hz
    have hjr : r ≠ j := by rintro rfl; rw [hx] at hj; cases hj; exact hne hzk
    exact .inr ⟨z, List.mem_iff_getElem?.mpr ⟨j, by simp [List.getElem?_set_ne hjr, hj]⟩, hzk⟩

theorem Keyed.step {s t : Handler} (hs : Keyed s) {a : Act} (h : s.step a = some t) : Keyed t := by
  obtain ⟨-, h⟩ := step_eq_some h
  cases a with
  | enter e =>
    rcases stepLive_enter h with ⟨-, -, rfl⟩ | ⟨-, -, -, rfl⟩ | ⟨-, -, -, rfl⟩ <;> exact hs
  | recv i msg =>
    obtain ⟨c, -, -, ⟨a, -, -, -, rfl⟩ | ⟨pc, rfl, -⟩ | rfl⟩ := stepLive_recv h
    · intro hd
      rcases hs hd with hp | ⟨z, hz, hzk⟩
      · exact .inl hp
      · exact .inr ⟨z, List.mem_append_left _ hz, hzk⟩
    · exact hs
    · exact hs
  | push i => obtain ⟨c, -, ⟨-, -, rfl⟩ | ⟨-, -, rfl⟩⟩ := stepLive_push h <;> exact hs
  | decryptRead i =>
    obtain ⟨c, -, -, ⟨-, rfl⟩ | ⟨-, rfl⟩⟩ := stepLive_decryptRead h <;> exact hs
  | deal r =>
    obtain ⟨x, hx, hpc, rfl⟩ := stepLive_deal h
    exact hs.setRun hx (by simp [hpc]) _
  | popDeal r =>
    obtain ⟨x, c, got, hx, -, hpc, -, -, rfl⟩ := stepLive_popDeal h
    exact hs.setRun hx (by simp [hpc]) _
  | respondDone r =>
    obtain ⟨x, got, hx, hpc, -, rfl⟩ := stepLive_respondDone h
    exact hs.setRun hx (by simp [hpc]) _
  | popResponse r =>
    obtain ⟨x, c, got, expected, hx, -, hpc, -, -, rfl⟩ := stepLive_popResponse h
    exact hs.setRun hx (by simp [hpc]) _
  | certifyDone r =>
    obtain ⟨x, got, expected, hx, hpc, -, rfl⟩ := stepLive_certifyDone h
    exact hs.setRun hx (by simp [hpc]) _
  | setDistKey r =>
    obtain ⟨x, hx, -, rfl⟩ := stepLive_setDistKey h
    have hr : r < s.runs.length := (List.getElem?_eq_some_iff.mp hx).1
    exact fun _ => .inr ⟨_, List.mem_set _ _ hr _, rfl⟩
  | setShare r =>
    obtain ⟨x, -, -, rfl⟩ := stepLive_setShare h
    exact fun _ => .inl rfl
  | announce r =>
    obtain ⟨x, hx, hpc, rfl⟩ := stepLive_announce h
    exact hs.setRun hx (by simp [hpc]) _
  | fail r =>
    obtain ⟨x, hx, hpc, -, rfl⟩ := stepLive_fail h
    exact hs.setRun hx hpc _

/-- `startRes.Done()` holds while `h.privShare` is still nil only inside `finalize`, between
its `SetDistKey` and its assignment of `h.privShare`. -/
theorem done_without_share_in_finalize (trace : List Act) {s : Handler}
    (h : run step init trace = some s) (hd : s.done = true) (hp : s.privShare = false) :
    ∃ x ∈ s.runs, x.pc = .keyed := by
  have hk := run_invariant Keyed (fun _ _ _ hs h => hs.step h) trace keyed_init h
  simp only [done, Bool.and_eq_true] at hd
  simpa [hp] using hk hd.1

theorem done_without_share_in_finalize_two_nodes :
    ∃ s, run step init
        [.enter .setsRunning, .recv 0 (.start 2 2 true), .deal 0, .recv 0 .deal, .push 0,
          .popDeal 0, .respondDone 0, .recv 0 .response, .push 0, .popResponse 0, .certifyDone 0,
          .setDistKey 0] = some s ∧
      s.done = true ∧ s.privShare = false ∧ ∃ x ∈ s.runs, x.pc = .keyed :=
  ⟨_, rfl, rfl, rfl, done_without_share_in_finalize
    [.enter .setsRunning, .recv 0 (.start 2 2 true), .deal 0, .recv 0 .deal, .push 0,
      .popDeal 0, .respondDone 0, .recv 0 .response, .push 0, .popResponse 0, .certifyDone 0,
      .setDistKey 0] rfl rfl rfl⟩

theorem decrypt_during_finalize_panics :
    (run step init
      [.enter .setsRunning, .recv 0 (.start 2 2 true), .deal 0, .recv 0 .deal, .push 0,
        .popDeal 0, .respondDone 0, .recv 0 .response, .push 0, .popResponse 0, .certifyDone 0,
        .setDistKey 0, .recv 0 .decrypt, .decryptRead 0]).map (·.crashed) = some true :=
  rfl

def endsRun : Act → Bool
  | .announce _ | .fail _ => true
  | _ => false

theorem running_step {s t : Handler} {a : Act} (h : s.step a = some t) :
    t.running = if a = .enter .setsRunning then true else if endsRun a then false else s.running := by
  obtain ⟨-, h⟩ := step_eq_some h
  cases a with
  | enter e =>
    rcases stepLive_enter h with ⟨rfl, hr, rfl⟩ | ⟨rfl, -, -, rfl⟩ | ⟨rfl, -, -, rfl⟩ <;> simp [endsRun, *]
  | recv i msg =>
    obtain ⟨c, -, -, ⟨a, -, -, -, rfl⟩ | ⟨pc, rfl, -⟩ | rfl⟩ := stepLive_recv h <;> simp [endsRun]
  | push i => obtain ⟨c, -, ⟨-, -, rfl⟩ | ⟨-, -, rfl⟩⟩ := stepLive_push h <;> simp [endsRun]
  | decryptRead i =>
    obtain ⟨c, -, -, ⟨-, rfl⟩ | ⟨-, rfl⟩⟩ := stepLive_decryptRead h <;> simp [endsRun]
  | deal r => obtain ⟨x, -, -, rfl⟩ := stepLive_deal h; simp [endsRun]
  | popDeal r => obtain ⟨x, c, got, -, -, -, -, -, rfl⟩ := stepLive_popDeal h; simp [endsRun]
  | respondDone r => obtain ⟨x, got, -, -, -, rfl⟩ := stepLive_respondDone h; simp [endsRun]
  | popResponse r =>
    obtain ⟨x, c, got, expected, -, -, -, -, -, rfl⟩ := stepLive_popResponse h; simp [endsRun]
  | certifyDone r => obtain ⟨x, got, expected, -, -, -, rfl⟩ := stepLive_certifyDone h; simp [endsRun]
  | setDistKey r => obtain ⟨x, -, -, rfl⟩ := stepLive_setDistKey h; simp [endsRun]
  | setShare r => obtain ⟨x, -, -, rfl⟩ := stepLive_setShare h; simp [endsRun]
  | announce r => obtain ⟨x, -, -, rfl⟩ := stepLive_announce h; simp [endsRun]
  | fail r => obtain ⟨x, -, -, -, rfl⟩ := stepLive_fail h; simp [endsRun]

def SetupLive (trace : List Act) : Prop :=
  ∃ pre post, trace = pre ++ .enter .setsRunning :: post ∧ ∀ a ∈ post, endsRun a = false

theorem setupLive_nil : ¬SetupLive [] := by
  rintro ⟨pre, post, h, -⟩
  simp at h

theorem setupLive_snoc (trace : List Act) (a : Act) :
    SetupLive (trace ++ [a]) ↔ a = .enter .setsRunning ∨ (endsRun a = false ∧ SetupLive trace) := by
  constructor
  · rintro ⟨pre, post, htr, hpost⟩
    rcases List.eq_nil_or_concat post with rfl | ⟨post, b, rfl⟩
    · exact .inl (List.cons.inj (List.append_inj' htr rfl).2).1
    · rw [List.concat_eq_append, ← List.cons_append, ← List.append_assoc] at htr
      obtain ⟨rfl, hb⟩ := List.append_inj' htr rfl
      cases hb
      exact .inr ⟨hpost a (by simp), pre, post, rfl, fun x hx => hpost x (by simp [hx])⟩
  · rintro (rfl | ⟨ha, pre, post, rfl, hpost⟩)
    · exact ⟨trace, [], by simp, by simp⟩
    · refine ⟨pre, post ++ [a], by simp, fun x hx => ?_⟩
      rcases List.mem_append.mp hx with hx | hx
      · exact hpost x hx
      · rw [List.mem_singleton.mp hx]; exact ha

theorem running_iff_setupLive {trace : List Act} {s : Handler} (h : run step init trace = some s) :
    s.running = true ↔ SetupLive trace := by
  induction trace using List.reverseRecOn generalizing s with
  | nil => cases h; simp [init, setupLive_nil]
  | append_singleton trace a ih =>
    obtain ⟨u, hu, hstep⟩ := run_snoc_eq_some h
    rw [running_step hstep, setupLive_snoc, ← ih hu]
    by_cases he : a = .enter .setsRunning
    · simp [he]
    · cases hr : endsRun a <;> simp [he, hr]

/-- A Stream call is refused with "DKG is running" exactly when some earlier call found no
setup done and set `h.running`, and no `doDKG` run has returned since; whether that call
is still running, or ever launched a run, does not matter. -/
theorem refused_iff_setup_live {trace : List Act} {s : Handler}
    (h : run step init trace = some s) :
    (∃ t, s.step (.enter .refused) = some t) ↔ s.crashed = false ∧ SetupLive trace := by
  rw [← running_iff_setupLive h]
  cases hc : s.crashed <;> cases hr : s.running <;> simp [step, hc, stepLive, enter, hr]

theorem refused_iff_setup_live_after_failed_call :
    ∃ s, run step init [.enter .setsRunning, .recv 0 .error] = some s ∧
      ((∃ t, s.step (.enter .refused) = some t) ↔
        s.crashed = false ∧ SetupLive [.enter .setsRunning, .recv 0 .error]) :=
  ⟨_, rfl, refused_iff_setup_live rfl⟩

/-- One Stream call that receives two `Start` messages launches two `doDKG` runs; a call that
set `h.running` and failed to receive leaves it set, and the next call is refused with no
run and no live call. -/
theorem two_runs_and_stale_refusal :
    (run step init [.enter .setsRunning, .recv 0 (.start 2 2 true), .recv 0 (.start 2 2 true)]).map
        (fun s => s.runs.map (·.pc)) = some [.dealing, .dealing] ∧
      (run step init [.enter .setsRunning, .recv 0 .error, .enter .refused]).map
        (fun s => (s.runs.length, s.calls.map (·.pc))) = some (0, [.returned]) :=
  ⟨rfl, rfl⟩

theorem done_step {s t : Handler} {a : Act} (h : s.step a = some t) (hd : s.done = true) :
    t.done = true := by
  obtain ⟨-, h⟩ := step_eq_some h
  cases a with
  | enter e => rcases stepLive_enter h with ⟨-, -, rfl⟩ | ⟨-, -, -, rfl⟩ | ⟨-, -, -, rfl⟩ <;> exact hd
  | recv i msg =>
    obtain ⟨c, -, -, ⟨a, -, -, -, rfl⟩ | ⟨pc, rfl, -⟩ | rfl⟩ := stepLive_recv h
    · simp only [done, Bool.and_eq_true] at hd ⊢
      exact ⟨hd.1, rfl⟩
    · exact hd
    · exact hd
  | push i => obtain ⟨c, -, ⟨-, -, rfl⟩ | ⟨-, -, rfl⟩⟩ := stepLive_push h <;> exact hd
  | decryptRead i => obtain ⟨c, -, -, ⟨-, rfl⟩ | ⟨-, rfl⟩⟩ := stepLive_decryptRead h <;> exact hd
  | deal r => obtain ⟨x, -, -, rfl⟩ := stepLive_deal h; exact hd
  | popDeal r => obtain ⟨x, c, got, -, -, -, -, -, rfl⟩ := stepLive_popDeal h; exact hd
  | respondDone r => obtain ⟨x, got, -, -, -, rfl⟩ := stepLive_respondDone h; exact hd
  | popResponse r =>
    obtain ⟨x, c, got, expected, -, -, -, -, -, rfl⟩ := stepLive_popResponse h; exact hd
  | certifyDone r => obtain ⟨x, got, expected, -, -, -, rfl⟩ := stepLive_certifyDone h; exact hd
  | setDistKey r =>
    obtain ⟨x, -, -, rfl⟩ := stepLive_setDistKey h
    simp only [done, Bool.and_eq_true] at hd ⊢
    exact ⟨trivial, hd.2⟩
  | setShare r => obtain ⟨x, -, -, rfl⟩ := stepLive_setShare h; exact hd
  | announce r => obtain ⟨x, -, -, rfl⟩ := stepLive_announce h; exact hd
  | fail r => obtain ⟨x, -, -, -, rfl⟩ := stepLive_fail h; exact hd

/-- Once a setup is done and no run holds `h.running`, the handler never guards again:
`Done()` stays true, no Stream call sets `h.running`, and none is refused with "DKG is
running", whatever the later calls and runs do. -/
theorem settled_stays {s t : Handler} {trace : List Act} (hd : s.done = true)
    (hr : s.running = false) (h : run step s trace = some t) :
    t.done = true ∧ t.running = false ∧ ∀ u, t.step (.enter .refused) ≠ some u := by
  have hstep : ∀ (u : Handler) (a : Act) (v : Handler), (u.done = true ∧ u.running = false) →
      u.step a = some v →
      v.done = true ∧ v.running = false := fun u a v ⟨hd, hr⟩ h => by
    refine ⟨done_step h hd, ?_⟩
    rw [running_step h, if_neg, hr]
    · split <;> rfl
    · rintro rfl
      obtain ⟨-, -, hnd, -⟩ := (stepLive_enter (step_eq_some h).2).resolve_left (by simp)
        |>.resolve_right (by simp)
      simp [hd] at hnd
  obtain ⟨hd', hr'⟩ := run_invariant _ hstep trace ⟨hd, hr⟩ h
  refine ⟨hd', hr', fun u hu => ?_⟩
  rcases stepLive_enter (step_eq_some hu).2 with ⟨-, hrun, -⟩ | ⟨he, -⟩ | ⟨he, -⟩
  · simp [hr'] at hrun
  · cases he
  · cases he

theorem settled_stays_after_setup :
    ∃ s t, run step init
        [.enter .setsRunning, .recv 0 (.start 2 2 true), .deal 0, .recv 0 .deal, .push 0,
          .popDeal 0, .respondDone 0, .recv 0 .response, .push 0, .popResponse 0, .certifyDone 0,
          .setDistKey 0, .setShare 0, .announce 0] = some s ∧
      run step s [.enter .passes, .recv 1 (.start 2 2 true)] = some t ∧
      s.done = true ∧ s.running = false ∧
      (t.done = true ∧ t.running = false ∧ ∀ u, t.step (.enter .refused) ≠ some u) := by
  obtain ⟨s, hs, hd, hr, t, ht⟩ : ∃ s, run step init
      [.enter .setsRunning, .recv 0 (.start 2 2 true), .deal 0, .recv 0 .deal, .push 0,
        .popDeal 0, .respondDone 0, .recv 0 .response, .push 0, .popResponse 0, .certifyDone 0,
        .setDistKey 0, .setShare 0, .announce 0] = some s ∧ s.done = true ∧ s.running = false ∧
      ∃ t, run step s [.enter .passes, .recv 1 (.start 2 2 true)] = some t :=
    ⟨_, rfl, rfl, rfl, _, rfl⟩
  exact ⟨s, t, hs, ht, hd, hr, settled_stays hd hr ht⟩

end Handler

end Dela.Pedersen
