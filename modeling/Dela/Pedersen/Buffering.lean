import Dela.Pedersen.Handler
import Mathlib.Data.List.Perm.Basic

/-!
The `deals` and `responses` cryChans of a Stream call hold `chanSize` values. A call whose
push finds its channel full blocks, and only the run it launched pops that channel. Here:
the messages of one setup reach a node in any order; the push of a call blocks, with its
run not started or waiting for a message queued behind, exactly when there are at least
16 participants, so that more than `chanSize` Responses can arrive first.
-/
namespace Dela.Pedersen

def setupMsgs (n : Nat) : List Incoming :=
  .start n n true :: (List.replicate (n - 1) .deal ++ List.replicate ((n - 1) * (n - 1)) .response)

def received (i : Nat) : List Act → List Incoming :=
  List.filterMap fun | .recv j msg => if j = i then some msg else none | _ => none

namespace Call

variable (c : Call)

def pendingDeals : Nat := c.deals + if c.pc = .pushingDeal then 1 else 0

def pendingResponses : Nat := c.responses + if c.pc = .pushingResponse then 1 else 0

def Blocked : Prop :=
  (c.pc = .pushingDeal ∧ c.deals = chanSize) ∨ (c.pc = .pushingResponse ∧ c.responses = chanSize)

end Call

namespace Handler

def Waits (s : Handler) (c : Call) (x : Run) : Prop :=
  (∃ got, x.pc = .responding got ∧ (got : Int) < s.numParticipants - 1 ∧ c.deals = 0) ∨
    (∃ got expected, x.pc = .certifying got expected ∧ (got : Int) < expected ∧ c.responses = 0)

def Stuck (s : Handler) (i : Nat) : Prop :=
  ∃ c, s.calls[i]? = some c ∧ c.Blocked ∧ ∀ x ∈ s.runs, x.call = i → s.Waits c x

def Counted (s : Handler) (trace : List Act) : Prop :=
  ∀ (i : Nat) (c : Call), s.calls[i]? = some c →
    c.pendingDeals ≤ (received i trace).count .deal ∧
      c.pendingResponses ≤ (received i trace).count .response

def Dominated (t s : Handler) : Prop :=
  ∀ (i : Nat) (c' : Call), t.calls[i]? = some c' → (c'.pendingDeals = 0 ∧ c'.pendingResponses = 0) ∨
    ∃ c : Call, s.calls[i]? = some c ∧ c'.pendingDeals ≤ c.pendingDeals ∧
      c'.pendingResponses ≤ c.pendingResponses

theorem received_append (i : Nat) (l₁ l₂ : List Act) :
    received i (l₁ ++ l₂) = received i l₁ ++ received i l₂ := by
  simp [received]

@[simp] theorem received_recv (i j : Nat) (msg : Incoming) :
    received i [.recv j msg] = if j = i then [msg] else [] := by
  by_cases h : j = i <;> simp [received, h]

theorem Counted.dominated {s t : Handler} {trace : List Act} (hs : Counted s trace)
    (hd : Dominated t s) (a : Act) : Counted t (trace ++ [a]) := by
  intro i c' hc'
  rw [received_append, List.count_append, List.count_append]
  rcases hd i c' hc' with ⟨h1, h2⟩ | ⟨c, hc, h1, h2⟩
  · omega
  · have := hs i c hc
    omega

theorem dominated_setCall {s : Handler} {i : Nat} {c c' : Call} (hc : s.calls[i]? = some c)
    (h1 : c'.pendingDeals ≤ c.pendingDeals) (h2 : c'.pendingResponses ≤ c.pendingResponses) :
    Dominated (s.setCall i c') s := by
  intro j d hd
  right
  by_cases hj : i = j
  · subst hj
    have hi : i < s.calls.length := (List.getElem?_eq_some_iff.mp hc).1
    simp only [setCall_calls, List.getElem?_set_self hi, Option.some.injEq] at hd
    exact ⟨c, hc, hd ▸ h1, hd ▸ h2⟩
  · rw [setCall_calls, List.getElem?_set_ne hj] at hd
    exact ⟨d, hd, le_rfl, le_rfl⟩

theorem dominated_self (s : Handler) : Dominated s s :=
  fun _ c hc => .inr ⟨c, hc, le_rfl, le_rfl⟩

theorem counted_init : Counted init [] := by simp [Counted, init]

theorem Counted.recv {s : Handler} {trace : List Act} (hs : Counted s trace) {i : Nat}
    {msg : Incoming} {c : Call} (hc : s.calls[i]? = some c) (hpc : c.pc = .looping) {pc : CallPc}
    (hdeal : pc = .pushingDeal → msg = .deal) (hresp : pc = .pushingResponse → msg = .response) :
    Counted (s.setCall i { c with pc := pc }) (trace ++ [.recv i msg]) := by
  intro j d hd
  rw [received_append, List.count_append, List.count_append]
  by_cases hj : i = j
  · subst hj
    have hi : i < s.calls.length := (List.getElem?_eq_some_iff.mp hc).1
    simp only [setCall_calls, List.getElem?_set_self hi, Option.some.injEq] at hd
    subst hd
    have := hs i c hc
    simp only [Call.pendingDeals, Call.pendingResponses, hpc, reduceCtorEq, ite_false,
      Nat.add_zero] at this ⊢
    constructor
    · by_cases hp : pc = .pushingDeal
      · simp [hp, hdeal hp]; omega
      · simp [hp]; omega
    · by_cases hp : pc = .pushingResponse
      · simp [hp, hresp hp]; omega
      · simp [hp]; omega
  · rw [setCall_calls, List.getElem?_set_ne hj] at hd
    have := hs j d hd
    omega

theorem Counted.step {s t : Handler} {trace : List Act} (hs : Counted s trace) {a : Act}
    (h : s.step a = some t) : Counted t (trace ++ [a]) := by
  obtain ⟨-, h⟩ := step_eq_some h
  cases a with
  | enter e =>
    rcases stepLive_enter h with ⟨-, -, rfl⟩ | ⟨-, -, -, rfl⟩ | ⟨-, -, -, rfl⟩
    · exact hs.dominated (dominated_self _) _
    all_goals
      refine hs.dominated (fun i c' hc' => ?_) _
      rcases getElem?_concat_eq_some.mp hc' with hc | ⟨-, rfl⟩
      · exact .inr ⟨c', hc, le_rfl, le_rfl⟩
      · exact .inl ⟨rfl, rfl⟩
  | recv i msg =>
    obtain ⟨c, hc, hpc, ⟨a, -, -, -, rfl⟩ | ⟨pc, rfl, hdeal, hresp, -⟩ | rfl⟩ := stepLive_recv h
    · exact hs.dominated (dominated_self s) _
    · exact hs.recv hc hpc hdeal hresp
    · exact hs.dominated (dominated_self _) _
  | push i =>
    obtain ⟨c, hc, ⟨hpc, -, rfl⟩ | ⟨hpc, -, rfl⟩⟩ := stepLive_push h <;>
      exact hs.dominated (dominated_setCall hc (by simp [Call.pendingDeals, hpc])
        (by simp [Call.pendingResponses, hpc])) _
  | decryptRead i =>
    obtain ⟨c, hc, hpc, ⟨-, rfl⟩ | ⟨-, rfl⟩⟩ := stepLive_decryptRead h
    · exact hs.dominated (dominated_setCall hc (by simp [Call.pendingDeals, hpc])
        (by simp [Call.pendingResponses, hpc])) _
    · exact hs.dominated (dominated_self s) _
  | popDeal r =>
    obtain ⟨x, c, got, -, hc, -, -, -, rfl⟩ := stepLive_popDeal h
    exact hs.dominated (dominated_setCall hc (by simp [Call.pendingDeals])
      (by simp [Call.pendingResponses])) _
  | popResponse r =>
    obtain ⟨x, c, got, expected, -, hc, -, -, -, rfl⟩ := stepLive_popResponse h
    exact hs.dominated (dominated_setCall hc (by simp [Call.pendingDeals])
      (by simp [Call.pendingResponses])) _
  | deal r => obtain ⟨x, -, -, rfl⟩ := stepLive_deal h; exact hs.dominated (dominated_self _) _
  | respondDone r =>
    obtain ⟨x, got, -, -, -, rfl⟩ := stepLive_respondDone h
    exact hs.dominated (dominated_self _) _
  | certifyDone r =>
    obtain ⟨x, got, expected, -, -, -, rfl⟩ := stepLive_certifyDone h
    exact hs.dominated (dominated_self _) _
  | setDistKey r =>
    obtain ⟨x, -, -, rfl⟩ := stepLive_setDistKey h; exact hs.dominated (dominated_self _) _
  | setShare r =>
    obtain ⟨x, -, -, rfl⟩ := stepLive_setShare h; exact hs.dominated (dominated_self _) _
  | announce r =>
    obtain ⟨x, -, -, rfl⟩ := stepLive_announce h; exact hs.dominated (dominated_self _) _
  | fail r =>
    obtain ⟨x, -, -, -, rfl⟩ := stepLive_fail h; exact hs.dominated (dominated_self _) _

theorem counted_run {trace : List Act} {s : Handler} (h : run step init trace = some s) :
    Counted s trace := by
  induction trace using List.reverseRecOn generalizing s with
  | nil => cases h; exact counted_init
  | append_singleton trace a ih =>
    obtain ⟨u, hu, hstep⟩ := run_snoc_eq_some h
    exact (ih hu).step hstep

theorem count_setupMsgs (n : Nat) :
    (setupMsgs n).count .deal = n - 1 ∧ (setupMsgs n).count .response = (n - 1) * (n - 1) := by
  simp [setupMsgs, List.count_replicate]

theorem responses_first_perm {n k : Nat} (hk : k ≤ (n - 1) * (n - 1)) :
    (List.replicate k Incoming.response ++ (Incoming.start n n true ::
      (List.replicate (n - 1) Incoming.deal ++
        List.replicate ((n - 1) * (n - 1) - k) Incoming.response))).Perm (setupMsgs n) := by
  refine List.perm_middle.trans (.cons _ ?_)
  refine (List.perm_append_comm_assoc _ _ _).trans ?_
  rw [← List.replicate_add, Nat.add_sub_cancel' hk]

theorem blocked_needs_sixteen {n : Nat} {q : List Incoming} {trace : List Act} {s : Handler}
    {i : Nat} {c : Call} (hq : q.Perm (setupMsgs n)) (hpre : received i trace <+: q)
    (h : run step init trace = some s) (hc : s.calls[i]? = some c) (hb : c.Blocked) :
    16 ≤ n := by
  obtain ⟨hd, hr⟩ := counted_run h i c hc
  have hdq := (hpre.sublist.count_le .deal).trans_eq (hq.count_eq .deal)
  have hrq := (hpre.sublist.count_le .response).trans_eq (hq.count_eq .response)
  rw [(count_setupMsgs n).1] at hdq
  rw [(count_setupMsgs n).2] at hrq
  by_contra hn
  have hsq : (n - 1) * (n - 1) ≤ 14 * 14 := Nat.mul_le_mul (by omega) (by omega)
  rcases hb with ⟨hpc, hfull⟩ | ⟨hpc, hfull⟩
  · simp only [Call.pendingDeals, hpc, hfull, chanSize, ite_true] at hd
    omega
  · simp only [Call.pendingResponses, hpc, hfull, chanSize, ite_true] at hr
    omega

section
variable {s : Handler} {i : Nat} {c : Call}

theorem step_recv_response (hs : s.crashed = false) (hc : s.calls[i]? = some c)
    (hpc : c.pc = .looping) :
    s.step (.recv i .response) = some (s.setCall i { c with pc := .pushingResponse }) := by
  simp [step, hs, stepLive, recv, callAt, hc, hpc]

theorem step_push_response (hs : s.crashed = false) (hc : s.calls[i]? = some c)
    (hpc : c.pc = .pushingResponse) (hroom : c.responses < chanSize) :
    s.step (.push i) = some (s.setCall i { c with pc := .looping, responses := c.responses + 1 }) := by
  simp [step, hs, stepLive, push, hc, hpc, hroom]

theorem run_responses (k : Nat) (hs : s.crashed = false) (hi : i < s.calls.length)
    (hpc : c.pc = .looping) (hk : c.responses + k ≤ chanSize) :
    run step (s.setCall i c) (List.replicate k [.recv i .response, .push i]).flatten =
      some (s.setCall i { c with responses := c.responses + k }) := by
  induction k generalizing c with
  | zero => simp
  | succ k ih =>
    have hc : (s.setCall i c).calls[i]? = some c := by simp [hi]
    have hc' : ((s.setCall i c).setCall i { c with pc := .pushingResponse }).calls[i]? =
        some { c with pc := .pushingResponse } := by simp [hi]
    have hnext : run step (s.setCall i c) [.recv i .response, .push i] =
        some (s.setCall i { c with responses := c.responses + 1 }) := by
      rw [run_cons, step_recv_response (by simpa using hs) hc hpc, Option.some_bind, run_cons,
        step_push_response (by simpa using hs) hc' rfl (by simp; omega), Option.some_bind, run_nil,
        setCall_setCall, setCall_setCall]
      obtain ⟨pc, deals, responses⟩ := c
      cases hpc
      rfl
    rw [List.replicate_succ, List.flatten_cons, run_append, hnext, Option.some_bind,
      @ih { c with responses := c.responses + 1 } hpc (by simp; omega)]
    simp [Nat.add_assoc, Nat.add_comm 1 k]

theorem received_responses (k : Nat) :
    received i (List.replicate k [.recv i .response, .push i]).flatten =
      List.replicate k .response := by
  induction k with
  | zero => rfl
  | succ k ih =>
    rw [List.replicate_succ, List.flatten_cons, received, List.filterMap_append, ← received, ih]
    simp [received, List.replicate_succ]

end

def responsesFirstTrace (k : Nat) : List Act :=
  .enter .setsRunning :: ((List.replicate k [.recv 0 .response, .push 0]).flatten ++
    [.recv 0 .response])

theorem received_responsesFirstTrace (k : Nat) :
    received 0 (responsesFirstTrace k) = List.replicate (k + 1) .response := by
  rw [responsesFirstTrace, ← List.singleton_append, received_append, received_append,
    received_responses, received_recv, if_pos rfl, List.replicate_succ']
  rfl

theorem run_responsesFirstTrace {k : Nat} (hk : k ≤ chanSize) :
    run step init (responsesFirstTrace k) =
      some { init with running := true, calls := [⟨.pushingResponse, 0, k⟩] } := by
  let s₁ : Handler := { init with running := true, calls := [⟨.looping, 0, 0⟩] }
  have hfill := run_responses (s := s₁) (i := 0) (c := ⟨.looping, 0, 0⟩) k rfl (by decide) rfl
    (by simpa using hk)
  rw [show s₁.setCall 0 ⟨.looping, 0, 0⟩ = s₁ from rfl] at hfill
  rw [responsesFirstTrace, run_cons, show step init (.enter .setsRunning) = some s₁ from rfl,
    Option.some_bind, run_append, hfill, Option.some_bind, run_cons,
    step_recv_response (s := s₁.setCall 0 ⟨.looping, 0, 0 + k⟩) (c := ⟨.looping, 0, 0 + k⟩) rfl
      (by simp [s₁]) rfl, Option.some_bind, run_nil]
  simp only [Nat.zero_add]
  rfl

/-- Fix any number `n` of participants. Some order of arrival of a setup's messages leaves a
Stream call blocked pushing on a full cryChan while the run it launched is not started, or
waits in `respond` or `certify` on an empty channel, exactly when `n ≥ 16`: up to
`(n - 1) * (n - 2)` Responses can precede the `Start`, and `chanSize` is 200. -/
theorem stuck_iff_sixteen (n : Nat) :
    (∃ (q : List Incoming) (trace : List Act) (s : Handler) (i : Nat),
      q.Perm (setupMsgs n) ∧ received i trace <+: q ∧ run step init trace = some s ∧ s.Stuck i) ↔
      16 ≤ n := by
  constructor
  · rintro ⟨q, trace, s, i, hq, hpre, h, c, hc, hb, -⟩
    exact blocked_needs_sixteen hq hpre h hc hb
  · intro hn
    have h15 : 15 ≤ n - 1 := by omega
    have hm : 201 ≤ (n - 1) * (n - 1) :=
      le_trans (by decide) (Nat.mul_le_mul h15 h15)
    refine ⟨_, responsesFirstTrace chanSize, _, 0, responses_first_perm hm, ?_,
      run_responsesFirstTrace le_rfl, _, rfl, .inr ⟨rfl, rfl⟩, by simp [init]⟩
    rw [received_responsesFirstTrace]
    exact List.prefix_append _ _

/-- With 16 participants, the 201st of the 225 Responses reaching a node before the `Start`
blocks its Stream call on a full channel, and no run is there to pop it. -/
theorem stuck_with_sixteen_participants :
    let q := List.replicate 201 Incoming.response ++ (Incoming.start 16 16 true ::
      (List.replicate 15 Incoming.deal ++ List.replicate 24 Incoming.response))
    q.Perm (setupMsgs 16) ∧ received 0 (responsesFirstTrace 200) <+: q ∧
      run step init (responsesFirstTrace 200) =
        some { init with running := true, calls := [⟨.pushingResponse, 0, 200⟩] } ∧
      Stuck { init with running := true, calls := [⟨.pushingResponse, 0, 200⟩] } 0 :=
  ⟨responses_first_perm (by decide),
    (received_responsesFirstTrace 200).symm ▸ List.prefix_append _ _,
    run_responsesFirstTrace le_rfl, _, rfl, .inr ⟨rfl, rfl⟩, by simp [init]⟩

/-- With 16 participants the `Start` can come first: the run deals and waits in `respond` for
the 15 Deals, which reach the node behind the 201st of the 225 Responses, whose push finds the
channel full. Every Deal was sent, and `respond` waits for them for good. -/
theorem respond_waits_behind_responses :
    let trace : List Act := [.enter .setsRunning, .recv 0 (.start 16 16 true), .deal 0] ++
      ((List.replicate 200 [.recv 0 .response, .push 0]).flatten ++ [.recv 0 .response])
    let s : Handler := ⟨true, false, some 16, false, [⟨.pushingResponse, 0, 200⟩], [⟨0, .responding 0⟩], false⟩
    let q := Incoming.start 16 16 true :: (List.replicate 201 Incoming.response ++
      (List.replicate 15 Incoming.deal ++ List.replicate 24 Incoming.response))
    q.Perm (setupMsgs 16) ∧ received 0 trace <+: q ∧ run step init trace = some s ∧
      Stuck s 0 ∧ s.runs = [⟨0, .responding 0⟩] := by
  intro trace s q
  let s₁ : Handler := ⟨true, false, some 16, false, [⟨.looping, 0, 0⟩], [⟨0, .responding 0⟩], false⟩
  have hfill := run_responses (s := s₁) (i := 0) (c := ⟨.looping, 0, 0⟩) 200 rfl (by decide) rfl
    le_rfl
  rw [show s₁.setCall 0 ⟨.looping, 0, 0⟩ = s₁ from rfl] at hfill
  refine ⟨.cons _ ((List.perm_append_comm_assoc _ _ _).trans ?_), ?_, ?_,
    ⟨_, rfl, .inr ⟨rfl, rfl⟩, fun x hx _ => ?_⟩, rfl⟩
  · rw [← List.replicate_add]
  · rw [received_append, received_append, received_responses, received_recv, if_pos rfl,
      show received 0 [.enter .setsRunning, .recv 0 (.start 16 16 true), .deal 0] =
        [.start 16 16 true] from rfl, ← List.replicate_succ']
    exact List.prefix_append _ _
  · rw [run_append, show run step init [.enter .setsRunning, .recv 0 (.start 16 16 true), .deal 0] =
        some s₁ from rfl, Option.some_bind, run_append, hfill, Option.some_bind, run_cons,
      step_recv_response (s := s₁.setCall 0 ⟨.looping, 0, 0 + 200⟩) (c := ⟨.looping, 0, 0 + 200⟩)
        rfl (by simp [s₁]) rfl, Option.some_bind, run_nil]
    rfl
  · obtain rfl : x = ⟨0, .responding 0⟩ := List.mem_singleton.mp hx
    exact .inl ⟨0, rfl, by decide, rfl⟩

end Handler

end Dela.Pedersen
