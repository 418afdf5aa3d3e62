import Dela.Chan
import Dela.Trace
import Mathlib.Data.Finset.Card

/-!
The events of `defaultSync.Sync` (core/ordering/cosipbft/blocksync). `routine` counts the
players that soft- and hard-synced and reports each change through `sendToChannel` on the
channel `Sync` returns, made with room for one event: `sendToChannel` drains the channel
with non-blocking receives, then sends the new event. A consumer reads the channel
concurrently, and `Sync`'s goroutine closes it once `routine` returns. The messages
`routine` receives and the outcome of each `syncNode` are the environment's choices. A
send that would block or panic is no step.
-/
namespace Dela.Blocksync

structure Event (E : Type) where
  soft : Nat
  hard : Nat
  errors : List E
  deriving DecidableEq, Repr

def Event.Le {E : Type} (e f : Event E) : Prop := e.soft ≤ f.soft ∧ e.hard ≤ f.hard

inductive Next (A : Type) where
  | loop
  | syncNode (a : A)
  deriving DecidableEq, Repr

inductive RoutinePc (A : Type) where
  | announcing
  | loop
  | draining (next : Next A)
  | sending (next : Next A)
  | syncing (a : A)
  | returned
  | closed
  deriving DecidableEq, Repr

structure Routine (A E : Type) where
  soft : Finset A
  hard : Finset A
  hardErrs : List E
  pc : RoutinePc A
  ch : Chan (Event E)
  received : List (Event E)
  consumerDone : Bool
  produced : List (Event E)

inductive RoutineAct (A E : Type) where
  | announced
  | announceFails
  | recvRequest (a : A)
  | recvAck (a : A)
  | recvOther
  | recvFails
  | loopEnds
  | drain
  | send
  | syncOk
  | syncFails (e : E)
  | close
  | consume

variable {A E : Type} [DecidableEq A]

def Next.resume : Next A → RoutinePc A
  | .loop => .loop
  | .syncNode a => .syncing a

namespace RoutinePc

def pending : RoutinePc A → Option A
  | .draining (.syncNode a) => some a
  | .sending (.syncNode a) => some a
  | .syncing a => some a
  | _ => none

def inSend : RoutinePc A → Bool
  | .draining _ => true
  | .sending _ => true
  | _ => false

end RoutinePc

namespace Routine

def event (s : Routine A E) : Event E := ⟨s.soft.card, s.hard.card, s.hardErrs⟩

def init : Routine A E := ⟨∅, ∅, [], .announcing, Chan.make 1, [], false, []⟩

def Receiving (n : Nat) (s : Routine A E) : Prop := s.pc = .loop ∧ s.hard.card < n

instance (n : Nat) (s : Routine A E) : Decidable (s.Receiving n) :=
  inferInstanceAs (Decidable (_ ∧ _))

def step (n : Nat) (s : Routine A E) : RoutineAct A E → Option (Routine A E)
  | .announced => if s.pc = .announcing then some { s with pc := .loop } else none
  | .announceFails => if s.pc = .announcing then some { s with pc := .returned } else none
  | .recvRequest a =>
    if s.Receiving n then
      if a ∈ s.soft then some s
      else some { s with soft := insert a s.soft, pc := .draining (.syncNode a) }
    else none
  | .recvAck a =>
    if s.Receiving n then
      some { s with soft := insert a s.soft, hard := insert a s.hard, pc := .draining .loop }
    else none
  | .recvOther => if s.Receiving n then some s else none
  | .recvFails => if s.Receiving n then some { s with pc := .returned } else none
  | .loopEnds => if s.pc = .loop ∧ n ≤ s.hard.card then some { s with pc := .returned } else none
  | .drain =>
    match s.pc, s.ch.recv with
    | .draining _, .ok (_, c) => some { s with ch := c }
    | .draining nx, .blocks => some { s with pc := .sending nx }
    | _, _ => none
  | .send =>
    match s.pc, s.ch.send s.event with
    | .sending nx, .ok c =>
      some { s with ch := c, produced := s.produced ++ [s.event], pc := nx.resume }
    | _, _ => none
  | .syncOk =>
    match s.pc with
    | .syncing _ => some { s with pc := .loop }
    | _ => none
  | .syncFails e =>
    match s.pc with
    | .syncing a =>
      some { s with hard := insert a s.hard, hardErrs := s.hardErrs ++ [e], pc := .draining .loop }
    | _ => none
  | .close =>
    match s.pc, s.ch.close with
    | .returned, .ok c => some { s with ch := c, pc := .closed }
    | _, _ => none
  | .consume =>
    if s.consumerDone then none
    else
      match s.ch.recv with
      | .ok (some v, c) => some { s with ch := c, received := s.received ++ [v] }
      | .ok (none, c) => some { s with ch := c, consumerDone := true }
      | _ => none

section
variable {n : Nat} {s t : Routine A E}

theorem step_announced (h : s.step n .announced = some t) :
    s.pc = .announcing ∧ t = { s with pc := .loop } := by
  obtain ⟨hp, ⟨⟩⟩ := Option.ite_none_right_eq_some.mp h
  exact ⟨hp, rfl⟩

theorem step_announceFails (h : s.step n .announceFails = some t) :
    s.pc = .announcing ∧ t = { s with pc := .returned } := by
  obtain ⟨hp, ⟨⟩⟩ := Option.ite_none_right_eq_some.mp h
  exact ⟨hp, rfl⟩

theorem step_recvRequest {a : A} (h : s.step n (.recvRequest a) = some t) :
    s.Receiving n ∧ (a ∈ s.soft ∧ t = s ∨
      a ∉ s.soft ∧ t = { s with soft := insert a s.soft, pc := .draining (.syncNode a) }) := by
  simp only [step] at h
  split at h
  · split at h <;> cases h
    · exact ⟨‹_›, .inl ⟨‹_›, rfl⟩⟩
    · exact ⟨‹_›, .inr ⟨‹_›, rfl⟩⟩
  · cases h

theorem step_recvAck {a : A} (h : s.step n (.recvAck a) = some t) :
    s.Receiving n ∧
      t = { s with soft := insert a s.soft, hard := insert a s.hard, pc := .draining .loop } := by
  obtain ⟨hp, ⟨⟩⟩ := Option.ite_none_right_eq_some.mp h
  exact ⟨hp, rfl⟩

theorem step_recvOther (h : s.step n .recvOther = some t) : s.Receiving n ∧ t = s := by
  obtain ⟨hp, ⟨⟩⟩ := Option.ite_none_right_eq_some.mp h
  exact ⟨hp, rfl⟩

theorem step_recvFails (h : s.step n .recvFails = some t) :
    s.Receiving n ∧ t = { s with pc := .returned } := by
  obtain ⟨hp, ⟨⟩⟩ := Option.ite_none_right_eq_some.mp h
  exact ⟨hp, rfl⟩

theorem step_loopEnds (h : s.step n .loopEnds = some t) :
    s.pc = .loop ∧ t = { s with pc := .returned } := by
  obtain ⟨hp, ⟨⟩⟩ := Option.ite_none_right_eq_some.mp h
  exact ⟨hp.1, rfl⟩

theorem step_drain (h : s.step n .drain = some t) :
    ∃ nx, s.pc = .draining nx ∧
      ((∃ o c, s.ch.recv = .ok (o, c) ∧ t = { s with ch := c }) ∨
        (s.ch.recv = .blocks ∧ t = { s with pc := .sending nx })) := by
  simp only [step] at h
  split at h <;> cases h
  · exact ⟨_, ‹_›, .inl ⟨_, _, ‹_›, rfl⟩⟩
  · exact ⟨_, ‹_›, .inr ⟨‹_›, rfl⟩⟩

theorem step_send (h : s.step n .send = some t) :
    ∃ nx c, s.pc = .sending nx ∧ s.ch.send s.event = .ok c ∧
      t = { s with ch := c, produced := s.produced ++ [s.event], pc := nx.resume } := by
  simp only [step] at h
  split at h <;> cases h
  exact ⟨_, _, ‹_›, ‹_›, rfl⟩

theorem step_syncOk (h : s.step n .syncOk = some t) :
    ∃ a, s.pc = .syncing a ∧ t = { s with pc := .loop } := by
  simp only [step] at h
  split at h <;> cases h
  exact ⟨_, ‹_›, rfl⟩

theorem step_syncFails {e : E} (h : s.step n (.syncFails e) = some t) :
    ∃ a, s.pc = .syncing a ∧
      t = { s with hard := insert a s.hard, hardErrs := s.hardErrs ++ [e], pc := .draining .loop } := by
  simp only [step] at h
  split at h <;> cases h
  exact ⟨_, ‹_›, rfl⟩

theorem step_close (h : s.step n .close = some t) :
    ∃ c, s.pc = .returned ∧ s.ch.close = .ok c ∧ t = { s with ch := c, pc := .closed } := by
  simp only [step] at h
  split at h <;> cases h
  exact ⟨_, ‹_›, ‹_›, rfl⟩

theorem step_consume (h : s.step n .consume = some t) :
    s.consumerDone = false ∧
      ((∃ v c, s.ch.recv = .ok (some v, c) ∧ t = { s with ch := c, received := s.received ++ [v] }) ∨
        ∃ c, s.ch.recv = .ok (none, c) ∧ t = { s with ch := c, consumerDone := true }) := by
  simp only [step] at h
  split at h
  · cases h
  · split at h <;> cases h
    · exact ⟨Bool.eq_false_iff.mpr ‹_›, .inl ⟨_, _, ‹_›, rfl⟩⟩
    · exact ⟨Bool.eq_false_iff.mpr ‹_›, .inr ⟨_, ‹_›, rfl⟩⟩

theorem step_grows {a : RoutineAct A E} (h : s.step n a = some t) :
    s.soft ⊆ t.soft ∧ s.hard ⊆ t.hard := by
  have same : s.soft ⊆ s.soft ∧ s.hard ⊆ s.hard := ⟨subset_rfl, subset_rfl⟩
  cases a with
  | recvRequest a =>
    obtain ⟨-, ⟨-, rfl⟩ | ⟨-, rfl⟩⟩ := step_recvRequest h
    exacts [same, ⟨Finset.subset_insert _ _, subset_rfl⟩]
  | recvAck a =>
    obtain ⟨-, rfl⟩ := step_recvAck h
    exact ⟨Finset.subset_insert _ _, Finset.subset_insert _ _⟩
  | syncFails e =>
    obtain ⟨a, -, rfl⟩ := step_syncFails h
    exact ⟨subset_rfl, Finset.subset_insert _ _⟩
  | announced => obtain ⟨-, rfl⟩ := step_announced h; exact same
  | announceFails => obtain ⟨-, rfl⟩ := step_announceFails h; exact same
  | recvOther => obtain ⟨-, rfl⟩ := step_recvOther h; exact same
  | recvFails => obtain ⟨-, rfl⟩ := step_recvFails h; exact same
  | loopEnds => obtain ⟨-, rfl⟩ := step_loopEnds h; exact same
  | drain => obtain ⟨_, -, ⟨_, _, -, rfl⟩ | ⟨-, rfl⟩⟩ := step_drain h <;> exact same
  | send => obtain ⟨_, _, -, -, rfl⟩ := step_send h; exact same
  | syncOk => obtain ⟨_, -, rfl⟩ := step_syncOk h; exact same
  | close => obtain ⟨_, -, -, rfl⟩ := step_close h; exact same
  | consume => obtain ⟨-, ⟨_, _, -, rfl⟩ | ⟨_, -, rfl⟩⟩ := step_consume h <;> exact same

end

structure Inv (s : Routine A E) : Prop where
  hardSoft : s.hard ⊆ s.soft
  errs : s.hardErrs.length ≤ s.hard.card
  pending : ∀ a, s.pc.pending = some a → a ∈ s.soft ∧ a ∉ s.hard
  cap : s.ch.cap = 1
  closed : s.ch.closed = true → s.pc = .closed
  sending : ∀ nx, s.pc = .sending nx → s.ch.buf = []
  sublist : (s.received ++ s.ch.buf).Sublist s.produced
  bufLast : ∀ v ∈ s.ch.buf, s.produced.getLast? = some v
  bounded : ∀ e ∈ s.produced, e.hard ≤ e.soft ∧ e.soft ≤ s.soft.card ∧ e.hard ≤ s.hard.card
  ordered : s.produced.Pairwise Event.Le
  settled : s.pc.inSend = false →
    (s.received ++ s.ch.buf).getLast? = s.produced.getLast? ∧
      ∀ e ∈ s.produced.getLast?, e = s.event
  done : s.consumerDone = true → s.pc = .closed ∧ s.ch.buf = []

section
variable {n : Nat} {s t : Routine A E}

omit [DecidableEq A] in
theorem inv_init : Inv (init : Routine A E) := by
  constructor <;> simp [init, Chan.make, RoutinePc.pending]

omit [DecidableEq A] in
theorem Inv.ch_open (hi : Inv s) (hc : s.pc ≠ .closed) : s.ch.closed = false := by
  cases h : s.ch.closed
  · rfl
  · exact absurd (hi.closed h) hc

omit [DecidableEq A] in
theorem Inv.move (hi : Inv s) {p : RoutinePc A} (hs : s.pc.inSend = false) (hc : s.pc ≠ .closed)
    (hp : p.inSend = false) (hpp : p.pending = none) (hpc : p ≠ .closed) :
    Inv { s with pc := p } where
  __ := hi
  pending := by simp [hpp]
  closed := fun h => by simp [hi.ch_open hc] at h
  sending := fun nx h => by subst h; simp [RoutinePc.inSend] at hp
  settled := fun _ => hi.settled hs
  done := fun h => absurd (hi.done h).1 hc

omit [DecidableEq A] in
theorem Inv.grow (hi : Inv s) {soft hard : Finset A} {errs : List E} {nx : Next A}
    (hc : s.pc ≠ .closed) (hsoft : s.soft ⊆ soft) (hhard : s.hard ⊆ hard) (hhs : hard ⊆ soft)
    (herrs : errs.length ≤ hard.card) (hnx : ∀ a, nx = .syncNode a → a ∈ soft ∧ a ∉ hard) :
    Inv { s with soft := soft, hard := hard, hardErrs := errs, pc := .draining nx } where
  __ := hi
  hardSoft := hhs
  errs := herrs
  pending := fun a h => hnx a (by cases nx <;> simp_all [RoutinePc.pending])
  closed := fun h => by simp [hi.ch_open hc] at h
  sending := fun _ h => by cases h
  bounded := fun e he => by
    obtain ⟨h1, h2, h3⟩ := hi.bounded e he
    exact ⟨h1, h2.trans (Finset.card_le_card hsoft), h3.trans (Finset.card_le_card hhard)⟩
  settled := fun h => by simp [RoutinePc.inSend] at h
  done := fun h => absurd (hi.done h).1 hc

theorem Inv.drain (hi : Inv s) (h : s.step n .drain = some t) : Inv t := by
  obtain ⟨nx, hp, ⟨o, c, hr, rfl⟩ | ⟨hr, rfl⟩⟩ := step_drain h
  · have hc : s.pc ≠ .closed := by simp [hp]
    rcases Chan.recv_eq_ok hr with ⟨v, rest, hb, -, rfl⟩ | ⟨-, hcl, -, -⟩
    · exact { hi with
        sending := fun _ h => by simp [hp] at h
        sublist := List.Sublist.trans (by simp [hb]) hi.sublist
        bufLast := fun w hw => hi.bufLast w (by simp [hb, hw])
        settled := fun h => by simp [hp, RoutinePc.inSend] at h
        done := fun h => absurd (hi.done h).1 hc }
    · exact absurd (hi.closed hcl) hc
  · obtain ⟨hb, -⟩ := (Chan.recv_eq_blocks _).mp hr
    exact { hi with
      pending := fun a h => hi.pending a (by rw [hp]; cases nx <;> exact h)
      closed := fun h => absurd (hi.closed h) (by simp [hp])
      sending := fun _ _ => hb
      settled := fun h => by simp [RoutinePc.inSend] at h
      done := fun h => absurd (hi.done h).1 (by simp [hp]) }

theorem Inv.send (hi : Inv s) (h : s.step n .send = some t) : Inv t := by
  obtain ⟨nx, c, hp, hs, rfl⟩ := step_send h
  obtain ⟨hopen, rfl⟩ := Chan.send_eq_ok hs
  have hb := hi.sending nx hp
  exact {
    hardSoft := hi.hardSoft
    errs := hi.errs
    pending := fun a h => hi.pending a (by rw [hp]; cases nx <;> exact h)
    cap := hi.cap
    closed := fun h => by simp [hopen] at h
    sending := fun _ h => by cases nx <;> cases h
    sublist := by simpa [hb] using hi.sublist.append_right [s.event]
    bufLast := by simp [hb]
    bounded := by
      simp only [List.mem_append, List.mem_singleton]
      rintro e (he | rfl)
      · exact hi.bounded e he
      · exact ⟨Finset.card_le_card hi.hardSoft, le_rfl, le_rfl⟩
    ordered := List.pairwise_append.mpr ⟨hi.ordered, List.pairwise_singleton _ _,
      fun e he _ hf => by
        obtain ⟨-, h2, h3⟩ := hi.bounded e he
        simp only [List.mem_singleton] at hf
        exact hf ▸ ⟨h2, h3⟩⟩
    settled := fun _ => by simp [hb, event]
    done := fun h => absurd (hi.done h).1 (by simp [hp]) }

theorem Inv.consume (hi : Inv s) (h : s.step n .consume = some t) : Inv t := by
  obtain ⟨hd, ⟨v, c, hr, rfl⟩ | ⟨c, hr, rfl⟩⟩ := step_consume h
  · rcases Chan.recv_eq_ok hr with ⟨w, rest, hb, hv, rfl⟩ | ⟨-, -, hv, -⟩
    · cases hv
      exact { hi with
        sending := fun nx hp => by simp [hi.sending nx hp] at hb
        sublist := by simpa [hb] using hi.sublist
        bufLast := fun u hu => hi.bufLast u (by simp [hb, hu])
        settled := fun hs => by simpa [hb] using hi.settled hs
        done := fun h => by simp [hd] at h }
    · cases hv
  · rcases Chan.recv_eq_ok hr with ⟨_, _, -, hv, -⟩ | ⟨hb, hcl, -, rfl⟩
    · cases hv
    · exact { hi with done := fun _ => ⟨hi.closed hcl, hb⟩ }

theorem Inv.step (hi : Inv s) {a : RoutineAct A E} (h : s.step n a = some t) : Inv t := by
  cases a with
  | announced =>
    obtain ⟨hp, rfl⟩ := step_announced h
    exact hi.move (by simp [hp, RoutinePc.inSend]) (by simp [hp]) rfl rfl (by simp)
  | announceFails =>
    obtain ⟨hp, rfl⟩ := step_announceFails h
    exact hi.move (by simp [hp, RoutinePc.inSend]) (by simp [hp]) rfl rfl (by simp)
  | recvRequest a =>
    obtain ⟨⟨hp, -⟩, ⟨-, rfl⟩ | ⟨ha, rfl⟩⟩ := step_recvRequest h
    · exact hi
    · exact hi.grow (by simp [hp]) (Finset.subset_insert _ _) subset_rfl
        (hi.hardSoft.trans (Finset.subset_insert _ _)) hi.errs
        (fun b hb => by cases hb; exact ⟨Finset.mem_insert_self _ _, fun h => ha (hi.hardSoft h)⟩)
  | recvAck a =>
    obtain ⟨⟨hp, -⟩, rfl⟩ := step_recvAck h
    exact hi.grow (by simp [hp]) (Finset.subset_insert _ _) (Finset.subset_insert _ _)
      (Finset.insert_subset_insert _ hi.hardSoft)
      (hi.errs.trans (Finset.card_le_card (Finset.subset_insert _ _))) (fun _ h => by cases h)
  | recvOther => obtain ⟨-, rfl⟩ := step_recvOther h; exact hi
  | recvFails =>
    obtain ⟨⟨hp, -⟩, rfl⟩ := step_recvFails h
    exact hi.move (by simp [hp, RoutinePc.inSend]) (by simp [hp]) rfl rfl (by simp)
  | loopEnds =>
    obtain ⟨hp, rfl⟩ := step_loopEnds h
    exact hi.move (by simp [hp, RoutinePc.inSend]) (by simp [hp]) rfl rfl (by simp)
  | drain => exact hi.drain h
  | send => exact hi.send h
  | syncOk =>
    obtain ⟨a, hp, rfl⟩ := step_syncOk h
    exact hi.move (by simp [hp, RoutinePc.inSend]) (by simp [hp]) rfl rfl (by simp)
  | syncFails e =>
    obtain ⟨a, hp, rfl⟩ := step_syncFails h
    obtain ⟨has, hah⟩ := hi.pending a (by simp [hp, RoutinePc.pending])
    have herrs := hi.errs
    exact hi.grow (by simp [hp]) subset_rfl (Finset.subset_insert _ _)
      (Finset.insert_subset has hi.hardSoft)
      (by simp only [List.length_append, List.length_singleton, Finset.card_insert_of_not_mem hah]; omega)
      (fun _ h => by cases h)
  | close =>
    obtain ⟨c, hp, hc, rfl⟩ := step_close h
    obtain ⟨-, rfl⟩ := Chan.close_eq_ok hc
    exact { hi with
      pending := by simp [RoutinePc.pending]
      closed := fun _ => rfl
      sending := fun _ h => by cases h
      settled := fun _ => hi.settled (by simp [hp, RoutinePc.inSend])
      done := fun h => absurd (hi.done h).1 (by simp [hp]) }
  | consume => exact hi.consume h

theorem inv_run {trace : List (RoutineAct A E)} (h : run (step n) init trace = some s) : Inv s :=
  run_invariant Inv (fun _ _ _ hs h => hs.step h) trace inv_init h

end

/-- What `Sync` reports, over every run of `routine` against any messages from any players,
interleaved with a consumer: `sendToChannel` never waits, the counts only grow and stay
consistent, the consumer sees events in the order they were produced, and a consumer that
reads until the close gets the last event, which is the final state. -/
theorem sync_events {n : Nat} {trace : List (RoutineAct A E)} {s : Routine A E}
    (h : run (step n) init trace = some s) :
    (∀ nx, s.pc = .draining nx → ∃ t, s.step n .drain = some t) ∧
    (∀ nx, s.pc = .sending nx → ∃ t, s.step n .send = some t) ∧
    (∀ a t, s.step n a = some t → s.soft ⊆ t.soft ∧ s.hard ⊆ t.hard) ∧
    s.hard ⊆ s.soft ∧ s.hardErrs.length ≤ s.hard.card ∧
    s.received.Sublist s.produced ∧ s.received.Pairwise Event.Le ∧
    (∀ e ∈ s.received, e.hard ≤ e.soft) ∧
    (s.consumerDone = true →
      s.pc = .closed ∧ s.received.getLast? = s.produced.getLast? ∧
        ∀ e ∈ s.produced.getLast?, e = s.event) := by
  have hi := inv_run h
  have hrec : s.received.Sublist s.produced := (List.sublist_append_left _ _).trans hi.sublist
  refine ⟨fun nx hp => ?_, fun nx hp => ?_, fun _ _ => step_grows, hi.hardSoft, hi.errs, hrec,
    hi.ordered.sublist hrec, fun e he => (hi.bounded e (hrec.subset he)).1, fun hd => ?_⟩
  · simp only [step, hp]
    cases hr : s.ch.recv with
    | ok r => obtain ⟨o, c⟩ := r; exact ⟨_, rfl⟩
    | blocks => exact ⟨_, rfl⟩
    | panics => exact absurd hr (Chan.recv_ne_panics _)
  · have hsend : s.ch.send s.event = .ok { s.ch with buf := [s.event] } := by
      simp [Chan.send, hi.ch_open (by simp [hp]), hi.sending nx hp, hi.cap]
    simp only [step, hp, hsend]
    exact ⟨_, rfl⟩
  · obtain ⟨hc, hb⟩ := hi.done hd
    obtain ⟨hl, he⟩ := hi.settled (by simp [hc, RoutinePc.inSend])
    exact ⟨hc, by simpa [hb] using hl, he⟩

theorem sync_events_after_coalescing :
    ∃ s, run (step 1) (init : Routine Nat Unit)
      [.announced, .recvRequest 0, .drain, .send, .syncFails (), .drain, .drain, .send,
        .loopEnds, .close, .consume, .consume] = some s ∧
    ((∀ nx, s.pc = .draining nx → ∃ t, s.step 1 .drain = some t) ∧
    (∀ nx, s.pc = .sending nx → ∃ t, s.step 1 .send = some t) ∧
    (∀ a t, s.step 1 a = some t → s.soft ⊆ t.soft ∧ s.hard ⊆ t.hard) ∧
    s.hard ⊆ s.soft ∧ s.hardErrs.length ≤ s.hard.card ∧
    s.received.Sublist s.produced ∧ s.received.Pairwise Event.Le ∧
    (∀ e ∈ s.received, e.hard ≤ e.soft) ∧
    (s.consumerDone = true →
      s.pc = .closed ∧ s.received.getLast? = s.produced.getLast? ∧
        ∀ e ∈ s.produced.getLast?, e = s.event)) := by
  obtain ⟨s, h⟩ : ∃ s, run (step 1) (init : Routine Nat Unit)
      [.announced, .recvRequest 0, .drain, .send, .syncFails (), .drain, .drain, .send,
        .loopEnds, .close, .consume, .consume] = some s := ⟨_, rfl⟩
  exact ⟨s, h, sync_events h⟩

example : (run (step 1) (init : Routine Nat Unit)
    [.announced, .recvRequest 0, .drain, .send, .syncFails (), .drain, .drain, .send,
      .loopEnds, .close, .consume, .consume]).map (fun s => (s.produced, s.received)) =
    some ([⟨1, 0, []⟩, ⟨1, 1, [()]⟩], [⟨1, 1, [()]⟩]) := rfl

end Routine

end Dela.Blocksync
