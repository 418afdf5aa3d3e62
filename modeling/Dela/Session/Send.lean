import Dela.ForkJoin
import Mathlib.Data.List.Perm.Subperm
import Mathlib.Algebra.Order.Ring.Nat

/-!
The send path of a session: `Send`, `RecvPacket`, `sendPacket`, `sendTo` and
`onFailure` of mino/minogrpc/session. The routing table, the receive queue and
the relays are collaborators: a `PacketRun` records what they answered during
one `sendPacket` call, with the run of every `sendTo` leg and of every retry
`onFailure` starts, so a run is the whole call tree. The functions compute
what the session pushes on the call's `errs` channel, in program order; the `Proc`
versions give the goroutines that push them (`sendPacket` starts one `sendTo` goroutine
per route and joins them with `wg.Wait()`), whose schedules push them in every order.
-/
namespace Dela.Session

structure Packet (A : Type) where
  dest : List A

variable {A : Type} [DecidableEq A]

def Packet.slice (me : A) (p : Packet A) : Option (Packet A) × Packet A :=
  let mine := p.dest.filter (· = me)
  (if mine.isEmpty then none else some ⟨mine⟩, ⟨p.dest.filter (· ≠ me)⟩)

def make (addrs : List A) : Packet A := ⟨addrs⟩

inductive SendError (A : Type) where
  /-- `failed to serialize msg: %v` -/
  | serialize
  /-- `%v dropped the packet: %v`: the receive queue refused the local slice -/
  | dropped
  /-- `no route to %v: %v`: a void of `Forward` -/
  | void (peer : A)
  /-- `session %v is closing: %v`: the parent relay failed -/
  | closing
  /-- an error listed by a relay's `Ack` -/
  | ack (text : String)
  /-- `no route to %v: %v`: the table's `OnFailure` found no other route -/
  | noRoute (gateway : A)
  /-- `packet ignored`: no parent took the packet -/
  | ignored

mutual
inductive PacketRun (A : Type) where
  | mk (queueFails : Bool) (voids : List A) (routes : Routes A)
inductive Routes (A : Type) where
  | nil
  | cons (leg : Leg A) (rest : Routes A)
inductive Leg (A : Type) where
  | parent (pkt : Packet A) (ack : Option (List String))
  | setupFailed (peer : A) (pkt : Packet A) (reroute : Reroute A)
  | sendFailed (peer : A) (pkt : Packet A) (reroute : Reroute A)
  | acked (peer : A) (pkt : Packet A) (errors : List String)
inductive Reroute (A : Type) where
  | refused
  | retry (run : PacketRun A)
end

def Routes.isNil : Routes A → Bool
  | .nil => true
  | .cons _ _ => false

def Leg.pkt : Leg A → Packet A
  | .parent p _ | .setupFailed _ p _ | .sendFailed _ p _ | .acked _ p _ => p

def Routes.pkts : Routes A → List (Packet A)
  | .nil => []
  | .cons leg rest => leg.pkt :: rest.pkts

mutual
def sendPacket (me : A) (pkt : Packet A) : PacketRun A → List (SendError A) × Bool
  | .mk queueFails voids routes =>
    let mine := (pkt.slice me).1
    let dropped := if mine.isSome && queueFails then [SendError.dropped] else []
    if routes.isNil && voids.isEmpty then (dropped, mine.isSome)
    else (dropped ++ voids.map .void ++ sendToAll me routes, true)

def sendToAll (me : A) : Routes A → List (SendError A)
  | .nil => []
  | .cons leg rest => sendTo me leg ++ sendToAll me rest

def sendTo (me : A) : Leg A → List (SendError A)
  | .parent _ (some errors) => errors.map .ack
  | .parent _ none => [.closing]
  | .setupFailed peer pkt r => onFailure me peer pkt r
  | .sendFailed peer pkt r => onFailure me peer pkt r
  | .acked _ _ errors => errors.map .ack

def onFailure (me gateway : A) (pkt : Packet A) : Reroute A → List (SendError A)
  | .refused => [.noRoute gateway]
  | .retry run => (sendPacket me pkt run).1
end

def sendToParents (me : A) (pkt : Packet A) : List (PacketRun A) → List (SendError A)
  | [] => [.ignored]
  | run :: rest =>
    if (sendPacket me pkt run).2 then (sendPacket me pkt run).1
    else (sendPacket me pkt run).1 ++ sendToParents me pkt rest

def send (me : A) (addrs : List A) (serialized : Bool) (runs : List (PacketRun A)) :
    List (SendError A) :=
  if serialized then sendToParents me (make addrs) runs else [.serialize]

mutual
def sendPacketProc (me : A) (pkt : Packet A) : PacketRun A → Proc (SendError A)
  | .mk queueFails voids routes =>
    let mine := (pkt.slice me).1
    let dropped := if mine.isSome && queueFails then [SendError.dropped] else []
    if routes.isNil && voids.isEmpty then .pushes dropped .done
    else .pushes (dropped ++ voids.map .void) (.forkJoin (sendToProcs me routes) .done)

def sendToProcs (me : A) : Routes A → Procs (SendError A)
  | .nil => .nil
  | .cons leg rest => .cons (sendToProc me leg) (sendToProcs me rest)

def sendToProc (me : A) : Leg A → Proc (SendError A)
  | .parent _ (some errors) => .pushes (errors.map .ack) .done
  | .parent _ none => .push .closing .done
  | .setupFailed peer pkt r => onFailureProc me peer pkt r
  | .sendFailed peer pkt r => onFailureProc me peer pkt r
  | .acked _ _ errors => .pushes (errors.map .ack) .done

def onFailureProc (me gateway : A) (pkt : Packet A) : Reroute A → Proc (SendError A)
  | .refused => .push (.noRoute gateway) .done
  | .retry run => sendPacketProc me pkt run
end

def sendToParentsProc (me : A) (pkt : Packet A) : List (PacketRun A) → Proc (SendError A)
  | [] => .push .ignored .done
  | run :: rest =>
    if (sendPacket me pkt run).2 then sendPacketProc me pkt run
    else (sendPacketProc me pkt run).seq (sendToParentsProc me pkt rest)

def sendProc (me : A) (addrs : List A) (serialized : Bool) (runs : List (PacketRun A)) :
    Proc (SendError A) :=
  (if serialized then sendToParentsProc me (make addrs) runs else .push .serialize .done).seq
    (.close .done)

def recvPacketProc (me : A) (pkt : Packet A) (run : PacketRun A) : Proc (SendError A) :=
  (sendPacketProc me pkt run).seq (.close .done)

def recvPacket (me : A) (pkt : Packet A) : List (PacketRun A) → Option (List (SendError A))
  | [] => none
  | run :: rest =>
    if (sendPacket me pkt run).2 then some (sendPacket me pkt run).1 else recvPacket me pkt rest

/-- What `p.table.Forward(pkt)` answers, as `sendPacket` relies on it: no route's packet is
empty, no address is voided twice, and the routes' packets and the voided addresses together
split the destinations left after the node's own. -/
structure Splits (rest : List A) (subs : List (Packet A)) (voids : List A) : Prop where
  nonempty : ∀ p ∈ subs, p.dest ≠ []
  keys : voids.Nodup
  cover : ∃ voided, rest.Perm ((subs.map Packet.dest).flatten ++ voided) ∧
    ∀ a, a ∈ voids ↔ a ∈ voided

mutual
def WellFormed (me : A) (pkt : Packet A) : PacketRun A → Prop
  | .mk _ voids routes => Splits (pkt.slice me).2.dest routes.pkts voids ∧ RoutesWF me routes

def RoutesWF (me : A) : Routes A → Prop
  | .nil => True
  | .cons leg rest => LegWF me leg ∧ RoutesWF me rest

def LegWF (me : A) : Leg A → Prop
  | .parent pkt ack => ∀ errors ∈ ack, errors.length ≤ pkt.dest.length
  | .setupFailed _ pkt r => RerouteWF me pkt r
  | .sendFailed _ pkt r => RerouteWF me pkt r
  | .acked _ pkt errors => errors.length ≤ pkt.dest.length

def RerouteWF (me : A) (pkt : Packet A) : Reroute A → Prop
  | .refused => True
  | .retry run => WellFormed me pkt run
end

theorem slice_length (me : A) (p : Packet A) :
    (if (p.slice me).1.isSome then 1 else 0) + (p.slice me).2.dest.length ≤ p.dest.length := by
  have h := List.length_eq_length_filter_add (l := p.dest) (fun d => decide (d = me))
  simp only [Packet.slice, decide_not] at h ⊢
  split
  · simp only [Option.isSome_none, Bool.false_eq_true, ite_false]
    omega
  · rename_i he
    have := List.length_pos.mpr (by simpa using he : (p.dest.filter fun d => decide (d = me)) ≠ [])
    simp only [Option.isSome_some, ite_true]
    omega

omit [DecidableEq A] in
theorem Splits.length_le {rest : List A} {subs : List (Packet A)} {voids : List A}
    (h : Splits rest subs voids) :
    voids.length + (subs.map fun p => p.dest.length).sum ≤ rest.length := by
  obtain ⟨voided, hperm, hmem⟩ := h.cover
  have hv : voids.length ≤ voided.length :=
    (h.keys.subperm fun a ha => (hmem a).mp ha).length_le
  rw [hperm.length_eq]
  simp only [List.length_append, List.length_flatten, List.map_map]
  exact Nat.add_comm _ _ ▸ Nat.add_le_add_left hv _

mutual
theorem sendPacket_length_le (me : A) : ∀ (pkt : Packet A) (r : PacketRun A),
    WellFormed me pkt r → (sendPacket me pkt r).1.length ≤ pkt.dest.length
  | pkt, .mk queueFails voids routes, ⟨hs, hr⟩ => by
    have hslice := slice_length me pkt
    have hsplit := hs.length_le
    have hlegs := sendToAll_length_le me routes hr hs.nonempty
    have hdrop : (if (pkt.slice me).1.isSome && queueFails then [SendError.dropped (A := A)] else []).length
        ≤ if (pkt.slice me).1.isSome then 1 else 0 := by
      cases (pkt.slice me).1.isSome <;> cases queueFails <;> simp
    simp only [sendPacket]
    split <;> simp only [List.length_append, List.length_map] <;> omega

theorem sendToAll_length_le (me : A) : ∀ (routes : Routes A), RoutesWF me routes →
    (∀ p ∈ routes.pkts, p.dest ≠ []) →
    (sendToAll me routes).length ≤ (routes.pkts.map fun p => p.dest.length).sum
  | .nil, _, _ => by simp [sendToAll]
  | .cons leg rest, ⟨hl, hr⟩, hne => by
    have h1 := sendTo_length_le me leg hl (hne _ (List.mem_cons_self _ _))
    have h2 := sendToAll_length_le me rest hr fun p hp => hne p (List.mem_cons_of_mem _ hp)
    simp only [sendToAll, Routes.pkts, List.length_append, List.map_cons, List.sum_cons]
    omega

theorem sendTo_length_le (me : A) : ∀ (leg : Leg A), LegWF me leg → leg.pkt.dest ≠ [] →
    (sendTo me leg).length ≤ leg.pkt.dest.length
  | .parent _ (some errors), h, _ => by simpa [sendTo] using h errors rfl
  | .parent _ none, _, hne => by simpa [sendTo, Leg.pkt] using List.length_pos.mpr hne
  | .setupFailed peer pkt r, h, hne => onFailure_length_le me peer pkt r h hne
  | .sendFailed peer pkt r, h, hne => onFailure_length_le me peer pkt r h hne
  | .acked _ _ errors, h, _ => by simpa [sendTo] using h

theorem onFailure_length_le (me gateway : A) : ∀ (pkt : Packet A) (r : Reroute A),
    RerouteWF me pkt r → pkt.dest ≠ [] → (onFailure me gateway pkt r).length ≤ pkt.dest.length
  | _, .refused, _, hne => by simpa [onFailure] using List.length_pos.mpr hne
  | pkt, .retry run, h, _ => sendPacket_length_le me pkt run h
end

theorem sendPacket_not_sent (me : A) (pkt : Packet A) (r : PacketRun A)
    (h : (sendPacket me pkt r).2 = false) : (sendPacket me pkt r).1 = [] := by
  obtain ⟨queueFails, voids, routes⟩ := r
  simp only [sendPacket] at h ⊢
  split at h
  · rename_i hnil
    cases hs : (pkt.slice me).1.isSome <;> simp_all
  · simp at h

theorem sendToParents_length_le (me : A) (pkt : Packet A) (runs : List (PacketRun A))
    (h : ∀ r ∈ runs, WellFormed me pkt r) :
    (sendToParents me pkt runs).length ≤ pkt.dest.length + 1 := by
  induction runs with
  | nil => simp [sendToParents]
  | cons r rest ih =>
    have hr := sendPacket_length_le me pkt r (h r (List.mem_cons_self _ _))
    have hrest := ih fun r' hr' => h r' (List.mem_cons_of_mem _ hr')
    simp only [sendToParents]
    cases hs : (sendPacket me pkt r).2
    · simp [sendPacket_not_sent me pkt r hs, hrest]
    · simp only [ite_true]; omega

theorem send_length_le (me : A) (addrs : List A) (serialized : Bool) (runs : List (PacketRun A))
    (h : ∀ r ∈ runs, WellFormed me (make addrs) r) :
    (send me addrs serialized runs).length ≤ addrs.length + 1 := by
  unfold send
  split
  · exact sendToParents_length_le me (make addrs) runs h
  · simp

mutual
theorem sendPacketProc_turns (me : A) : ∀ (pkt : Packet A) (r : PacketRun A),
    (sendPacketProc me pkt r).turns = (sendPacket me pkt r).1.map .send
  | pkt, .mk queueFails voids routes => by
    simp only [sendPacketProc, sendPacket]
    split <;> simp [Proc.turns, sendToProcs_turns me routes]

theorem sendToProcs_turns (me : A) : ∀ routes : Routes A,
    (sendToProcs me routes).turns = (sendToAll me routes).map .send
  | .nil => rfl
  | .cons leg rest => by
    simp [sendToProcs, sendToAll, Procs.turns, sendToProc_turns me leg, sendToProcs_turns me rest]

theorem sendToProc_turns (me : A) : ∀ leg : Leg A,
    (sendToProc me leg).turns = (sendTo me leg).map .send
  | .parent _ (some _) | .acked _ _ _ => by simp [sendToProc, sendTo, Proc.turns]
  | .parent _ none => rfl
  | .setupFailed peer pkt r | .sendFailed peer pkt r => onFailureProc_turns me peer pkt r

theorem onFailureProc_turns (me gateway : A) : ∀ (pkt : Packet A) (r : Reroute A),
    (onFailureProc me gateway pkt r).turns = (onFailure me gateway pkt r).map .send
  | _, .refused => rfl
  | pkt, .retry run => sendPacketProc_turns me pkt run
end

theorem sendToParentsProc_turns (me : A) (pkt : Packet A) (runs : List (PacketRun A)) :
    (sendToParentsProc me pkt runs).turns = (sendToParents me pkt runs).map .send := by
  induction runs with
  | nil => rfl
  | cons r rest ih =>
    simp only [sendToParentsProc, sendToParents]
    split <;> simp [sendPacketProc_turns, ih]

/-- On every schedule of the goroutines of a `Send` call, and of each per-parent
`sendPacket` of `RecvPacket`, the pushes on `errs` are those of the call tree, each
before the one close, and there are never more than the channel's capacity:
`len(addrs)+1` for `Send`, and the packet's number of destinations for `RecvPacket`.
Hence no push blocks, whatever the consumers read, and the goroutine runs to its end
(its deferred close and `RUnlock`). -/
theorem send_errs_within_capacity (me : A) (addrs : List A) (serialized : Bool)
    (runs : List (PacketRun A)) (pkt : Packet A) (recvRuns : List (PacketRun A))
    (hruns : ∀ r ∈ runs, WellFormed me (make addrs) r)
    (hrecv : ∀ r ∈ recvRuns, WellFormed me pkt r) :
    (∀ ts : List (Chan.Turn (SendError A)),
      (sendProc me addrs serialized runs).Runs (ts.filter Chan.Turn.byProducer) →
      (∃ errs : List (SendError A), errs.Perm (send me addrs serialized runs) ∧
        ts.filter Chan.Turn.byProducer = errs.map .send ++ [.close]) ∧
      ∃ c, (Chan.make (addrs.length + 1)).exec ts = .ok c ∧ c.closed = true) ∧
    (∀ r ∈ recvRuns, ∀ ts : List (Chan.Turn (SendError A)),
      (recvPacketProc me pkt r).Runs (ts.filter Chan.Turn.byProducer) →
      (∃ errs : List (SendError A), errs.Perm (sendPacket me pkt r).1 ∧
        ts.filter Chan.Turn.byProducer = errs.map .send ++ [.close]) ∧
      ∃ c, (Chan.make pkt.dest.length).exec ts = .ok c ∧ c.closed = true) := by
  refine ⟨fun ts => Proc.runs_seq_close_exec ?_ (send_length_le me addrs serialized runs hruns),
    fun r hr ts => Proc.runs_seq_close_exec (sendPacketProc_turns me pkt r)
      (sendPacket_length_le me pkt r (hrecv r hr))⟩
  unfold send; split <;> simp [sendToParentsProc_turns, Proc.turns]

theorem send_errs_within_capacity_routed_and_voided :
    WellFormed 0 (make [0, 1, 2]) (.mk false [2] (.cons (.acked 1 ⟨[1]⟩ []) .nil)) ∧
    ((∀ ts : List (Chan.Turn (SendError Nat)),
      (sendProc 0 [0, 1, 2] true [.mk false [2] (.cons (.acked 1 ⟨[1]⟩ []) .nil)]).Runs
        (ts.filter Chan.Turn.byProducer) →
      (∃ errs : List (SendError Nat), errs.Perm (send 0 [0, 1, 2] true [.mk false [2] (.cons (.acked 1 ⟨[1]⟩ []) .nil)]) ∧
        ts.filter Chan.Turn.byProducer = errs.map .send ++ [.close]) ∧
      ∃ c, (Chan.make ([0, 1, 2].length + 1)).exec ts = .ok c ∧ c.closed = true) ∧
    (∀ r ∈ [PacketRun.mk false [2] (.cons (.acked 1 ⟨[1]⟩ []) .nil)],
      ∀ ts : List (Chan.Turn (SendError Nat)),
      (recvPacketProc 0 (make [0, 1, 2]) r).Runs (ts.filter Chan.Turn.byProducer) →
      (∃ errs : List (SendError Nat), errs.Perm (sendPacket 0 (make [0, 1, 2]) r).1 ∧
        ts.filter Chan.Turn.byProducer = errs.map .send ++ [.close]) ∧
      ∃ c, (Chan.make (make [0, 1, 2]).dest.length).exec ts = .ok c ∧ c.closed = true)) := by
  have hwf : WellFormed 0 (make [0, 1, 2]) (.mk false [2] (.cons (.acked 1 ⟨[1]⟩ []) .nil)) :=
    ⟨⟨by simp [Routes.pkts, Leg.pkt], by simp, ⟨[2], .refl _, by simp⟩⟩, by simp [RoutesWF, LegWF]⟩
  exact ⟨hwf, send_errs_within_capacity 0 [0, 1, 2] true _ (make [0, 1, 2]) _
    (by simpa using hwf) (by simpa using hwf)⟩

omit [DecidableEq A] in
theorem Splits.nonempty_of {rest : List A} {subs : List (Packet A)} {voids : List A}
    (h : Splits rest subs voids) (hne : rest ≠ []) : subs ≠ [] ∨ voids ≠ [] := by
  obtain ⟨voided, hperm, hmem⟩ := h.cover
  by_contra hc
  push_neg at hc
  obtain ⟨rfl, rfl⟩ := hc
  have : voided = [] := List.eq_nil_iff_forall_not_mem.mpr fun a ha => by simpa using (hmem a).mpr ha
  subst this
  exact hne (by simpa using hperm)

theorem slice_rest_of_none {me : A} {p : Packet A} (h : (p.slice me).1.isSome = false) :
    (p.slice me).2.dest = p.dest := by
  simp only [Packet.slice] at h ⊢
  split at h
  · rename_i he
    rw [List.filter_eq_self]
    intro a ha
    have := List.isEmpty_iff.mp he
    simp only [List.filter_eq_nil_iff, decide_eq_true_eq] at this
    simpa using this a ha
  · cases h

theorem sendPacket_taken (me : A) (pkt : Packet A) (r : PacketRun A) (hwf : WellFormed me pkt r)
    (hne : pkt.dest ≠ []) : (sendPacket me pkt r).2 = true := by
  obtain ⟨queueFails, voids, routes⟩ := r
  obtain ⟨hs, -⟩ := hwf
  simp only [sendPacket]
  split
  · rename_i hnil
    cases hmine : (pkt.slice me).1.isSome
    · have := hs.nonempty_of (by rw [slice_rest_of_none hmine]; exact hne)
      cases routes <;> simp_all [Routes.isNil, Routes.pkts]
    · rfl
  · rfl

/-- The first parent in map order takes every packet that has a destination: `RecvPacket`
acks with the errors of that parent's call tree and `Send` pushes exactly those, so
"packet is dropped" and "packet ignored" come only from a session without parents or a
packet without destinations. -/
theorem first_parent_takes (me : A) (addrs : List A) (r : PacketRun A) (rs : List (PacketRun A))
    (hwf : WellFormed me (make addrs) r) (hne : addrs ≠ []) :
    recvPacket me (make addrs) (r :: rs) = some (sendPacket me (make addrs) r).1 ∧
      send me addrs true (r :: rs) = (sendPacket me (make addrs) r).1 := by
  have ht := sendPacket_taken me (make addrs) r hwf hne
  exact ⟨by rw [recvPacket, if_pos ht], by rw [send, if_pos rfl, sendToParents, if_pos ht]⟩

theorem first_parent_takes_routed_and_voided :
    WellFormed 0 (make [0, 1, 2]) (.mk false [2] (.cons (.acked 1 ⟨[1]⟩ []) .nil)) ∧ [0, 1, 2] ≠ [] ∧
      (recvPacket 0 (make [0, 1, 2]) [.mk false [2] (.cons (.acked 1 ⟨[1]⟩ []) .nil)] =
          some (sendPacket 0 (make [0, 1, 2]) (.mk false [2] (.cons (.acked 1 ⟨[1]⟩ []) .nil))).1 ∧
        send 0 [0, 1, 2] true [.mk false [2] (.cons (.acked 1 ⟨[1]⟩ []) .nil)] =
          (sendPacket 0 (make [0, 1, 2]) (.mk false [2] (.cons (.acked 1 ⟨[1]⟩ []) .nil))).1) := by
  have hwf : WellFormed 0 (make [0, 1, 2]) (.mk false [2] (.cons (.acked 1 ⟨[1]⟩ []) .nil)) :=
    ⟨⟨by simp [Routes.pkts, Leg.pkt], by simp, ⟨[2], .refl _, by simp⟩⟩, by simp [RoutesWF, LegWF]⟩
  exact ⟨hwf, by simp, first_parent_takes 0 [0, 1, 2] _ [] hwf (by simp)⟩

end Dela.Session
