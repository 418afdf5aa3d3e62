import Dela.Session.Send

/-!
Where each destination of a packet ends in one `sendPacket` call tree. Along the same
`PacketRun` as `sendPacket`, every destination gets one fate: pushed on the local queue,
carried by a sub-packet that a relay accepted, or failed with a value pushed on `errs`
(a void, a queue drop, a closing parent, or a refused `OnFailure`). Relays' `Ack` errors
come on top of carried destinations and name none of them.
-/
namespace Dela.Session

inductive Fate (A : Type) where
  | delivered
  | carried
  | failed (e : SendError A)

variable {A : Type} [DecidableEq A]

def Packet.mine (me : A) (p : Packet A) : List A := ((p.slice me).1.map Packet.dest).getD []

def localFates (me : A) (pkt : Packet A) (queueFails : Bool) : List (A × Fate A) :=
  (pkt.mine me).map fun d => (d, if queueFails then .failed .dropped else .delivered)

mutual
def fates (me : A) (pkt : Packet A) : PacketRun A → List (A × Fate A)
  | .mk queueFails _ routes =>
    localFates me pkt queueFails ++
      ((pkt.slice me).2.dest.diff (routes.pkts.map Packet.dest).flatten).map
        (fun d => (d, .failed (.void d))) ++
      routesFates me routes

def routesFates (me : A) : Routes A → List (A × Fate A)
  | .nil => []
  | .cons leg rest => legFates me leg ++ routesFates me rest

def legFates (me : A) : Leg A → List (A × Fate A)
  | .parent pkt (some _) => pkt.dest.map (·, .carried)
  | .parent pkt none => pkt.dest.map (·, .failed .closing)
  | .setupFailed peer pkt r => rerouteFates me peer pkt r
  | .sendFailed peer pkt r => rerouteFates me peer pkt r
  | .acked _ pkt _ => pkt.dest.map (·, .carried)

def rerouteFates (me gateway : A) (pkt : Packet A) : Reroute A → List (A × Fate A)
  | .refused => pkt.dest.map (·, .failed (.noRoute gateway))
  | .retry run => fates me pkt run
end

def Fate.Shown (me : A) (errs : List (SendError A)) : A × Fate A → Prop
  | (d, .delivered) => d = me
  | (_, .carried) => True
  | (_, .failed e) => e ∈ errs

omit [DecidableEq A] in
theorem Fate.Shown.mono {me : A} {errs errs' : List (SendError A)} (h : errs ⊆ errs') :
    ∀ {p : A × Fate A}, Fate.Shown me errs p → Fate.Shown me errs' p
  | (_, .delivered), hp => hp
  | (_, .carried), hp => hp
  | (_, .failed _), hp => h hp

theorem slice_perm (me : A) (p : Packet A) : (p.mine me ++ (p.slice me).2.dest).Perm p.dest := by
  have h := List.filter_append_perm (fun d => decide (d = me)) p.dest
  simp only [Packet.mine, Packet.slice, Bool.not_eq_eq_eq_not, Bool.not_true, decide_eq_false_iff_not]
    at h ⊢
  split
  · rename_i he
    rw [List.isEmpty_iff.mp he] at h
    simpa using h
  · simpa using h

omit [DecidableEq A] in
theorem map_fst_pairs {β : Type} (l : List A) (f : A → β) :
    (l.map fun d => (d, f d)).map Prod.fst = l := by
  simp [List.map_map, Function.comp_def]

theorem mem_mine {me d : A} {p : Packet A} (h : d ∈ p.mine me) :
    d = me ∧ (p.slice me).1.isSome := by
  simp only [Packet.mine, Packet.slice] at h ⊢
  split at h
  · simp at h
  · simp_all

theorem Splits.voided {rest : List A} {subs : List (Packet A)} {voids : List A}
    (h : Splits rest subs voids) :
    ((subs.map Packet.dest).flatten ++ rest.diff (subs.map Packet.dest).flatten).Perm rest ∧
      ∀ d ∈ rest.diff (subs.map Packet.dest).flatten, d ∈ voids := by
  obtain ⟨voided, hperm, hmem⟩ := h.cover
  have hsub : ((subs.map Packet.dest).flatten ++ rest.diff (subs.map Packet.dest).flatten).Perm rest :=
    List.subperm_append_diff_self_of_count_le fun x _ => by
      rw [hperm.count_eq, List.count_append]; omega
  refine ⟨hsub, fun d hd => (hmem d).mpr ?_⟩
  exact ((List.perm_append_left_iff _).mp (hsub.trans hperm)).subset hd

mutual
theorem fates_perm (me : A) : ∀ (pkt : Packet A) (r : PacketRun A),
    WellFormed me pkt r → ((fates me pkt r).map Prod.fst).Perm pkt.dest
  | pkt, .mk queueFails voids routes, ⟨hs, hr⟩ => by
    have hroutes := routesFates_perm me routes hr
    have hvoid := hs.voided.1
    simp only [fates, localFates, List.map_append, map_fst_pairs]
    rw [List.append_assoc]
    exact ((hroutes.append_left _).trans (List.perm_append_comm.trans hvoid)).append_left _
      |>.trans (slice_perm me pkt)

theorem routesFates_perm (me : A) : ∀ (routes : Routes A), RoutesWF me routes →
    ((routesFates me routes).map Prod.fst).Perm (routes.pkts.map Packet.dest).flatten
  | .nil, _ => by simp [routesFates, Routes.pkts]
  | .cons leg rest, ⟨hl, hr⟩ => by
    simp only [routesFates, Routes.pkts, List.map_append, List.map_cons, List.flatten_cons]
    exact (legFates_perm me leg hl).append (routesFates_perm me rest hr)

theorem legFates_perm (me : A) : ∀ (leg : Leg A), LegWF me leg →
    ((legFates me leg).map Prod.fst).Perm leg.pkt.dest
  | .parent _ (some _), _ => by simp [legFates, Leg.pkt, Function.comp_def]
  | .parent _ none, _ => by simp [legFates, Leg.pkt, Function.comp_def]
  | .setupFailed peer pkt r, h => rerouteFates_perm me peer pkt r h
  | .sendFailed peer pkt r, h => rerouteFates_perm me peer pkt r h
  | .acked _ _ _, _ => by simp [legFates, Leg.pkt, Function.comp_def]

theorem rerouteFates_perm (me gateway : A) : ∀ (pkt : Packet A) (r : Reroute A),
    RerouteWF me pkt r → ((rerouteFates me gateway pkt r).map Prod.fst).Perm pkt.dest
  | _, .refused, _ => by simp [rerouteFates, Function.comp_def]
  | pkt, .retry run, h => fates_perm me pkt run h
end

mutual
theorem fates_shown (me : A) : ∀ (pkt : Packet A) (r : PacketRun A), WellFormed me pkt r →
    ∀ p ∈ fates me pkt r, Fate.Shown me (sendPacket me pkt r).1 p
  | pkt, .mk queueFails voids routes, ⟨hs, hr⟩, p, hp => by
    simp only [fates, List.mem_append] at hp
    rcases hp with (hp | hp) | hp
    · -- the local slice
      obtain ⟨d, hd, rfl⟩ := List.mem_map.mp hp
      obtain ⟨hdme, hmine⟩ := mem_mine hd
      cases queueFails
      · exact hdme
      · simp only [Fate.Shown, ite_true, sendPacket, hmine, Bool.and_true]
        split <;> simp
    · -- a voided destination
      obtain ⟨d, hd, rfl⟩ := List.mem_map.mp hp
      have hv := hs.voided.2 d hd
      have hne : ¬(routes.isNil && voids.isEmpty) := by
        cases voids with
        | nil => simp at hv
        | cons => simp
      simp [Fate.Shown, sendPacket, hne, hv]
    · -- carried by a route, or failed further down
      have hne : ¬(routes.isNil && voids.isEmpty) := by
        cases routes with
        | nil => simp [routesFates] at hp
        | cons _ _ => simp [Routes.isNil]
      refine Fate.Shown.mono (fun e he => ?_) (routesFates_shown me routes hr p hp)
      simp [sendPacket, hne, he]

theorem routesFates_shown (me : A) : ∀ (routes : Routes A), RoutesWF me routes →
    ∀ p ∈ routesFates me routes, Fate.Shown me (sendToAll me routes) p
  | .nil, _, p, hp => by simp [routesFates] at hp
  | .cons leg rest, ⟨hl, hr⟩, p, hp => by
    simp only [routesFates, List.mem_append] at hp
    rcases hp with hp | hp
    · exact Fate.Shown.mono (by simp [sendToAll]) (legFates_shown me leg hl p hp)
    · exact Fate.Shown.mono (by simp [sendToAll]) (routesFates_shown me rest hr p hp)

theorem legFates_shown (me : A) : ∀ (leg : Leg A), LegWF me leg →
    ∀ p ∈ legFates me leg, Fate.Shown me (sendTo me leg) p
  | .parent _ (some _), _, p, hp => by
    obtain ⟨d, -, rfl⟩ := List.mem_map.mp hp; trivial
  | .parent _ none, _, p, hp => by
    obtain ⟨d, -, rfl⟩ := List.mem_map.mp hp; simp [Fate.Shown, sendTo]
  | .setupFailed peer pkt r, h, p, hp => rerouteFates_shown me peer pkt r h p hp
  | .sendFailed peer pkt r, h, p, hp => rerouteFates_shown me peer pkt r h p hp
  | .acked _ _ _, _, p, hp => by
    obtain ⟨d, -, rfl⟩ := List.mem_map.mp hp; trivial

theorem rerouteFates_shown (me gateway : A) : ∀ (pkt : Packet A) (r : Reroute A),
    RerouteWF me pkt r → ∀ p ∈ rerouteFates me gateway pkt r,
      Fate.Shown me (onFailure me gateway pkt r) p
  | _, .refused, _, p, hp => by
    obtain ⟨d, -, rfl⟩ := List.mem_map.mp hp; simp [Fate.Shown, onFailure]
  | pkt, .retry run, h, p, hp => fates_shown me pkt run h p hp
end

/-- Take a `sendPacket` call tree, with its `sendTo` legs and `onFailure` retries, where
`Forward` splits every packet it is given and every `Ack` lists at most as many errors as
its sub-packet. Each destination of the packet has exactly one fate: delivered to the
local queue (it is `me`), carried by a sub-packet that a relay accepted, or failed with a
value that the tree pushed on `errs`; none is dropped silently. And the tree pushes at
most as many values as the packet has destinations. -/
theorem destinations_accounted (me : A) (pkt : Packet A) (r : PacketRun A)
    (h : WellFormed me pkt r) :
    ((fates me pkt r).map Prod.fst).Perm pkt.dest ∧
      (∀ p ∈ fates me pkt r, Fate.Shown me (sendPacket me pkt r).1 p) ∧
      (sendPacket me pkt r).1.length ≤ pkt.dest.length :=
  ⟨fates_perm me pkt r h, fates_shown me pkt r h, sendPacket_length_le me pkt r h⟩

theorem destinations_accounted_after_retry :
    WellFormed 0 (make [0, 1, 2, 3]) (.mk false [3] (.cons (.setupFailed 1 ⟨[1, 2]⟩
      (.retry (.mk false [] (.cons (.acked 2 ⟨[1, 2]⟩ []) .nil)))) .nil)) ∧
    (((fates 0 (make [0, 1, 2, 3]) (.mk false [3] (.cons (.setupFailed 1 ⟨[1, 2]⟩
      (.retry (.mk false [] (.cons (.acked 2 ⟨[1, 2]⟩ []) .nil)))) .nil))).map Prod.fst).Perm
        (make [0, 1, 2, 3]).dest ∧
      (∀ p ∈ fates 0 (make [0, 1, 2, 3]) (.mk false [3] (.cons (.setupFailed 1 ⟨[1, 2]⟩
        (.retry (.mk false [] (.cons (.acked 2 ⟨[1, 2]⟩ []) .nil)))) .nil)),
        Fate.Shown 0 (sendPacket 0 (make [0, 1, 2, 3]) (.mk false [3] (.cons (.setupFailed 1
          ⟨[1, 2]⟩ (.retry (.mk false [] (.cons (.acked 2 ⟨[1, 2]⟩ []) .nil)))) .nil))).1 p) ∧
      (sendPacket 0 (make [0, 1, 2, 3]) (.mk false [3] (.cons (.setupFailed 1 ⟨[1, 2]⟩
        (.retry (.mk false [] (.cons (.acked 2 ⟨[1, 2]⟩ []) .nil)))) .nil))).1.length ≤
        (make [0, 1, 2, 3]).dest.length) := by
  have hwf : WellFormed 0 (make [0, 1, 2, 3]) (.mk false [3] (.cons (.setupFailed 1 ⟨[1, 2]⟩
      (.retry (.mk false [] (.cons (.acked 2 ⟨[1, 2]⟩ []) .nil)))) .nil)) :=
    ⟨⟨by simp [Routes.pkts, Leg.pkt], by simp, ⟨[3], .refl _, by simp⟩⟩,
      ⟨⟨⟨by simp [Routes.pkts, Leg.pkt], by simp, ⟨[], .refl _, by simp⟩⟩, by simp [LegWF], trivial⟩,
        trivial⟩⟩
  exact ⟨hwf, destinations_accounted _ _ _ hwf⟩

end Dela.Session
