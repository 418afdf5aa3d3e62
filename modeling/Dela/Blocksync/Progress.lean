import Dela.Blocksync.Sync

/-!
Progress of block synchronisation when nothing fails: `syncNode` gets every block it asks
for and every reply it sends goes through, and the participant's `Recv` and `Send`
succeed. Messages still arrive in any interleaving, other orchestrators' sessions run
beside, and the orchestrators' stores may grow; the participant's store has no writer but
`CatchUp`, as in `System`. Then nothing deadlocks: the catch-up lock
is only ever held by an invocation that its orchestrator keeps serving, so from every
state such runs reach, more such steps bring any sessions to their end.
-/
namespace Dela.Blocksync

def SyncAct.faultFree : SyncAct → Bool
  | .orchSendFails _ | .peer (.fail _) => false
  | _ => true

def StreamAct.invocation : StreamAct → Option Nat
  | .recv k _ | .compare k | .lock k | .load k | .storeLatest k | .request k | .loopEnd k
  | .ack k | .fail k => some k
  | .commit | .getLatest _ => none

def SyncAct.session : SyncAct → Option Nat
  | .start k | .grow k | .orchRecv k | .orchSend k | .orchSendFails k => some k
  | .peer act => act.invocation

namespace Session

variable (o : Session) (msg : Msg)

@[simp] theorem handle_toPeer : (o.handle msg).toPeer = o.toPeer := by
  cases msg <;> simp only [handle]
  split <;> rfl

@[simp] theorem handle_toOrch : (o.handle msg).toOrch = o.toOrch := by
  cases msg <;> simp only [handle]
  split <;> rfl

@[simp] theorem handle_chain : (o.handle msg).chain = o.chain := by
  cases msg <;> simp only [handle]
  split <;> rfl

theorem handle_hard : (o.handle msg).hard = true ↔ o.hard = true ∨ msg = .ack := by
  cases msg <;> simp only [handle] <;> (try split) <;> simp

theorem hard_or_ack {rest : List Msg} (h : o.hard = true ∨ .ack ∈ msg :: rest) :
    ({ o with toOrch := rest }.handle msg).hard = true ∨ .ack ∈ rest := by
  rw [handle_hard, List.mem_cons] at *
  rcases h with h | rfl | h
  · exact .inl (.inl h)
  · exact .inl (.inr rfl)
  · exact .inr h

end Session

def Ready (len : Nat) (o : Session) : StreamPc → Prop
  | .waiting => ∀ m, .announce m ∈ o.toPeer → m ≤ o.chain
  | .announced m | .locking m | .locked m | .storing m | .requesting m => m ≤ o.chain
  | .catching m =>
    m ≤ o.chain ∧ (o.soft = true → o.syncing = none → m ≤ len + o.toPeer.length)
  | .acking _ _ => True
  | .returned => o.hard = true ∨ .ack ∈ o.toOrch

structure Live (len0 : Nat) (s : System) : Prop where
  synced : Synced len0 s
  ready : ∀ k, Ready s.peer.len (s.sessions k) (s.peer.streams k)

section
variable {len : Nat} {o : Session} {pc : StreamPc}

theorem ready_len {len' : Nat} (hpc : ∀ m, pc ≠ .catching m) (h : Ready len o pc) :
    Ready len' o pc := by
  cases pc with
  | catching m => exact absurd rfl (hpc m)
  | _ => exact h

theorem ready_more {o' : Session} (hchain : o.chain ≤ o'.chain)
    (hpeer : o.toPeer.length ≤ o'.toPeer.length)
    (hann : ∀ m, .announce m ∈ o'.toPeer → .announce m ∈ o.toPeer ∨ m ≤ o'.chain)
    (hsoft : o'.soft = o.soft) (hsy : o'.syncing = o.syncing) (hhard : o'.hard = o.hard)
    (horch : o'.toOrch = o.toOrch) (h : Ready len o pc) : Ready len o' pc := by
  cases pc with
  | waiting => exact fun m hm => (hann m hm).elim (fun hm => (h m hm).trans hchain) id
  | announced | locking | locked | storing | requesting => exact Nat.le_trans h hchain
  | catching m =>
    refine ⟨h.1.trans hchain, fun hs hy => (h.2 (hsoft ▸ hs) (hsy ▸ hy)).trans ?_⟩
    omega
  | acking => trivial
  | returned =>
    simp only [Ready] at h ⊢
    rwa [hhard, horch]

end

theorem ready_orchRecv {msg : Msg} {rest : List Msg} (ho : o.toOrch = msg :: rest)
    (hag : Agrees len o pc) (h : Ready len o pc) :
    Ready len ({ o with toOrch := rest }.handle msg) pc := by
  cases pc with
  | waiting | announced | locking | locked | storing | requesting => simpa [Ready] using h
  | catching m =>
    obtain ⟨-, ⟨hto, -, hsoft, -⟩ | ⟨hto, -⟩⟩ := hag
    · rw [hto, List.cons.injEq] at ho
      obtain ⟨rfl, rfl⟩ := ho
      exact ⟨by simpa using h.1, fun _ hy => by simp [Session.handle, hsoft] at hy⟩
    · simp [hto] at ho
  | acking => trivial
  | returned =>
    simp only [Ready, Session.handle_toOrch] at h ⊢
    exact Session.hard_or_ack _ _ (ho ▸ h)

theorem ready_orchSend {i : Nat} (hs : o.syncing = some i) (hag : Agrees len o pc)
    (h : Ready len o pc) :
    Ready len (if i < o.chain then
      { o with toPeer := o.toPeer ++ [.reply i], syncing := some (i + 1) }
      else { o with syncing := none }) pc := by
  cases pc with
  | waiting => simp [Agrees, hs] at hag
  | announced | locking | locked | storing | requesting => simp [Agrees, Session.Quiet, hs] at hag
  | catching m =>
    obtain ⟨-, ⟨-, hsy, -⟩ | ⟨-, -, j, hpeer, hsy⟩⟩ := hag
    · simp [hs] at hsy
    · have hi : i = len + j := by simpa [hs] using hsy
      split
      · exact ⟨h.1, fun _ hy => by simp at hy⟩
      · refine ⟨h.1, fun _ _ => ?_⟩
        have := h.1
        simp only [hpeer, List.length_map, List.length_range']
        omega
  | acking => trivial
  | returned => split <;> exact h

section
variable {len0 : Nat}

theorem Synced.catching_head {s : System} (hs : Synced len0 s) {k m : Nat} {msg : Msg}
    {rest : List Msg} (hk : s.peer.streams k = .catching m)
    (hq : (s.sessions k).toPeer = msg :: rest) : msg = .reply s.peer.len := by
  have hag := hs.agrees k
  rw [hk] at hag
  obtain ⟨-, ⟨-, -, -, hto⟩ | ⟨-, -, j, hto, -⟩⟩ := hag
  · rw [hto] at hq; cases hq
  · rw [hto] at hq
    cases j with
    | zero => cases hq
    | succ j =>
      simp only [List.range'_succ, List.map_cons, List.cons.injEq] at hq
      exact hq.1.symm

theorem Live.frame {s t : System} (hs : Live len0 s) (ht : Synced len0 t) {k : Nat}
    (hsess : ∀ j, j ≠ k → t.sessions j = s.sessions j)
    (hstreams : ∀ j, j ≠ k → t.peer.streams j = s.peer.streams j)
    (hlen : t.peer.len = s.peer.len ∨ (s.peer.streams k).holdsLock)
    (hk : Ready t.peer.len (t.sessions k) (t.peer.streams k)) : Live len0 t where
  synced := ht
  ready j := by
    by_cases hj : j = k
    · subst hj; exact hk
    · rw [hsess j hj, hstreams j hj]
      rcases hlen with hl | hl
      · rw [hl]; exact hs.ready j
      · refine ready_len (fun m hm => hj (hs.synced.peer.lock_unique ?_ hl)) (hs.ready j)
        simp [hm, StreamPc.holdsLock]

theorem Live.peerMove {s t : System} (hs : Live len0 s) (ht : Synced len0 t) {k : Nat}
    (pc : StreamPc) (hsess : t.sessions = s.sessions)
    (hstreams : t.peer.streams = Function.update s.peer.streams k pc)
    (hlen : t.peer.len = s.peer.len) (hk : Ready s.peer.len (s.sessions k) pc) : Live len0 t :=
  hs.frame ht (fun _ _ => by rw [hsess]) (fun j hj => by rw [hstreams, Function.update_noteq hj])
    (.inl hlen) (by rw [hsess, hstreams, hlen, Function.update_same]; exact hk)

theorem Live.step {s t : System} (hs : Live len0 s) {a : SyncAct} (ha : a.faultFree = true)
    (h : s.step a = some t) : Live len0 t := by
  have ht := hs.synced.step h
  have frame : ∀ {k : Nat} {o : Session}, t = s.setSession k o →
      Ready s.peer.len o (s.peer.streams k) → Live len0 t := by
    rintro k o rfl hk
    exact hs.frame (k := k) ht (fun j hj => by simp [Function.update_noteq hj]) (fun _ _ => rfl)
      (.inl rfl) (by simpa using hk)
  cases a with
  | start k =>
    obtain ⟨-, rfl⟩ := System.step_start h
    refine frame rfl (ready_more (o := s.sessions k) le_rfl (by simp) (fun m hm => ?_)
      rfl rfl rfl rfl (hs.ready k))
    simp only [List.mem_append, List.mem_singleton, Msg.announce.injEq] at hm
    exact hm.imp_right le_of_eq
  | grow k =>
    cases h
    exact frame rfl (ready_more (o := s.sessions k) (Nat.le_succ _) le_rfl (fun m hm => .inl hm)
      rfl rfl rfl rfl (hs.ready k))
  | orchRecv k =>
    obtain ⟨msg, rest, -, hto, rfl⟩ := System.step_orchRecv h
    exact frame rfl (ready_orchRecv hto (hs.synced.agrees k) (hs.ready k))
  | orchSend k =>
    obtain ⟨i, hsy, rfl⟩ := System.step_orchSend h
    exact frame rfl (ready_orchSend hsy (hs.synced.agrees k) (hs.ready k))
  | orchSendFails k => cases ha
  | peer act =>
    cases act with
    | recv k msg =>
      obtain ⟨rest, hq, hp, hsess⟩ := System.step_recv h
      have hr := hs.ready k
      have hag := hs.synced.agrees k
      have hsess' : ∀ j, j ≠ k → t.sessions j = s.sessions j := fun j hj => by
        rw [hsess, Function.update_noteq hj]
      rcases Participant.step_recv hp with ⟨m, hk, rfl, hpeer⟩ | ⟨hk, -, hpeer⟩ |
        ⟨m, i, hk, rfl, -, hpeer⟩ | ⟨m, hk, hne, -, -⟩
      · rw [hk] at hr
        refine hs.frame ht hsess' (fun j hj => by simp [hpeer, Function.update_noteq hj])
          (.inl (by rw [hpeer]; rfl)) ?_
        simpa [hpeer, hsess, Ready] using hr _ (by simp [hq])
      · rw [hk] at hr
        refine hs.frame ht hsess' (fun j _ => by rw [hpeer]) (.inl (by rw [hpeer])) ?_
        rw [hpeer, hsess, hk, Function.update_same]
        exact fun m hm => hr m (by simp [hq, hm])
      · obtain rfl : i = s.peer.len := Msg.reply.inj (hs.synced.catching_head hk hq)
        rw [hk] at hr
        have hlock : (s.peer.streams k).holdsLock := by simp [hk, StreamPc.holdsLock]
        refine hs.frame ht hsess' (fun j hj => by simp [hpeer, Participant.catchUp_len])
          (.inr hlock) ?_
        rw [hpeer, hsess, Participant.catchUp_len, Function.update_same]
        dsimp only
        rw [hk]
        refine ⟨hr.1, fun hsoft hsy => ?_⟩
        have := hr.2 hsoft hsy
        rw [hq, List.length_cons] at this
        dsimp only
        omega
      · exact absurd (hs.synced.catching_head hk hq) (hne _)
    | request k =>
      obtain ⟨hp, hsess⟩ := System.step_peerSends h
      obtain ⟨m, hk, hpeer⟩ := Participant.step_request hp
      have hr := hs.ready k
      have hq : (s.sessions k).Quiet := by simpa [hk, Agrees] using hs.synced.agrees k
      rw [hk] at hr
      refine hs.frame ht (fun j hj => by rw [hsess, Function.update_noteq hj])
        (fun j hj => by simp [hpeer, Function.update_noteq hj]) (.inl (by rw [hpeer]; rfl)) ?_
      rw [hpeer, hsess]
      simp only [Participant.setPc_streams, Function.update_same, Participant.setPc_len]
      exact ⟨hr, fun hsoft => by simp [hq.2.2.2.1] at hsoft⟩
    | ack k =>
      obtain ⟨hp, hsess⟩ := System.step_peerSends h
      obtain ⟨-, -, -, hpeer⟩ := Participant.step_ack hp
      refine hs.frame ht (fun j hj => by rw [hsess, Function.update_noteq hj])
        (fun j hj => by simp [hpeer, Function.update_noteq hj]) (.inl (by rw [hpeer]; rfl)) ?_
      rw [hpeer, hsess]
      simp [Ready]
    | commit => cases h
    | compare k =>
      obtain ⟨hp, hsess⟩ := System.step_alone h
      obtain ⟨m, hk, hpeer⟩ := Participant.step_compare hp
      have hr := hs.ready k
      rw [hk] at hr
      refine hs.peerMove ht _ hsess (by rw [hpeer]; rfl) (by rw [hpeer]; rfl) ?_
      split
      · trivial
      · exact hr
    | lock k =>
      obtain ⟨hp, hsess⟩ := System.step_alone h
      obtain ⟨m, hk, -, hpeer⟩ := Participant.step_lock hp
      have hr := hs.ready k
      rw [hk] at hr
      exact hs.peerMove ht (.locked m) hsess (by rw [hpeer]; rfl) (by rw [hpeer]; rfl) hr
    | load k =>
      obtain ⟨hp, hsess⟩ := System.step_alone h
      obtain ⟨m, hk, hpeer⟩ := Participant.step_load hp
      have hr := hs.ready k
      rw [hk] at hr
      refine hs.peerMove ht _ hsess (by rw [hpeer]; rfl) (by rw [hpeer]; rfl) ?_
      split <;> exact hr
    | storeLatest k =>
      obtain ⟨hp, hsess⟩ := System.step_alone h
      obtain ⟨m, hk, hpeer⟩ := Participant.step_storeLatest hp
      have hr := hs.ready k
      rw [hk] at hr
      exact hs.peerMove ht (.requesting m) hsess (by rw [hpeer]; rfl) (by rw [hpeer]; rfl) hr
    | loopEnd k =>
      obtain ⟨hp, hsess⟩ := System.step_alone h
      obtain ⟨m, -, -, hpeer⟩ := Participant.step_loopEnd hp
      exact hs.peerMove ht (.acking m true) hsess (by rw [hpeer]; rfl) (by rw [hpeer]; rfl) trivial
    | fail k => cases ha
    | getLatest v =>
      obtain ⟨hp, hsess⟩ := System.step_alone h
      obtain ⟨-, hpeer⟩ := Participant.getLatest_eq hp
      obtain ⟨p, q⟩ := t
      simp only at hpeer hsess
      subst hpeer hsess
      exact hs

theorem live_init (len0 : Nat) (chains : Nat → Nat) : Live len0 (System.init len0 chains) where
  synced := synced_init len0 chains
  ready _ := by simp [System.init, Participant.init, Ready]

theorem live_run {chains : Nat → Nat} {trace : List SyncAct} {s : System}
    (h : run System.step (System.init len0 chains) trace = some s)
    (hff : ∀ a ∈ trace, a.faultFree = true) : Live len0 s :=
  run_invariant_of (Live len0) (fun a => a.faultFree = true) (fun _ _ _ ha hs h => hs.step ha h)
    trace hff (live_init len0 chains) h

end

def Reaches (ok : SyncAct → Prop) (s : System) (P : System → Prop) : Prop :=
  ∃ tr u, run System.step s tr = some u ∧ (∀ a ∈ tr, ok a) ∧ P u

def SyncAct.By (k : Nat) (a : SyncAct) : Prop := a.faultFree = true ∧ a.session = some k

def Touches (k : Nat) (s u : System) : Prop :=
  ∀ j, j ≠ k → u.sessions j = s.sessions j ∧ u.peer.streams j = s.peer.streams j

namespace Reaches

variable {ok ok' : SyncAct → Prop} {s t : System} {P Q : System → Prop}

theorem refl (h : P s) : Reaches ok s P := ⟨[], s, rfl, by simp, h⟩

theorem cons {a : SyncAct} (h : s.step a = some t) (ha : ok a) (ht : Reaches ok t P) :
    Reaches ok s P := by
  obtain ⟨tr, u, hu, hok, hp⟩ := ht
  exact ⟨a :: tr, u, by simp [h, hu], by simpa [ha] using hok, hp⟩

theorem trans (h : Reaches ok s P) (hq : ∀ u, P u → Reaches ok u Q) : Reaches ok s Q := by
  obtain ⟨tr, u, hu, hok, hp⟩ := h
  obtain ⟨tr', v, hv, hok', hq⟩ := hq u hp
  refine ⟨tr ++ tr', v, by rw [run_append, hu]; exact hv, fun a ha => ?_, hq⟩
  rcases List.mem_append.mp ha with ha | ha
  · exact hok a ha
  · exact hok' a ha

theorem mono (h : Reaches ok s P) (hpq : ∀ u, P u → Q u) : Reaches ok s Q := by
  obtain ⟨tr, u, hu, hok, hp⟩ := h
  exact ⟨tr, u, hu, hok, hpq u hp⟩

theorem weaken (h : Reaches ok s P) (hok : ∀ a, ok a → ok' a) : Reaches ok' s P := by
  obtain ⟨tr, u, hu, hok', hp⟩ := h
  exact ⟨tr, u, hu, fun a ha => hok a (hok' a ha), hp⟩

end Reaches

theorem Touches.trans {k : Nat} {s t u : System} (h₁ : Touches k s t) (h₂ : Touches k t u) :
    Touches k s u := fun j hj =>
  ⟨(h₂ j hj).1.trans (h₁ j hj).1, (h₂ j hj).2.trans (h₁ j hj).2⟩

theorem Participant.step_streams {p q : Participant} {act : StreamAct} {k : Nat}
    (h : p.step act = some q) (hk : act.invocation = some k) (j : Nat) (hj : j ≠ k) :
    q.streams j = p.streams j := by
  cases act with
  | recv i msg =>
    cases hk
    rcases Participant.step_recv h with ⟨m, -, -, rfl⟩ | ⟨-, -, rfl⟩ |
      ⟨m, i, -, -, -, rfl⟩ | ⟨-, -, -, -, rfl⟩
    · simp [Function.update_noteq hj]
    · rfl
    · unfold Participant.catchUp
      split
      · rfl
      · simp [Function.update_noteq hj]
    · rfl
  | compare i =>
    cases hk; obtain ⟨m, -, rfl⟩ := Participant.step_compare h; simp [Function.update_noteq hj]
  | lock i =>
    cases hk; obtain ⟨m, -, -, rfl⟩ := Participant.step_lock h; simp [Function.update_noteq hj]
  | load i =>
    cases hk; obtain ⟨m, -, rfl⟩ := Participant.step_load h; simp [Function.update_noteq hj]
  | storeLatest i =>
    cases hk; obtain ⟨m, -, rfl⟩ := Participant.step_storeLatest h; simp [Function.update_noteq hj]
  | request i =>
    cases hk; obtain ⟨m, -, rfl⟩ := Participant.step_request h; simp [Function.update_noteq hj]
  | loopEnd i =>
    cases hk; obtain ⟨m, -, -, rfl⟩ := Participant.step_loopEnd h; simp [Function.update_noteq hj]
  | ack i =>
    cases hk; obtain ⟨-, -, -, rfl⟩ := Participant.step_ack h; simp [Function.update_noteq hj]
  | fail i => cases hk; obtain ⟨-, rfl⟩ := Participant.step_fail h; simp [Function.update_noteq hj]
  | commit | getLatest => cases hk

theorem System.step_touches {s t : System} {a : SyncAct} {k : Nat} (h : s.step a = some t)
    (ha : a.session = some k) : Touches k s t := by
  have hsess : ∀ j, j ≠ k → t.sessions j = s.sessions j := by
    intro j hj
    cases a with
    | start i => cases ha; obtain ⟨-, rfl⟩ := System.step_start h; simp [Function.update_noteq hj]
    | grow i => cases ha; cases h; simp [Function.update_noteq hj]
    | orchRecv i =>
      cases ha; obtain ⟨-, -, -, -, rfl⟩ := System.step_orchRecv h; simp [Function.update_noteq hj]
    | orchSend i =>
      cases ha; obtain ⟨-, -, rfl⟩ := System.step_orchSend h; simp [Function.update_noteq hj]
    | orchSendFails i =>
      cases ha; obtain ⟨-, -, rfl⟩ := System.step_orchSendFails h; simp [Function.update_noteq hj]
    | peer act =>
      cases act with
      | recv i msg =>
        cases ha; obtain ⟨_, -, -, hs⟩ := System.step_recv h; simp [hs, Function.update_noteq hj]
      | request i => cases ha; simp [(System.step_peerSends h).2, Function.update_noteq hj]
      | ack i => cases ha; simp [(System.step_peerSends h).2, Function.update_noteq hj]
      | commit => cases h
      | _ => rw [(System.step_alone h).2]
  have hpeer := System.step_proj h
  cases a with
  | peer act =>
    simp only [SyncAct.peerAct, Option.toList_some, run_cons, run_nil, Option.bind_eq_bind,
      Option.bind_some] at hpeer
    exact fun j hj => ⟨hsess j hj, Participant.step_streams hpeer ha j hj⟩
  | _ =>
    simp only [SyncAct.peerAct, Option.toList_none, run_nil, Option.some.injEq] at hpeer
    exact fun j hj => ⟨hsess j hj, by rw [hpeer]⟩

theorem Reaches.keep {ok : SyncAct → Prop} {s : System} {P Q : System → Prop}
    (hq : ∀ s a t, ok a → Q s → s.step a = some t → Q t) (hs : Q s) (h : Reaches ok s P) :
    Reaches ok s (fun u => Q u ∧ P u) := by
  obtain ⟨tr, u, hu, hok, hp⟩ := h
  exact ⟨tr, u, hu, hok, run_invariant_of Q ok hq tr hok hs hu, hp⟩

theorem Reaches.live {len0 k : Nat} {s : System} {P : System → Prop} (hs : Live len0 s)
    (h : Reaches (SyncAct.By k) s P) : Reaches (SyncAct.By k) s (fun u => Live len0 u ∧ P u) :=
  h.keep (fun _ _ _ ha hs h => hs.step ha.1 h) hs

@[simp] theorem System.setSession_setSession (s : System) (k : Nat) (o o' : Session) :
    (s.setSession k o).setSession k o' = s.setSession k o' := by
  simp [System.setSession, Function.update_idem]

theorem serve (k : Nat) : ∀ (n : Nat) (s : System) (i : Nat), (s.sessions k).syncing = some i →
    (s.sessions k).chain - i = n →
    Reaches (SyncAct.By k) s (· = s.setSession k { s.sessions k with
      toPeer := (s.sessions k).toPeer ++ (List.range' i n).map .reply, syncing := none })
  | 0, s, i, hsy, hn => by
    refine Reaches.cons (a := .orchSend k) ?_ ⟨rfl, rfl⟩ (Reaches.refl rfl)
    simp [System.step, hsy, show ¬i < (s.sessions k).chain by omega]
  | n + 1, s, i, hsy, hn => by
    have hlt : i < (s.sessions k).chain := by omega
    refine Reaches.cons (a := .orchSend k) (by simp [System.step, hsy, hlt]; rfl) ⟨rfl, rfl⟩ ?_
    refine (serve k n _ (i + 1) (by simp) (by simp; omega)).mono fun u hu => ?_
    rw [hu]
    simp [List.range'_succ]

theorem settle (k : Nat) (s : System) :
    Reaches (SyncAct.By k) s (fun u => u.peer = s.peer ∧
      (u.sessions k).syncing = none ∧ (u.sessions k).toOrch = (s.sessions k).toOrch ∧
      (u.sessions k).soft = (s.sessions k).soft ∧ (u.sessions k).hard = (s.sessions k).hard) := by
  cases hsy : (s.sessions k).syncing with
  | none => exact Reaches.refl ⟨rfl, hsy, rfl, rfl, rfl⟩
  | some i =>
    refine (serve k _ s i hsy rfl).mono fun u hu => ?_
    subst hu
    exact ⟨rfl, by simp, by simp, by simp, by simp⟩

theorem drain (k : Nat) : ∀ (l : List Msg) (s : System), (s.sessions k).toOrch = l →
    Reaches (SyncAct.By k) s (fun u => u.peer = s.peer ∧
      ((s.sessions k).hard = true ∨ .ack ∈ l → (u.sessions k).hard = true))
  | [], s, _ => (settle k s).mono fun u ⟨hp, _, _, _, hh⟩ =>
      ⟨hp, fun h => by simpa [hh] using h⟩
  | msg :: rest, s, hto => by
    refine (settle k s).trans fun u ⟨hp, hsy, hto', _, hh⟩ => ?_
    rw [hto] at hto'
    refine Reaches.cons (a := .orchRecv k) (by simp [System.step, hsy, hto']; rfl) ⟨rfl, rfl⟩ ?_
    refine (drain k rest _ (by simp)).mono fun v ⟨hp', hh'⟩ =>
      ⟨by rw [hp', System.setSession_peer, hp], fun h => hh' ?_⟩
    rw [System.setSession_sessions, Function.update_same]
    exact Session.hard_or_ack { u.sessions k with syncing := none } msg (by simpa [hh] using h)

section
variable {len0 k m : Nat} {s : System}

theorem catch_up (k m : Nat) : ∀ (d : Nat) (s : System), Live len0 s → m - s.peer.len = d →
    s.peer.streams k = .catching m → (s.sessions k).soft = true →
    (s.sessions k).syncing = none →
    Reaches (SyncAct.By k) s (fun u => Live len0 u ∧ u.peer.streams k = .catching m ∧
      m ≤ u.peer.len)
  | 0, s, hs, hd, hk, _, _ => Reaches.refl ⟨hs, hk, by omega⟩
  | d + 1, s, hs, hd, hk, hsoft, hsy => by
    have hr := hs.ready k
    have hag := hs.synced.agrees k
    rw [hk] at hr hag
    obtain ⟨-, ⟨-, -, hsoft', -⟩ | ⟨-, -, j, hpj, -⟩⟩ := hag
    · simp [hsoft] at hsoft'
    have hm := hr.2 hsoft hsy
    simp only [hpj, List.length_map, List.length_range'] at hm
    obtain ⟨j, rfl⟩ : ∃ j', j = j' + 1 := ⟨j - 1, by omega⟩
    have hlt : s.peer.len < m := by omega
    have h : s.step (.peer (.recv k (.reply s.peer.len))) = some ⟨s.peer.catchUp k s.peer.len,
        Function.update s.sessions k
          { s.sessions k with toPeer := (List.range' (s.peer.len + 1) j).map .reply }⟩ := by
      simp [System.step, hpj, List.range'_succ, Participant.step, Participant.recv, hk, hlt]
    refine Reaches.cons h ⟨rfl, rfl⟩ (catch_up k m d _ (hs.step (by rfl) h) ?_ ?_ ?_ ?_)
    · simp only [Participant.catchUp_len]; omega
    · simp [Participant.catchUp_len, hk]
    · simp [hsoft]
    · simp [hsy]

theorem finish_acking {b : Bool} (hs : Live len0 s) (hk : s.peer.streams k = .acking m b) :
    Reaches (SyncAct.By k) s (fun u => Live len0 u ∧ u.peer.streams k = .returned) := by
  have h : s.step (.peer (.ack k)) = some ⟨s.peer.leave k, Function.update s.sessions k
      { s.sessions k with toOrch := (s.sessions k).toOrch ++ [.ack] }⟩ := by
    simp [System.step, System.peerSends, Participant.step, hk]
  exact Reaches.cons h ⟨rfl, rfl⟩ (Reaches.refl ⟨hs.step (by rfl) h, by simp⟩)

theorem finish_catching (hs : Live len0 s) (hk : s.peer.streams k = .catching m) :
    Reaches (SyncAct.By k) s (fun u => Live len0 u ∧ u.peer.streams k = .returned) := by
  have taken : Reaches (SyncAct.By k) s (fun u => Live len0 u ∧ u.peer.streams k = .catching m ∧
      (u.sessions k).soft = true) := by
    cases hsoft : (s.sessions k).soft
    · have hag := hs.synced.agrees k
      rw [hk] at hag
      obtain ⟨-, ⟨hto, hsy, -, -⟩ | ⟨-, hsoft', -⟩⟩ := hag
      · have h : s.step (.orchRecv k) = some (s.setSession k { s.sessions k with
            toOrch := [], soft := true, syncing := some s.peer.len }) := by
          simp [System.step, hsy, hto, Session.handle, hsoft]
        exact Reaches.cons h ⟨rfl, rfl⟩ (Reaches.refl ⟨hs.step (by rfl) h, hk, by simp⟩)
      · simp [hsoft] at hsoft'
    · exact Reaches.refl ⟨hs, hk, hsoft⟩
  refine taken.trans fun u ⟨hu, huk, husoft⟩ => ?_
  refine ((settle k u).live hu).trans fun v ⟨hv, hpv, hvsy, _, hvsoft, _⟩ => ?_
  have hvk : v.peer.streams k = .catching m := by rw [hpv, huk]
  refine (catch_up k m _ v hv rfl hvk (by rw [hvsoft, husoft]) hvsy).trans
    fun w ⟨hw, hwk, hwm⟩ => ?_
  have h : w.step (.peer (.loopEnd k)) =
      some { w with peer := w.peer.setPc k (.acking m true) } := by
    simp [System.step, Participant.step, hwk, hwm]
  exact Reaches.cons h ⟨rfl, rfl⟩
    (finish_acking (m := m) (b := true) (hw.step (by rfl) h) (by simp))

theorem finish_requesting (hs : Live len0 s) (hk : s.peer.streams k = .requesting m) :
    Reaches (SyncAct.By k) s (fun u => Live len0 u ∧ u.peer.streams k = .returned) := by
  have h : s.step (.peer (.request k)) = some ⟨s.peer.setPc k (.catching m),
      Function.update s.sessions k
        { s.sessions k with toOrch := (s.sessions k).toOrch ++ [.request s.peer.len] }⟩ := by
    simp [System.step, System.peerSends, Participant.step, hk]
  exact Reaches.cons h ⟨rfl, rfl⟩ (finish_catching (m := m) (hs.step (by rfl) h) (by simp))

theorem finish_storing (hs : Live len0 s) (hk : s.peer.streams k = .storing m) :
    Reaches (SyncAct.By k) s (fun u => Live len0 u ∧ u.peer.streams k = .returned) := by
  have h : s.step (.peer (.storeLatest k)) =
      some { s with peer := { s.peer.setPc k (.requesting m) with latest := m } } := by
    simp [System.step, Participant.step, hk]
  exact Reaches.cons h ⟨rfl, rfl⟩ (finish_requesting (m := m) (hs.step (by rfl) h) (by simp))

theorem finish_locked (hs : Live len0 s) (hk : s.peer.streams k = .locked m) :
    Reaches (SyncAct.By k) s (fun u => Live len0 u ∧ u.peer.streams k = .returned) := by
  have h : s.step (.peer (.load k)) = some { s with
      peer := s.peer.setPc k (if m > s.peer.latest then .storing m else .requesting m) } := by
    simp [System.step, Participant.step, hk]
  split at h
  · exact Reaches.cons h ⟨rfl, rfl⟩ (finish_storing (m := m) (hs.step (by rfl) h) (by simp))
  · exact Reaches.cons h ⟨rfl, rfl⟩ (finish_requesting (m := m) (hs.step (by rfl) h) (by simp))

theorem finish_owned (hs : Live len0 s) (hk : (s.peer.streams k).holdsLock) :
    Reaches (SyncAct.By k) s (fun u => Live len0 u ∧ u.peer.streams k = .returned) := by
  cases hpc : s.peer.streams k with
  | locked m => exact finish_locked hs hpc
  | storing m => exact finish_storing hs hpc
  | requesting m => exact finish_requesting hs hpc
  | catching m => exact finish_catching hs hpc
  | acking m b => exact finish_acking hs hpc
  | _ => simp [hpc, StreamPc.holdsLock] at hk

theorem finish_locking (hs : Live len0 s) (hk : s.peer.streams k = .locking m) :
    Reaches (·.faultFree = true) s (fun u => Live len0 u ∧ u.peer.streams k = .returned) := by
  have free : Reaches (·.faultFree = true) s (fun u => Live len0 u ∧
      u.peer.streams k = .locking m ∧ u.peer.lock = none) := by
    cases hl : s.peer.lock with
    | none => exact Reaches.refl ⟨hs, hk, hl⟩
    | some j =>
      have hj : (s.peer.streams j).holdsLock := (hs.synced.peer.lock j).mp hl
      have hkj : k ≠ j := by rintro rfl; simp [hk, StreamPc.holdsLock] at hj
      have hown := Reaches.keep (Q := Touches j s)
        (fun _ _ _ ha hq h => hq.trans (System.step_touches h ha.2)) (fun _ _ => ⟨rfl, rfl⟩)
        (finish_owned hs hj)
      refine (hown.weaken fun a ha => ha.1).mono fun u ⟨ht, hu, huj⟩ => ⟨hu, (ht k hkj).2.trans hk, ?_⟩
      cases hl' : u.peer.lock with
      | none => rfl
      | some i =>
        have hi := (hu.synced.peer.lock i).mp hl'
        by_cases hij : i = j
        · subst hij; simp [huj, StreamPc.holdsLock] at hi
        · rw [(ht i hij).2] at hi
          exact absurd (Option.some.inj (((hs.synced.peer.lock i).mpr hi).symm.trans hl)) hij
  refine free.trans fun u ⟨hu, huk, hul⟩ => ?_
  have h : u.step (.peer (.lock k)) =
      some { u with peer := { u.peer.setPc k (.locked m) with lock := some k } } := by
    simp [System.step, Participant.step, huk, hul]
  exact Reaches.cons h rfl
    ((finish_locked (m := m) (hu.step (by rfl) h) (by simp)).weaken fun a ha => ha.1)

theorem finish_announced (hs : Live len0 s) (hk : s.peer.streams k = .announced m) :
    Reaches (·.faultFree = true) s (fun u => Live len0 u ∧ u.peer.streams k = .returned) := by
  have h : s.step (.peer (.compare k)) = some { s with
      peer := s.peer.setPc k (if m ≤ s.peer.len then .acking m false else .locking m) } := by
    simp [System.step, Participant.step, hk]
  split at h
  · exact Reaches.cons h rfl ((finish_acking (m := m) (b := false) (hs.step (by rfl) h)
      (by simp)).weaken fun a ha => ha.1)
  · exact Reaches.cons h rfl (finish_locking (m := m) (hs.step (by rfl) h) (by simp))

theorem finish_waiting (hs : Live len0 s) (hk : s.peer.streams k = .waiting) :
    Reaches (·.faultFree = true) s (fun u => Live len0 u ∧ u.peer.streams k = .returned) := by
  have started : Reaches (·.faultFree = true) s (fun u => Live len0 u ∧
      u.peer.streams k = .waiting ∧ ∃ m, (u.sessions k).toPeer = [.announce m]) := by
    have hag := hs.synced.agrees k
    rw [hk] at hag
    obtain ⟨-, -, -, ⟨hst, hto⟩ | ⟨-, m, hm⟩⟩ := hag
    · have h : s.step (.start k) = some (s.setSession k { s.sessions k with
          started := true, toPeer := [.announce (s.sessions k).chain] }) := by
        simp [System.step, hst, hto]
      exact Reaches.cons h rfl
        (Reaches.refl ⟨hs.step (by rfl) h, hk, (s.sessions k).chain, by simp⟩)
    · exact Reaches.refl ⟨hs, hk, m, hm⟩
  refine started.trans fun u ⟨hu, huk, m, hm⟩ => ?_
  have h : u.step (.peer (.recv k (.announce m))) = some ⟨u.peer.setPc k (.announced m),
      Function.update u.sessions k { u.sessions k with toPeer := [] }⟩ := by
    simp [System.step, hm, Participant.step, Participant.recv, huk]
  exact Reaches.cons h rfl (finish_announced (m := m) (hu.step (by rfl) h) (by simp))

theorem finish (hs : Live len0 s) (k : Nat) :
    Reaches (·.faultFree = true) s (fun u => Live len0 u ∧ u.peer.streams k = .returned) := by
  have own {P : System → Prop} (h : Reaches (SyncAct.By k) s P) :
      Reaches (·.faultFree = true) s P := h.weaken fun a ha => ha.1
  cases hk : s.peer.streams k with
  | waiting => exact finish_waiting hs hk
  | announced m => exact finish_announced hs hk
  | locking m => exact finish_locking hs hk
  | locked m => exact own (finish_locked hs hk)
  | storing m => exact own (finish_storing hs hk)
  | requesting m => exact own (finish_requesting hs hk)
  | catching m => exact own (finish_catching hs hk)
  | acking m b => exact own (finish_acking hs hk)
  | returned => exact Reaches.refl ⟨hs, hk⟩

end

theorem Participant.step_returned {p q : Participant} {act : StreamAct} {k : Nat}
    (hk : p.streams k = .returned) (h : p.step act = some q) : q.streams k = .returned := by
  cases hi : act.invocation with
  | some j =>
    rcases eq_or_ne k j with rfl | hkj
    · cases act <;> simp_all [Participant.step, Participant.recv, StreamAct.invocation,
        StreamPc.canFail]
    · rw [Participant.step_streams h hi k hkj, hk]
  | none =>
    cases act <;> simp only [StreamAct.invocation, reduceCtorEq] at hi
    · cases h; exact hk
    · simp only [Participant.step, Option.ite_none_right_eq_some, Option.some.injEq] at h
      rw [← h.2]; exact hk

theorem hard_update {f : Nat → Session} {j k : Nat} {o : Session}
    (ho : (f j).hard = true → o.hard = true) (hk : (f k).hard = true) :
    (Function.update f j o k).hard = true := by
  rcases eq_or_ne k j with rfl | hkj
  · rw [Function.update_same]; exact ho hk
  · rw [Function.update_noteq hkj]; exact hk

theorem System.step_hard {s t : System} {a : SyncAct} {k : Nat} (h : s.step a = some t)
    (hk : (s.sessions k).hard = true) : (t.sessions k).hard = true := by
  cases a with
  | start j => obtain ⟨-, rfl⟩ := System.step_start h; exact hard_update id hk
  | grow j => cases h; exact hard_update id hk
  | orchRecv j =>
    obtain ⟨msg, rest, -, -, rfl⟩ := System.step_orchRecv h
    exact hard_update (fun hj => (Session.handle_hard _ msg).mpr (.inl hj)) hk
  | orchSend j =>
    obtain ⟨i, -, rfl⟩ := System.step_orchSend h
    exact hard_update (fun hj => by split <;> exact hj) hk
  | orchSendFails j =>
    obtain ⟨i, -, rfl⟩ := System.step_orchSendFails h
    exact hard_update (fun _ => rfl) hk
  | peer act =>
    cases act with
    | recv j msg => obtain ⟨_, -, -, hs⟩ := System.step_recv h; rw [hs]; exact hard_update id hk
    | request j => rw [(System.step_peerSends h).2]; exact hard_update id hk
    | ack j => rw [(System.step_peerSends h).2]; exact hard_update id hk
    | commit => cases h
    | _ => rw [(System.step_alone h).2]; exact hk

theorem System.peer_step {s t : System} {a : SyncAct} (h : s.step a = some t) :
    t.peer = s.peer ∨ ∃ act, a = .peer act ∧ s.peer.step act = some t.peer := by
  have hp := System.step_proj h
  cases a with
  | peer act =>
    simp only [SyncAct.peerAct, Option.toList_some, run_cons, run_nil, Option.bind_eq_bind,
      Option.bind_some] at hp
    exact .inr ⟨act, rfl, hp⟩
  | _ =>
    simp only [SyncAct.peerAct, Option.toList_none, run_nil, Option.some.injEq] at hp
    exact .inl hp.symm

theorem System.returned_step {s t : System} {a : SyncAct} {k : Nat} (h : s.step a = some t)
    (hk : s.peer.streams k = .returned) : t.peer.streams k = .returned := by
  rcases System.peer_step h with he | ⟨act, -, hp⟩
  · rw [he]; exact hk
  · exact Participant.step_returned hk hp

def Ended (s : System) (k : Nat) : Prop :=
  s.peer.streams k = .returned ∧ (s.sessions k).hard = true

theorem Ended.step {s t : System} {a : SyncAct} {k : Nat} (he : Ended s k)
    (h : s.step a = some t) : Ended t k :=
  ⟨System.returned_step h he.1, System.step_hard h he.2⟩

theorem to_ended {len0 : Nat} {s : System} (hs : Live len0 s) (k : Nat) :
    Reaches (·.faultFree = true) s (fun u => Live len0 u ∧ Ended u k) := by
  refine (finish hs k).trans fun u ⟨hu, huk⟩ => ?_
  have hr := hu.ready k
  rw [huk] at hr
  exact (((drain k _ u rfl).live hu).weaken fun a ha => ha.1).mono
    fun v ⟨hv, hp, hh⟩ => ⟨hv, by rw [hp, huk], hh hr⟩

/-- Deadlock freedom of `Sync` while `CatchUp` is the only writer of the participant's
store: from every state that a run without failed sends or receives reaches, such a run
goes on until any given invocations of `Stream` have all returned and each orchestrator
`routine` among them counts its participant as hard-synced. Neither the lock of the handler
nor a message on its way can hold a run up for good. -/
theorem sync_completes {len0 : Nat} {chains : Nat → Nat} {trace : List SyncAct} {s : System}
    (h : run System.step (System.init len0 chains) trace = some s)
    (hff : ∀ a ∈ trace, a.faultFree = true) (K : List Nat) :
    ∃ tr u, run System.step s tr = some u ∧ (∀ a ∈ tr, a.faultFree = true) ∧
      ∀ k ∈ K, u.peer.streams k = .returned ∧ (u.sessions k).hard = true := by
  suffices hK : Reaches (·.faultFree = true) s (fun u => Live len0 u ∧ ∀ k ∈ K, Ended u k) by
    obtain ⟨tr, u, hu, hok, -, hend⟩ := hK
    exact ⟨tr, u, hu, hok, hend⟩
  induction K with
  | nil => exact Reaches.refl ⟨live_run h hff, by simp⟩
  | cons k K ih =>
    refine ih.trans fun u ⟨hu, hK⟩ => ?_
    refine ((to_ended hu k).keep (Q := fun v => ∀ j ∈ K, Ended v j)
      (fun _ _ _ _ hv h j hj => (hv j hj).step h) hK).mono fun v ⟨hK', hv, hk⟩ => ⟨hv, ?_⟩
    rintro j (_ | ⟨_, hj⟩)
    · exact hk
    · exact hK' j hj

theorem sync_completes_from_start :
    ∃ tr u, run System.step (System.init 0 fun _ => 2) tr = some u ∧
      (∀ a ∈ tr, a.faultFree = true) ∧
      ∀ k ∈ [0, 1], u.peer.streams k = .returned ∧ (u.sessions k).hard = true :=
  @sync_completes 0 (fun _ => 2) [] _ rfl (by simp) [0, 1]

theorem Participant.len_le_step {p q : Participant} {act : StreamAct} (h : p.step act = some q) :
    p.len ≤ q.len := by
  cases act with
  | recv j msg =>
    rcases Participant.step_recv h with ⟨m, -, -, rfl⟩ | ⟨-, -, rfl⟩ |
      ⟨m, i, -, -, -, rfl⟩ | ⟨-, -, -, -, rfl⟩
    · exact le_rfl
    · exact le_rfl
    · unfold Participant.catchUp; split <;> simp
    · exact le_rfl
  | compare j => obtain ⟨m, -, rfl⟩ := Participant.step_compare h; exact le_rfl
  | lock j => obtain ⟨m, -, -, rfl⟩ := Participant.step_lock h; exact le_rfl
  | load j => obtain ⟨m, -, rfl⟩ := Participant.step_load h; exact le_rfl
  | storeLatest j => obtain ⟨m, -, rfl⟩ := Participant.step_storeLatest h; exact le_rfl
  | request j => obtain ⟨m, -, rfl⟩ := Participant.step_request h; exact le_rfl
  | loopEnd j => obtain ⟨m, -, -, rfl⟩ := Participant.step_loopEnd h; exact le_rfl
  | ack j => obtain ⟨-, -, -, rfl⟩ := Participant.step_ack h; exact le_rfl
  | fail j => obtain ⟨-, rfl⟩ := Participant.step_fail h; exact le_rfl
  | commit => cases h; exact Nat.le_succ _
  | getLatest v => obtain ⟨-, rfl⟩ := Participant.getLatest_eq h; exact le_rfl

theorem Participant.index_setPc {p : Participant} {j k m : Nat} {pc : StreamPc}
    (hj : pc.index = (p.streams j).index) (hk : (p.streams k).index = some m) :
    ((p.setPc j pc).streams k).index = some m := by
  by_cases h : k = j
  · subst h; simp [hj, hk]
  · simp [Function.update_noteq h, hk]

theorem Participant.index_kept {p q : Participant} {act : StreamAct} (hp : p.Inv)
    (h : p.step act = some q) (hfail : ∀ j, act ≠ .fail j)
    (hnext : ∀ j i m, act = .recv j (.reply i) → p.streams j = .catching m → i = p.len)
    {k m : Nat} (hk : (p.streams k).index = some m) :
    (q.streams k).index = some m ∨ q.streams k = .returned ∧ m ≤ q.len := by
  cases act with
  | recv j msg =>
    rcases Participant.step_recv h with ⟨m', hj, -, rfl⟩ | ⟨-, -, rfl⟩ |
      ⟨m', i, hj, rfl, -, rfl⟩ | ⟨-, -, -, -, rfl⟩
    · have hkj : k ≠ j := by rintro rfl; simp [hj, StreamPc.index] at hk
      exact .inl (by simp [Function.update_noteq hkj, hk])
    · exact .inl hk
    · rw [hnext j i m' rfl hj, Participant.catchUp_len]; exact .inl hk
    · exact .inl hk
  | compare j =>
    obtain ⟨m', hj, rfl⟩ := Participant.step_compare h
    exact .inl (Participant.index_setPc (by split <;> simp [hj, StreamPc.index]) hk)
  | lock j =>
    obtain ⟨m', hj, -, rfl⟩ := Participant.step_lock h
    exact .inl (Participant.index_setPc (by simp [hj, StreamPc.index]) hk)
  | load j =>
    obtain ⟨m', hj, rfl⟩ := Participant.step_load h
    exact .inl (Participant.index_setPc (by split <;> simp [hj, StreamPc.index]) hk)
  | storeLatest j =>
    obtain ⟨m', hj, rfl⟩ := Participant.step_storeLatest h
    exact .inl (Participant.index_setPc (by simp [hj, StreamPc.index]) hk)
  | request j =>
    obtain ⟨m', hj, rfl⟩ := Participant.step_request h
    exact .inl (Participant.index_setPc (by simp [hj, StreamPc.index]) hk)
  | loopEnd j =>
    obtain ⟨m', hj, -, rfl⟩ := Participant.step_loopEnd h
    exact .inl (Participant.index_setPc (by simp [hj, StreamPc.index]) hk)
  | ack j =>
    obtain ⟨m', b, hj, rfl⟩ := Participant.step_ack h
    by_cases hkj : k = j
    · subst hkj
      obtain rfl : m' = m := by simpa [hj, StreamPc.index] using hk
      exact .inr ⟨by simp, hp.acking k m' b hj⟩
    · exact .inl (by simp [Function.update_noteq hkj, hk])
  | fail j => exact absurd rfl (hfail j)
  | commit => cases h; exact .inl hk
  | getLatest v => obtain ⟨-, rfl⟩ := Participant.getLatest_eq h; exact .inl hk

def Kept (trace : List SyncAct) (s : System) : Prop :=
  ∀ k m, SyncAct.peer (.recv k (.announce m)) ∈ trace →
    (s.peer.streams k).index = some m ∨ s.peer.streams k = .returned ∧ m ≤ s.peer.len

theorem Kept.step {len0 : Nat} {trace : List SyncAct} {s t : System} {a : SyncAct}
    (hk : Kept trace s) (hs : Synced len0 s) (ha : a.faultFree = true) (h : s.step a = some t) :
    Kept (trace ++ [a]) t := by
  intro k m hm
  rcases List.mem_append.mp hm with hold | hnew
  · rcases System.peer_step h with he | ⟨act, rfl, hp⟩
    · rw [he]; exact hk k m hold
    · rcases hk k m hold with hi | ⟨hr, hle⟩
      · refine Participant.index_kept hs.peer hp
          (fun j hj => by simp [hj, SyncAct.faultFree] at ha) (fun j i m' hj hc => ?_) hi
        subst hj
        obtain ⟨_, hq, -, -⟩ := System.step_recv h
        exact Msg.reply.inj (hs.catching_head hc hq)
      · exact .inr ⟨Participant.step_returned hr hp, hle.trans (Participant.len_le_step hp)⟩
  · rw [List.mem_singleton] at hnew
    subst hnew
    obtain ⟨rest, hq, hp, -⟩ := System.step_recv h
    rcases Participant.step_recv hp with ⟨m', -, hmm, hq'⟩ | ⟨-, hne, -⟩ |
      ⟨_, _, -, hr, -, -⟩ | ⟨m', hc, -, -, -⟩
    · cases hmm; exact .inl (by rw [hq']; simp [StreamPc.index])
    · exact absurd rfl (hne m)
    · cases hr
    · cases hs.catching_head hc hq

theorem kept_run {len0 : Nat} {chains : Nat → Nat} {trace : List SyncAct} {s : System}
    (h : run System.step (System.init len0 chains) trace = some s)
    (hff : ∀ a ∈ trace, a.faultFree = true) : Kept trace s := by
  induction trace using List.reverseRecOn generalizing s with
  | nil => intro k m hm; simp at hm
  | append_singleton trace a ih =>
    obtain ⟨u, hu, hstep⟩ := run_snoc_eq_some h
    exact (ih hu fun b hb => hff b (List.mem_append_left _ hb)).step (synced_run hu)
      (hff a (by simp)) hstep

/-- `Stream` does what it is for: in a run without failed sends or receives, where `CatchUp`
is the only writer of the participant's store, an invocation that received the
`SyncMessage` of index `m` returns only once the store holds `m` blocks. `CatchUp` never
fails there, since the replies arrive in order from the store's length. -/
theorem returned_caught_up {len0 : Nat} {chains : Nat → Nat} {trace : List SyncAct} {s : System}
    (h : run System.step (System.init len0 chains) trace = some s)
    (hff : ∀ a ∈ trace, a.faultFree = true) {k m : Nat}
    (hk : SyncAct.peer (.recv k (.announce m)) ∈ trace) (hr : s.peer.streams k = .returned) :
    m ≤ s.peer.len := by
  rcases kept_run h hff k m hk with hi | ⟨-, hle⟩
  · simp [hr, StreamPc.index] at hi
  · exact hle

theorem returned_caught_up_after_catch_up :
    ∃ s, run System.step (System.init 0 fun _ => 1)
        [.start 0, .peer (.recv 0 (.announce 1)), .peer (.compare 0), .peer (.lock 0),
          .peer (.load 0), .peer (.storeLatest 0), .peer (.request 0), .orchRecv 0, .orchSend 0,
          .orchSend 0, .peer (.recv 0 (.reply 0)), .peer (.loopEnd 0), .peer (.ack 0)] = some s ∧
      s.peer.streams 0 = .returned ∧ 1 ≤ s.peer.len := by
  have h : run System.step (System.init 0 fun _ => 1)
      [.start 0, .peer (.recv 0 (.announce 1)), .peer (.compare 0), .peer (.lock 0),
        .peer (.load 0), .peer (.storeLatest 0), .peer (.request 0), .orchRecv 0, .orchSend 0,
        .orchSend 0, .peer (.recv 0 (.reply 0)), .peer (.loopEnd 0), .peer (.ack 0)] = some _ := rfl
  exact ⟨_, h, rfl, returned_caught_up (k := 0) (m := 1) h (by decide) (by simp) rfl⟩

def Session.acked (o : Session) : Prop := o.hard = true ∨ .ack ∈ o.toOrch

theorem acked_update {f : Nat → Session} {j k : Nat} {o : Session}
    (hk : (Function.update f j o k).acked) (ho : o.acked → (f j).acked) : (f k).acked := by
  rcases eq_or_ne k j with rfl | hkj
  · rw [Function.update_same] at hk; exact ho hk
  · rwa [Function.update_noteq hkj] at hk

theorem System.acked_step {s t : System} {a : SyncAct} (ha : a.faultFree = true)
    (h : s.step a = some t) {k : Nat} (hk : (t.sessions k).acked) :
    (s.sessions k).acked ∨ a = .peer (.ack k) := by
  cases a with
  | start j =>
    obtain ⟨-, rfl⟩ := System.step_start h
    exact .inl (acked_update hk id)
  | grow j => cases h; exact .inl (acked_update hk id)
  | orchRecv j =>
    obtain ⟨msg, rest, -, hto, rfl⟩ := System.step_orchRecv h
    refine .inl (acked_update hk fun ho => ?_)
    simp only [Session.acked, Session.handle_hard, Session.handle_toOrch, hto,
      List.mem_cons] at ho ⊢
    rcases ho with (ho | rfl) | ho
    · exact .inl ho
    · exact .inr (.inl rfl)
    · exact .inr (.inr ho)
  | orchSend j =>
    obtain ⟨i, -, rfl⟩ := System.step_orchSend h
    exact .inl (acked_update hk fun ho => by split at ho <;> exact ho)
  | orchSendFails j => cases ha
  | peer act =>
    cases act with
    | recv j msg =>
      obtain ⟨_, -, -, hs⟩ := System.step_recv h
      rw [hs] at hk
      exact .inl (acked_update hk id)
    | request j =>
      rw [(System.step_peerSends h).2] at hk
      exact .inl (acked_update hk fun ho => by simpa [Session.acked] using ho)
    | ack j =>
      rw [(System.step_peerSends h).2] at hk
      rcases eq_or_ne k j with rfl | hkj
      · exact .inr rfl
      · exact .inl (by rwa [Function.update_noteq hkj] at hk)
    | commit => cases h
    | _ => rw [(System.step_alone h).2] at hk; exact .inl hk

structure Acked (trace : List SyncAct) (s : System) : Prop where
  index : ∀ k m, (s.peer.streams k).index = some m → SyncAct.peer (.recv k (.announce m)) ∈ trace
  returned : ∀ k, (s.sessions k).acked →
    s.peer.streams k = .returned ∧ ∃ m, SyncAct.peer (.recv k (.announce m)) ∈ trace

theorem acked_init (len0 : Nat) (chains : Nat → Nat) : Acked [] (System.init len0 chains) where
  index _ _ h := by simp [System.init, Participant.init, StreamPc.index] at h
  returned _ h := by simp [System.init, Session.acked] at h

theorem Acked.step {trace : List SyncAct} {s t : System} {a : SyncAct} (hs : Acked trace s)
    (ha : a.faultFree = true) (h : s.step a = some t) : Acked (trace ++ [a]) t := by
  have hsub : ∀ {b}, b ∈ trace → b ∈ trace ++ [a] := List.mem_append_left _
  refine ⟨fun k m hk => ?_, fun k hk => ?_⟩
  · rcases System.peer_step h with he | ⟨act, rfl, hp⟩
    · exact hsub (hs.index k m (he ▸ hk))
    · rcases Participant.index_step hp k with he | hn | ⟨m', rfl, hm'⟩
      · exact hsub (hs.index k m (he ▸ hk))
      · simp [hn] at hk
      · obtain rfl : m' = m := Option.some.inj (hm'.symm.trans hk)
        exact List.mem_append_right _ (List.mem_singleton_self _)
  · rcases System.acked_step ha h hk with hk | rfl
    · obtain ⟨hr, m, hm⟩ := hs.returned k hk
      exact ⟨System.returned_step h hr, m, hsub hm⟩
    · obtain ⟨m, b, hj, he⟩ := Participant.step_ack (System.step_peerSends h).1
      exact ⟨by simp [he], m, hsub (hs.index k m (by simp [hj, StreamPc.index]))⟩

theorem acked_run {len0 : Nat} {chains : Nat → Nat} {trace : List SyncAct} {s : System}
    (h : run System.step (System.init len0 chains) trace = some s)
    (hff : ∀ a ∈ trace, a.faultFree = true) : Acked trace s := by
  induction trace using List.reverseRecOn generalizing s with
  | nil => cases h; exact acked_init len0 chains
  | append_singleton trace a ih =>
    obtain ⟨u, hu, hstep⟩ := run_snoc_eq_some h
    exact (ih hu fun b hb => hff b (List.mem_append_left _ hb)).step (hff a (by simp)) hstep

/-- `Sync` counts a participant as hard-synced only once it has caught up: in a run where
nothing fails and `CatchUp` is the only writer of the participant's store, when the
`routine` of orchestrator `k` counts the participant in `hard`, the
participant's invocation `k` of `Stream` has returned after receiving the announcement of
an index `m`, and the participant's store holds `m` blocks. -/
theorem hard_synced_caught_up {len0 : Nat} {chains : Nat → Nat} {trace : List SyncAct}
    {s : System} (h : run System.step (System.init len0 chains) trace = some s)
    (hff : ∀ a ∈ trace, a.faultFree = true) {k : Nat} (hk : (s.sessions k).hard = true) :
    s.peer.streams k = .returned ∧
      ∃ m, SyncAct.peer (.recv k (.announce m)) ∈ trace ∧ m ≤ s.peer.len := by
  obtain ⟨hr, m, hm⟩ := (acked_run h hff).returned k (.inl hk)
  refine ⟨hr, m, hm, ?_⟩
  rcases kept_run h hff k m hm with hi | ⟨-, hle⟩
  · simp [hr, StreamPc.index] at hi
  · exact hle

theorem hard_synced_caught_up_after_ack :
    ∃ s, run System.step (System.init 0 fun _ => 1)
        [.start 0, .peer (.recv 0 (.announce 1)), .peer (.compare 0), .peer (.lock 0),
          .peer (.load 0), .peer (.storeLatest 0), .peer (.request 0), .orchRecv 0, .orchSend 0,
          .orchSend 0, .peer (.recv 0 (.reply 0)), .peer (.loopEnd 0), .peer (.ack 0),
          .orchRecv 0] = some s ∧
      (s.sessions 0).hard = true ∧ s.peer.streams 0 = .returned ∧
      ∃ m, SyncAct.peer (.recv 0 (.announce m)) ∈
          [.start 0, .peer (.recv 0 (.announce 1)), .peer (.compare 0), .peer (.lock 0),
            .peer (.load 0), .peer (.storeLatest 0), .peer (.request 0), .orchRecv 0,
            .orchSend 0, .orchSend 0, .peer (.recv 0 (.reply 0)), .peer (.loopEnd 0),
            .peer (.ack 0), .orchRecv 0] ∧
        m ≤ s.peer.len := by
  have h : run System.step (System.init 0 fun _ => 1)
      [.start 0, .peer (.recv 0 (.announce 1)), .peer (.compare 0), .peer (.lock 0),
        .peer (.load 0), .peer (.storeLatest 0), .peer (.request 0), .orchRecv 0, .orchSend 0,
        .orchSend 0, .peer (.recv 0 (.reply 0)), .peer (.loopEnd 0), .peer (.ack 0),
        .orchRecv 0] = some _ := rfl
  exact ⟨_, h, rfl, hard_synced_caught_up h (by decide) rfl⟩

end Dela.Blocksync
