import Dela.Blocksync.Handler

/-!
Block synchronisation of one participant with any number of orchestrators. Session `k`
is one orchestrator's `defaultSync.routine` (with `syncNode`) streaming to the
participant's invocation `k` of `handler.Stream`, with a FIFO channel each way. The
participant moves by `Participant.step`: its `Recv` takes the head of its session's
channel and its `Send` appends to the orchestrator's. `CatchUp` is the only writer of
the participant's store, so `commit` is not a step here.
-/
namespace Dela.Blocksync

structure Session where
  chain : Nat
  started : Bool
  soft : Bool
  hard : Bool
  syncing : Option Nat
  toPeer : List Msg
  toOrch : List Msg

structure System where
  peer : Participant
  sessions : Nat → Session

inductive SyncAct where
  | start (k : Nat)
  | grow (k : Nat)
  | orchRecv (k : Nat)
  | orchSend (k : Nat)
  | orchSendFails (k : Nat)
  | peer (act : StreamAct)
  deriving DecidableEq, Repr

namespace Session

def handle (o : Session) : Msg → Session
  | .request i => if o.soft then o else { o with soft := true, syncing := some i }
  | .ack => { o with soft := true, hard := true }
  | _ => o

end Session

namespace System

def init (len : Nat) (chains : Nat → Nat) : System :=
  ⟨Participant.init len, fun k => ⟨chains k, false, false, false, none, [], []⟩⟩

def setSession (s : System) (k : Nat) (o : Session) : System :=
  { s with sessions := Function.update s.sessions k o }

def peerSends (s : System) (act : StreamAct) (k : Nat) (msg : Msg) : Option System :=
  (s.peer.step act).map fun p =>
    { peer := p, sessions := Function.update s.sessions k
        { s.sessions k with toOrch := (s.sessions k).toOrch ++ [msg] } }

def step (s : System) : SyncAct → Option System
  | .start k =>
    let o := s.sessions k
    if o.started then none
    else some (s.setSession k { o with started := true, toPeer := o.toPeer ++ [.announce o.chain] })
  | .grow k => some (s.setSession k { s.sessions k with chain := (s.sessions k).chain + 1 })
  | .orchRecv k =>
    let o := s.sessions k
    match o.syncing, o.toOrch with
    | none, msg :: rest => some (s.setSession k ({ o with toOrch := rest }.handle msg))
    | _, _ => none
  | .orchSend k =>
    let o := s.sessions k
    match o.syncing with
    | some i =>
      some (s.setSession k (if i < o.chain then
        { o with toPeer := o.toPeer ++ [.reply i], syncing := some (i + 1) }
        else { o with syncing := none }))
    | none => none
  | .orchSendFails k =>
    let o := s.sessions k
    match o.syncing with
    | some i => if i < o.chain then some (s.setSession k { o with syncing := none, hard := true })
      else none
    | none => none
  | .peer (.recv k msg) =>
    match (s.sessions k).toPeer with
    | head :: rest =>
      if head = msg then
        (s.peer.step (.recv k msg)).map fun p =>
          { peer := p, sessions := Function.update s.sessions k
              { s.sessions k with toPeer := rest } }
      else none
    | [] => none
  | .peer (.request k) => s.peerSends (.request k) k (.request s.peer.len)
  | .peer (.ack k) => s.peerSends (.ack k) k .ack
  | .peer .commit => none
  | .peer act => (s.peer.step act).map fun p => { s with peer := p }

@[simp] theorem setSession_peer (s : System) (k : Nat) (o : Session) :
    (s.setSession k o).peer = s.peer := rfl

@[simp] theorem setSession_sessions (s : System) (k : Nat) (o : Session) :
    (s.setSession k o).sessions = Function.update s.sessions k o := rfl

section
variable {s t : System} {k : Nat}

theorem step_start (h : s.step (.start k) = some t) :
    (s.sessions k).started = false ∧ t = s.setSession k { s.sessions k with
      started := true, toPeer := (s.sessions k).toPeer ++ [.announce (s.sessions k).chain] } := by
  simp only [System.step, Option.ite_none_left_eq_some, Option.some.injEq] at h
  exact ⟨by simpa using h.1, h.2.symm⟩

theorem step_orchRecv (h : s.step (.orchRecv k) = some t) :
    ∃ msg rest, (s.sessions k).syncing = none ∧ (s.sessions k).toOrch = msg :: rest ∧
      t = s.setSession k ({ s.sessions k with toOrch := rest }.handle msg) := by
  simp only [System.step] at h
  split at h
  · rename_i msg rest hsy hto; cases h; exact ⟨msg, rest, hsy, hto, rfl⟩
  · cases h

theorem step_orchSend (h : s.step (.orchSend k) = some t) :
    ∃ i, (s.sessions k).syncing = some i ∧ t = s.setSession k (if i < (s.sessions k).chain then
      { s.sessions k with toPeer := (s.sessions k).toPeer ++ [.reply i], syncing := some (i + 1) }
      else { s.sessions k with syncing := none }) := by
  simp only [System.step] at h
  split at h
  · rename_i i hsy; cases h; exact ⟨i, hsy, rfl⟩
  · cases h

theorem step_orchSendFails (h : s.step (.orchSendFails k) = some t) :
    ∃ i, (s.sessions k).syncing = some i ∧
      t = s.setSession k { s.sessions k with syncing := none, hard := true } := by
  simp only [System.step] at h
  split at h
  · rename_i i hsy
    simp only [Option.ite_none_right_eq_some, Option.some.injEq] at h
    exact ⟨i, hsy, h.2.symm⟩
  · cases h

theorem step_recv {msg : Msg} (h : s.step (.peer (.recv k msg)) = some t) :
    ∃ rest, (s.sessions k).toPeer = msg :: rest ∧ s.peer.step (.recv k msg) = some t.peer ∧
      t.sessions = Function.update s.sessions k { s.sessions k with toPeer := rest } := by
  simp only [System.step] at h
  split at h
  · rename_i head rest hq
    simp only [Option.ite_none_right_eq_some] at h
    obtain ⟨rfl, h⟩ := h
    obtain ⟨p, hp, rfl⟩ := Option.map_eq_some'.mp h
    exact ⟨rest, hq, hp, rfl⟩
  · cases h

theorem step_peerSends {act : StreamAct} {msg : Msg} (h : s.peerSends act k msg = some t) :
    s.peer.step act = some t.peer ∧ t.sessions = Function.update s.sessions k
      { s.sessions k with toOrch := (s.sessions k).toOrch ++ [msg] } := by
  obtain ⟨p, hp, rfl⟩ := Option.map_eq_some'.mp h
  exact ⟨hp, rfl⟩

theorem step_alone {act : StreamAct}
    (h : (s.peer.step act).map (fun p => { s with peer := p }) = some t) :
    s.peer.step act = some t.peer ∧ t.sessions = s.sessions := by
  obtain ⟨p, hp, rfl⟩ := Option.map_eq_some'.mp h
  exact ⟨hp, rfl⟩

end

end System

namespace Session

variable (len : Nat) (o : Session)

def Quiet : Prop :=
  o.started = true ∧ o.toOrch = [] ∧ o.syncing = none ∧ o.soft = false ∧ o.toPeer = []

def Pending : Prop := o.toOrch = [.request len] ∧ o.syncing = none ∧ o.soft = false ∧ o.toPeer = []

def Serving : Prop :=
  o.toOrch = [] ∧ o.soft = true ∧ ∃ j, o.toPeer = (List.range' len j).map .reply ∧
    (o.syncing = none ∨ o.syncing = some (len + j))

end Session

def Agrees (len : Nat) (o : Session) : StreamPc → Prop
  | .waiting => o.toOrch = [] ∧ o.syncing = none ∧ o.soft = false ∧
      (o.started = false ∧ o.toPeer = [] ∨ o.started = true ∧ ∃ m, o.toPeer = [.announce m])
  | .announced _ | .locking _ | .locked _ | .storing _ | .requesting _ => o.Quiet
  | .catching _ => o.started = true ∧ (o.Pending len ∨ o.Serving len)
  | .acking _ _ | .returned => True

structure Synced (len0 : Nat) (s : System) : Prop where
  peer : s.peer.Inv
  caught : s.peer.caught = List.range' len0 s.peer.caught.length
  len : s.peer.len = len0 + s.peer.caught.length
  agrees : ∀ k, Agrees s.peer.len (s.sessions k) (s.peer.streams k)

section
variable {len : Nat} {o : Session} {pc : StreamPc}

theorem agrees_len {len' : Nat} (hpc : ∀ m, pc ≠ .catching m) (h : Agrees len o pc) :
    Agrees len' o pc := by
  cases pc with
  | catching m => exact absurd rfl (hpc m)
  | _ => exact h

theorem agrees_start (hs : o.started = false) (h : Agrees len o pc) (c : Nat) :
    Agrees len { o with started := true, toPeer := o.toPeer ++ [.announce c] } pc := by
  cases pc <;> simp_all [Agrees, Session.Quiet]

theorem agrees_grow (h : Agrees len o pc) (c : Nat) : Agrees len { o with chain := c } pc := by
  cases pc <;> exact h

theorem agrees_orchRecv {msg : Msg} {rest : List Msg} (hs : o.syncing = none)
    (ho : o.toOrch = msg :: rest) (h : Agrees len o pc) :
    Agrees len ({ o with toOrch := rest }.handle msg) pc := by
  cases pc with
  | waiting | announced | locking | locked | storing | requesting =>
    simp_all [Agrees, Session.Quiet]
  | catching m =>
    obtain ⟨hst, ⟨hto, -, hsoft, hpeer⟩ | ⟨hto, -⟩⟩ := h
    · rw [hto, List.cons.injEq] at ho
      obtain ⟨rfl, rfl⟩ := ho
      have : { o with toOrch := [] }.handle (.request len) =
          { o with toOrch := [], soft := true, syncing := some len } := by
        simp [Session.handle, hsoft]
      rw [this]
      exact ⟨hst, .inr ⟨rfl, rfl, 0, by simp [hpeer], .inr rfl⟩⟩
    · simp [hto] at ho
  | acking | returned => trivial

theorem agrees_orchSend {i : Nat} (hs : o.syncing = some i) (h : Agrees len o pc) :
    Agrees len (if i < o.chain then
      { o with toPeer := o.toPeer ++ [.reply i], syncing := some (i + 1) }
      else { o with syncing := none }) pc := by
  cases pc with
  | waiting | announced | locking | locked | storing | requesting =>
    simp_all [Agrees, Session.Quiet]
  | catching m =>
    obtain ⟨hst, ⟨-, hsy, -⟩ | ⟨hto, hsoft, j, hpeer, hsy⟩⟩ := h
    · simp [hs] at hsy
    · have hi : i = len + j := by simpa [hs] using hsy
      subst hi
      split
      · exact ⟨hst, .inr ⟨hto, hsoft, j + 1, by simp [hpeer, List.range'_concat], .inr rfl⟩⟩
      · exact ⟨hst, .inr ⟨hto, hsoft, j, hpeer, .inl rfl⟩⟩
  | acking | returned => trivial

theorem agrees_orchSendFails {i : Nat} (hs : o.syncing = some i) (h : Agrees len o pc) :
    Agrees len { o with syncing := none, hard := true } pc := by
  cases pc with
  | waiting | announced | locking | locked | storing | requesting =>
    simp_all [Agrees, Session.Quiet]
  | catching m =>
    obtain ⟨hst, ⟨-, hsy, -⟩ | ⟨hto, hsoft, j, hpeer, -⟩⟩ := h
    · simp [hs] at hsy
    · exact ⟨hst, .inr ⟨hto, hsoft, j, hpeer, .inl rfl⟩⟩
  | acking | returned => trivial

end

section
variable {len0 : Nat}

theorem synced_init (len0 : Nat) (chains : Nat → Nat) : Synced len0 (System.init len0 chains) where
  peer := Participant.inv_init len0
  caught := rfl
  len := rfl
  agrees _ := by simp [System.init, Participant.init, Agrees]

theorem Synced.setSession {s : System} (hs : Synced len0 s) {k : Nat} {o : Session}
    (hk : Agrees s.peer.len o (s.peer.streams k)) : Synced len0 (s.setSession k o) where
  peer := hs.peer
  caught := hs.caught
  len := hs.len
  agrees j := by
    by_cases hj : j = k
    · subst hj; simpa using hk
    · simpa [Function.update_noteq hj] using hs.agrees j

theorem Synced.move {s t : System} (hs : Synced len0 s) {k : Nat} {pc : StreamPc}
    (hinv : t.peer.Inv)
    (hpeer : t.peer.len = s.peer.len ∧ t.peer.caught = s.peer.caught ∧
      t.peer.streams = Function.update s.peer.streams k pc)
    (hsessions : ∀ j, j ≠ k → t.sessions j = s.sessions j)
    (hk : Agrees s.peer.len (t.sessions k) pc) : Synced len0 t where
  peer := hinv
  caught := by rw [hpeer.2.1]; exact hs.caught
  len := by rw [hpeer.1, hpeer.2.1]; exact hs.len
  agrees j := by
    rw [hpeer.1, hpeer.2.2]
    by_cases hj : j = k
    · subst hj; simpa using hk
    · rw [Function.update_noteq hj, hsessions j hj]; exact hs.agrees j

theorem Synced.catchUp {s : System} (hs : Synced len0 s) {k m : Nat} {rest : List Msg}
    (hk : s.peer.streams k = .catching m) (hserv : (s.sessions k).Serving s.peer.len)
    (hpeer : (s.sessions k).toPeer = .reply s.peer.len :: rest) :
    Synced len0 ⟨s.peer.catchUp k s.peer.len,
      Function.update s.sessions k { s.sessions k with toPeer := rest }⟩ := by
  obtain ⟨hto, hsoft, j, hpj, hsy⟩ := hserv
  obtain ⟨j, rfl⟩ : ∃ j', j = j' + 1 := ⟨j - 1, by cases j <;> simp_all⟩
  rw [hpj, List.range'_succ, List.map_cons, List.cons.injEq] at hpeer
  have hlock : (s.peer.streams k).holdsLock := by simp [hk, StreamPc.holdsLock]
  have hst : (s.sessions k).started := (hk ▸ hs.agrees k : Agrees _ _ (.catching m)).1
  rw [Participant.catchUp_len]
  refine ⟨hs.peer.grow _, ?_, ?_, fun j' => ?_⟩
  · dsimp only
    rw [List.length_append, List.length_singleton, List.range'_concat, ← hs.caught, hs.len]
    simp
  · dsimp only
    rw [List.length_append, List.length_singleton, hs.len]
    omega
  · dsimp only
    by_cases hj : j' = k
    · subst hj
      simp only [Function.update_same, hk]
      exact ⟨hst, .inr ⟨hto, hsoft, j, hpeer.2.symm, by
        rcases hsy with hsy | hsy <;> simp [hsy]; omega⟩⟩
    · simp only [Function.update_noteq hj]
      refine agrees_len (fun m' hm' => hj (hs.peer.lock_unique ?_ hlock)) (hs.agrees j')
      simp [hm', StreamPc.holdsLock]

theorem Synced.step {s t : System} (hs : Synced len0 s) {a : SyncAct} (h : s.step a = some t) :
    Synced len0 t := by
  cases a with
  | start k =>
    obtain ⟨hst, rfl⟩ := System.step_start h
    exact hs.setSession (agrees_start hst (hs.agrees k) _)
  | grow k =>
    cases h
    exact hs.setSession (agrees_grow (hs.agrees k) _)
  | orchRecv k =>
    obtain ⟨msg, rest, hsy, hto, rfl⟩ := System.step_orchRecv h
    exact hs.setSession (agrees_orchRecv hsy hto (hs.agrees k))
  | orchSend k =>
    obtain ⟨i, hsy, rfl⟩ := System.step_orchSend h
    exact hs.setSession (agrees_orchSend hsy (hs.agrees k))
  | orchSendFails k =>
    obtain ⟨i, hsy, rfl⟩ := System.step_orchSendFails h
    exact hs.setSession (agrees_orchSendFails hsy (hs.agrees k))
  | peer act =>
    cases act with
    | recv k msg =>
      obtain ⟨rest, hq, hp, hsess⟩ := System.step_recv h
      have hag := hs.agrees k
      rcases Participant.step_recv hp with ⟨m, hk, rfl, hpeer⟩ | ⟨hk, hne, -⟩ |
        ⟨m, i, hk, rfl, -, hpeer⟩ | ⟨m, hk, hne, -, -⟩
      · rw [hk] at hag
        obtain ⟨hto, hsy, hsoft, ⟨-, hnil⟩ | ⟨hst, m', hann⟩⟩ := hag
        · simp [hnil] at hq
        · rw [hann, List.cons.injEq] at hq
          refine hs.move (hs.peer.step hp) (by rw [hpeer]; exact ⟨rfl, rfl, rfl⟩)
            (fun j hj => by rw [hsess, Function.update_noteq hj]) ?_
          rw [hsess, Function.update_same, ← hq.2]
          exact ⟨hst, hto, hsy, hsoft, rfl⟩
      · rw [hk] at hag
        obtain ⟨-, -, -, ⟨-, hnil⟩ | ⟨-, m', hann⟩⟩ := hag
        · simp [hnil] at hq
        · rw [hann, List.cons.injEq] at hq
          exact absurd hq.1.symm (hne m')
      · rw [hk] at hag
        obtain ⟨-, ⟨-, -, -, hnil⟩ | hserv⟩ := hag
        · simp [hnil] at hq
        · have hi : i = s.peer.len := by
            obtain ⟨-, -, j, hpj, -⟩ := hserv
            cases j <;> simp_all [List.range'_succ]
          subst hi
          obtain ⟨p, q⟩ := t
          simp only at hpeer hsess
          subst hpeer hsess
          exact hs.catchUp hk hserv hq
      · rw [hk] at hag
        obtain ⟨-, ⟨-, -, -, hnil⟩ | ⟨-, -, j, hpj, -⟩⟩ := hag
        · simp [hnil] at hq
        · cases j with
          | zero => simp [hpj] at hq
          | succ j =>
            rw [hpj, List.range'_succ, List.map_cons, List.cons.injEq] at hq
            exact absurd hq.1.symm (hne _)
    | request k =>
      obtain ⟨hp, hsess⟩ := System.step_peerSends h
      obtain ⟨m, hk, hpeer⟩ := Participant.step_request hp
      obtain ⟨hst, hto, hsy, hsoft, hnil⟩ : (s.sessions k).Quiet := by
        simpa [hk, Agrees] using hs.agrees k
      refine hs.move (hs.peer.step hp) (by rw [hpeer]; exact ⟨rfl, rfl, rfl⟩)
            (fun j hj => by rw [hsess, Function.update_noteq hj]) ?_
      rw [hsess, Function.update_same]
      exact ⟨hst, .inl ⟨by simp [hto], hsy, hsoft, hnil⟩⟩
    | ack k =>
      obtain ⟨hp, hsess⟩ := System.step_peerSends h
      obtain ⟨-, -, -, hpeer⟩ := Participant.step_ack hp
      exact hs.move (hs.peer.step hp) (by rw [hpeer]; exact ⟨rfl, rfl, rfl⟩)
        (fun j hj => by rw [hsess, Function.update_noteq hj]) (by trivial)
    | commit => cases h
    | compare k =>
      obtain ⟨hp, hsess⟩ := System.step_alone h
      obtain ⟨m, hk, hpeer⟩ := Participant.step_compare hp
      have hq : (s.sessions k).Quiet := by simpa [hk, Agrees] using hs.agrees k
      refine hs.move (hs.peer.step hp) (by rw [hpeer]; exact ⟨rfl, rfl, rfl⟩)
        (fun j _ => by rw [hsess]) ?_
      rw [hsess]
      split
      · trivial
      · exact hq
    | lock k =>
      obtain ⟨hp, hsess⟩ := System.step_alone h
      obtain ⟨m, hk, -, hpeer⟩ := Participant.step_lock hp
      have hq : (s.sessions k).Quiet := by simpa [hk, Agrees] using hs.agrees k
      exact hs.move (hs.peer.step hp) (by rw [hpeer]; exact ⟨rfl, rfl, rfl⟩)
        (fun j _ => by rw [hsess]) (by rw [hsess]; exact hq)
    | load k =>
      obtain ⟨hp, hsess⟩ := System.step_alone h
      obtain ⟨m, hk, hpeer⟩ := Participant.step_load hp
      have hq : (s.sessions k).Quiet := by simpa [hk, Agrees] using hs.agrees k
      refine hs.move (hs.peer.step hp) (by rw [hpeer]; exact ⟨rfl, rfl, rfl⟩)
        (fun j _ => by rw [hsess]) ?_
      rw [hsess]
      split <;> exact hq
    | storeLatest k =>
      obtain ⟨hp, hsess⟩ := System.step_alone h
      obtain ⟨m, hk, hpeer⟩ := Participant.step_storeLatest hp
      have hq : (s.sessions k).Quiet := by simpa [hk, Agrees] using hs.agrees k
      exact hs.move (hs.peer.step hp) (by rw [hpeer]; exact ⟨rfl, rfl, rfl⟩)
        (fun j _ => by rw [hsess]) (by rw [hsess]; exact hq)
    | loopEnd k =>
      obtain ⟨hp, hsess⟩ := System.step_alone h
      obtain ⟨m, -, -, hpeer⟩ := Participant.step_loopEnd hp
      exact hs.move (hs.peer.step hp) (by rw [hpeer]; exact ⟨rfl, rfl, rfl⟩)
        (fun j _ => by rw [hsess]) (by trivial)
    | fail k =>
      obtain ⟨hp, hsess⟩ := System.step_alone h
      obtain ⟨-, hpeer⟩ := Participant.step_fail hp
      exact hs.move (hs.peer.step hp) (by rw [hpeer]; exact ⟨rfl, rfl, rfl⟩)
        (fun j _ => by rw [hsess]) (by trivial)
    | getLatest v =>
      obtain ⟨hp, hsess⟩ := System.step_alone h
      obtain ⟨-, hpeer⟩ := Participant.getLatest_eq hp
      obtain ⟨p, q⟩ := t
      simp only at hpeer hsess
      subst hpeer hsess
      exact hs

theorem synced_run {chains : Nat → Nat} {trace : List SyncAct} {s : System}
    (h : run System.step (System.init len0 chains) trace = some s) : Synced len0 s :=
  run_invariant (Synced len0) (fun _ _ _ hs h => hs.step h) trace (synced_init len0 chains) h

end

def SyncAct.peerAct : SyncAct → Option StreamAct
  | .peer act => some act
  | _ => none

theorem System.step_proj {s t : System} {a : SyncAct} (h : s.step a = some t) :
    run Participant.step s.peer a.peerAct.toList = some t.peer := by
  cases a with
  | start k => obtain ⟨-, rfl⟩ := System.step_start h; rfl
  | grow k => cases h; rfl
  | orchRecv k => obtain ⟨-, -, -, -, rfl⟩ := System.step_orchRecv h; rfl
  | orchSend k => obtain ⟨-, -, rfl⟩ := System.step_orchSend h; rfl
  | orchSendFails k => obtain ⟨-, -, rfl⟩ := System.step_orchSendFails h; rfl
  | peer act =>
    have hp : s.peer.step act = some t.peer := by
      cases act with
      | recv k msg => obtain ⟨-, -, hp, -⟩ := System.step_recv h; exact hp
      | request k => exact (System.step_peerSends h).1
      | ack k => exact (System.step_peerSends h).1
      | commit => cases h
      | _ => exact (System.step_alone h).1
    simp [SyncAct.peerAct, hp]

theorem System.run_proj {s t : System} :
    ∀ {trace : List SyncAct}, run System.step s trace = some t →
      run Participant.step s.peer (trace.filterMap SyncAct.peerAct) = some t.peer
  | [], h => by cases h; rfl
  | a :: trace, h => by
    obtain ⟨u, hu, hrun⟩ := Option.bind_eq_some.mp h
    have hproj := System.step_proj hu
    have hrest := System.run_proj hrun
    cases ha : a.peerAct with
    | none =>
      simp only [ha, Option.toList_none, run_nil, Option.some.injEq] at hproj
      simpa [ha, hproj] using hrest
    | some act =>
      rw [ha] at hproj
      simp only [List.filterMap_cons, ha, run_cons]
      simp only [Option.toList_some, run_cons, run_nil, Option.bind_some] at hproj
      rw [hproj]
      exact hrest

/-- With every orchestrator's messages delivered in order and `CatchUp` the only writer of
the store, the participant passes to `CatchUp` the links `len0, len0 + 1, ...` in order,
each at the store's length, and an invocation sends `SyncAck` only once the store holds
its announced index. -/
theorem catch_up_in_order {len0 : Nat} {chains : Nat → Nat} {trace : List SyncAct} {s : System}
    (h : run System.step (System.init len0 chains) trace = some s) :
    s.peer.caught = List.range' len0 s.peer.caught.length ∧
      s.peer.len = len0 + s.peer.caught.length ∧
      ∀ k t, s.step (.peer (.ack k)) = some t →
        ∃ m held, s.peer.streams k = .acking m held ∧ m ≤ s.peer.len := by
  have hs := synced_run h
  refine ⟨hs.caught, hs.len, fun k t ht => ?_⟩
  obtain ⟨m, held, hk, -⟩ := Participant.step_ack (System.step_peerSends ht).1
  exact ⟨m, held, hk, hs.peer.acking k m held hk⟩

theorem catch_up_in_order_two_blocks :
    ∃ s, run System.step (System.init 0 fun _ => 2)
        [.start 0, .peer (.recv 0 (.announce 2)), .peer (.compare 0), .peer (.lock 0),
          .peer (.load 0), .peer (.storeLatest 0), .peer (.request 0), .orchRecv 0, .orchSend 0,
          .orchSend 0, .peer (.recv 0 (.reply 0)), .peer (.recv 0 (.reply 1)), .peer (.loopEnd 0)]
        = some s ∧
      s.peer.caught = List.range' 0 s.peer.caught.length ∧
      s.peer.len = 0 + s.peer.caught.length ∧
      ∀ k t, s.step (.peer (.ack k)) = some t →
        ∃ m held, s.peer.streams k = .acking m held ∧ m ≤ s.peer.len := by
  obtain ⟨s, h⟩ : ∃ s, run System.step (System.init 0 fun _ => 2)
      [.start 0, .peer (.recv 0 (.announce 2)), .peer (.compare 0), .peer (.lock 0),
        .peer (.load 0), .peer (.storeLatest 0), .peer (.request 0), .orchRecv 0, .orchSend 0,
        .orchSend 0, .peer (.recv 0 (.reply 0)), .peer (.recv 0 (.reply 1)), .peer (.loopEnd 0)]
      = some s := by exact ⟨_, rfl⟩
  exact ⟨s, h, catch_up_in_order h⟩

end Dela.Blocksync
