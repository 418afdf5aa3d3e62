import Dela.Trace
import Mathlib.Logic.Function.Basic
import Mathlib.Data.List.Sort

/-!
The participant side of block synchronisation (core/ordering/cosipbft/blocksync):
the `handler.Stream` invocations, one per orchestrator stream, the `latest` counter that
`NewSynchronizer` shares between the handler and `GetLatest`, and the block store that
`CatchUp` extends. A link is reduced to its index. Every message the environment may
deliver, and every block another writer may store, is a step. `CatchUp` belongs to the
consensus state machine, outside this repository: it appends the block exactly when the
link's index is `blocks.Len()`, and otherwise returns an error, which ends the invocation.
-/
namespace Dela.Blocksync

inductive Msg where
  /-- `types.SyncMessage` with its latest index -/
  | announce (latest : Nat)
  /-- `types.SyncRequest` with its `from` -/
  | request (fromIndex : Nat)
  /-- `types.SyncReply`, the index of its link -/
  | reply (index : Nat)
  /-- `types.SyncAck` -/
  | ack
  deriving DecidableEq, Repr

inductive StreamPc where
  | waiting
  | announced (m : Nat)
  | locking (m : Nat)
  | locked (m : Nat)
  | storing (m : Nat)
  | requesting (m : Nat)
  | catching (m : Nat)
  | acking (m : Nat) (held : Bool)
  | returned
  deriving DecidableEq, Repr

namespace StreamPc

def holdsLock : StreamPc → Bool
  | .locked _ | .storing _ | .requesting _ | .catching _ => true
  | .acking _ held => held
  | _ => false

def canFail : StreamPc → Bool
  | .waiting | .requesting _ | .catching _ | .acking _ _ => true
  | _ => false

def stored : StreamPc → Option Nat
  | .requesting m | .catching m | .acking m true => some m
  | _ => none

def index : StreamPc → Option Nat
  | .announced m | .locking m | .locked m | .storing m | .requesting m | .catching m
  | .acking m _ => some m
  | .waiting | .returned => none

end StreamPc

structure Participant where
  len : Nat
  latest : Nat
  lock : Option Nat
  caught : List Nat
  streams : Nat → StreamPc

inductive StreamAct where
  | recv (k : Nat) (msg : Msg)
  | compare (k : Nat)
  | lock (k : Nat)
  | load (k : Nat)
  | storeLatest (k : Nat)
  | request (k : Nat)
  | loopEnd (k : Nat)
  | ack (k : Nat)
  | fail (k : Nat)
  | commit
  | getLatest (v : Nat)
  deriving DecidableEq, Repr

namespace Participant

def init (len : Nat) : Participant := ⟨len, len, none, [], fun _ => .waiting⟩

def setPc (p : Participant) (k : Nat) (pc : StreamPc) : Participant :=
  { p with streams := Function.update p.streams k pc }

def leave (p : Participant) (k : Nat) : Participant :=
  { p.setPc k .returned with lock := if (p.streams k).holdsLock then none else p.lock }

def catchUp (p : Participant) (k i : Nat) : Participant :=
  if i = p.len then { p with len := p.len + 1, caught := p.caught ++ [i] }
  else { p.leave k with caught := p.caught ++ [i] }

theorem catchUp_len (p : Participant) (k : Nat) :
    p.catchUp k p.len = { p with len := p.len + 1, caught := p.caught ++ [p.len] } :=
  if_pos rfl

def recv (p : Participant) (k : Nat) (msg : Msg) : Option Participant :=
  match p.streams k, msg with
  | .waiting, .announce m => some (p.setPc k (.announced m))
  | .waiting, _ => some p
  | .catching m, .reply i => if p.len < m then some (p.catchUp k i) else none
  | .catching m, _ => if p.len < m then some p else none
  | _, _ => none

def step (p : Participant) : StreamAct → Option Participant
  | .recv k msg => p.recv k msg
  | .compare k =>
    match p.streams k with
    | .announced m => some (p.setPc k (if m ≤ p.len then .acking m false else .locking m))
    | _ => none
  | .lock k =>
    match p.streams k with
    | .locking m =>
      if p.lock = none then some { p.setPc k (.locked m) with lock := some k } else none
    | _ => none
  | .load k =>
    match p.streams k with
    | .locked m => some (p.setPc k (if m > p.latest then .storing m else .requesting m))
    | _ => none
  | .storeLatest k =>
    match p.streams k with
    | .storing m => some { p.setPc k (.requesting m) with latest := m }
    | _ => none
  | .request k =>
    match p.streams k with
    | .requesting m => some (p.setPc k (.catching m))
    | _ => none
  | .loopEnd k =>
    match p.streams k with
    | .catching m => if m ≤ p.len then some (p.setPc k (.acking m true)) else none
    | _ => none
  | .ack k =>
    match p.streams k with
    | .acking _ _ => some (p.leave k)
    | _ => none
  | .fail k => if (p.streams k).canFail then some (p.leave k) else none
  | .commit => some { p with len := p.len + 1 }
  | .getLatest v => if v = p.latest then some p else none

section
variable (p : Participant) (k : Nat) (pc : StreamPc)

@[simp] theorem setPc_len : (p.setPc k pc).len = p.len := rfl
@[simp] theorem setPc_latest : (p.setPc k pc).latest = p.latest := rfl
@[simp] theorem setPc_lock : (p.setPc k pc).lock = p.lock := rfl
@[simp] theorem setPc_caught : (p.setPc k pc).caught = p.caught := rfl
@[simp] theorem setPc_streams : (p.setPc k pc).streams = Function.update p.streams k pc := rfl
@[simp] theorem leave_eq :
    p.leave k = { p.setPc k .returned with
      lock := if (p.streams k).holdsLock then none else p.lock } := rfl

end

def observed : List StreamAct → List Nat :=
  List.filterMap fun | .getLatest v => some v | _ => none

section
variable {p q : Participant} {k : Nat}

theorem step_recv {msg : Msg} (h : p.step (.recv k msg) = some q) :
    (∃ m, p.streams k = .waiting ∧ msg = .announce m ∧ q = p.setPc k (.announced m)) ∨
      (p.streams k = .waiting ∧ (∀ m, msg ≠ .announce m) ∧ q = p) ∨
      (∃ m i, p.streams k = .catching m ∧ msg = .reply i ∧ p.len < m ∧ q = p.catchUp k i) ∨
      (∃ m, p.streams k = .catching m ∧ (∀ i, msg ≠ .reply i) ∧ p.len < m ∧ q = p) := by
  simp only [Participant.step, recv] at h
  split at h
  · rename_i m hk; cases h; exact .inl ⟨m, hk, rfl, rfl⟩
  · rename_i hk hne; cases h; exact .inr (.inl ⟨hk, hne, rfl⟩)
  · rename_i m i hk
    simp only [Option.ite_none_right_eq_some, Option.some.injEq] at h
    obtain ⟨hm, rfl⟩ := h
    exact .inr (.inr (.inl ⟨m, i, hk, rfl, hm, rfl⟩))
  · rename_i m hk hne
    simp only [Option.ite_none_right_eq_some, Option.some.injEq] at h
    obtain ⟨hm, rfl⟩ := h
    exact .inr (.inr (.inr ⟨m, hk, hne, hm, rfl⟩))
  · cases h

theorem step_compare (h : p.step (.compare k) = some q) :
    ∃ m, p.streams k = .announced m ∧
      q = p.setPc k (if m ≤ p.len then .acking m false else .locking m) := by
  simp only [Participant.step] at h
  split at h
  · rename_i m hk; cases h; exact ⟨m, hk, rfl⟩
  · cases h

theorem step_lock (h : p.step (.lock k) = some q) :
    ∃ m, p.streams k = .locking m ∧ p.lock = none ∧
      q = { p.setPc k (.locked m) with lock := some k } := by
  simp only [Participant.step] at h
  split at h
  · rename_i m hk
    simp only [Option.ite_none_right_eq_some, Option.some.injEq] at h
    obtain ⟨hfree, rfl⟩ := h
    exact ⟨m, hk, hfree, rfl⟩
  · cases h

theorem step_load (h : p.step (.load k) = some q) :
    ∃ m, p.streams k = .locked m ∧
      q = p.setPc k (if m > p.latest then .storing m else .requesting m) := by
  simp only [Participant.step] at h
  split at h
  · rename_i m hk; cases h; exact ⟨m, hk, rfl⟩
  · cases h

theorem step_storeLatest (h : p.step (.storeLatest k) = some q) :
    ∃ m, p.streams k = .storing m ∧ q = { p.setPc k (.requesting m) with latest := m } := by
  simp only [Participant.step] at h
  split at h
  · rename_i m hk; cases h; exact ⟨m, hk, rfl⟩
  · cases h

theorem step_request (h : p.step (.request k) = some q) :
    ∃ m, p.streams k = .requesting m ∧ q = p.setPc k (.catching m) := by
  simp only [Participant.step] at h
  split at h
  · rename_i m hk; cases h; exact ⟨m, hk, rfl⟩
  · cases h

theorem step_loopEnd (h : p.step (.loopEnd k) = some q) :
    ∃ m, p.streams k = .catching m ∧ m ≤ p.len ∧ q = p.setPc k (.acking m true) := by
  simp only [Participant.step] at h
  split at h
  · rename_i m hk
    simp only [Option.ite_none_right_eq_some, Option.some.injEq] at h
    obtain ⟨hm, rfl⟩ := h
    exact ⟨m, hk, hm, rfl⟩
  · cases h

theorem step_ack (h : p.step (.ack k) = some q) :
    ∃ m held, p.streams k = .acking m held ∧ q = p.leave k := by
  simp only [Participant.step] at h
  split at h
  · rename_i m held hk; cases h; exact ⟨m, held, hk, rfl⟩
  · cases h

theorem step_fail (h : p.step (.fail k) = some q) : (p.streams k).canFail ∧ q = p.leave k := by
  simp only [Participant.step, Option.ite_none_right_eq_some, Option.some.injEq] at h
  exact ⟨h.1, h.2.symm⟩

theorem getLatest_eq {v : Nat} (h : p.step (.getLatest v) = some q) : v = p.latest ∧ q = p := by
  simp only [Participant.step, Option.ite_none_right_eq_some, Option.some.injEq] at h
  exact ⟨h.1, h.2.symm⟩

end

structure Inv (p : Participant) : Prop where
  lock : ∀ k, p.lock = some k ↔ (p.streams k).holdsLock
  storing : ∀ k m, p.streams k = .storing m → p.latest < m
  stored : ∀ k m, (p.streams k).stored = some m → m ≤ p.latest
  acking : ∀ k m held, p.streams k = .acking m held → m ≤ p.len

theorem inv_init (len : Nat) : Inv (init len) where
  lock := by simp [init, StreamPc.holdsLock]
  storing := by simp [init]
  stored := by simp [init, StreamPc.stored]
  acking := by simp [init]

theorem Inv.lock_unique {p : Participant} (hp : Inv p) {j k : Nat}
    (hj : (p.streams j).holdsLock) (hk : (p.streams k).holdsLock) : j = k := by
  have := (hp.lock j).mpr hj
  rw [(hp.lock k).mpr hk] at this
  exact (Option.some.inj this).symm

theorem Inv.setPc {p q : Participant} (hp : Inv p) {k : Nat} {pc : StreamPc}
    (hstreams : q.streams = Function.update p.streams k pc)
    (hlock : q.lock =
      if pc.holdsLock then some k else if (p.streams k).holdsLock then none else p.lock)
    (hfree : pc.holdsLock → (p.streams k).holdsLock = false → p.lock = none)
    (hlatest : p.latest ≤ q.latest) (hmine : q.latest ≠ p.latest → (p.streams k).holdsLock)
    (hlen : p.len ≤ q.len)
    (hstoring : ∀ m, pc = .storing m → q.latest < m)
    (hstored : ∀ m, pc.stored = some m → m ≤ q.latest)
    (hacking : ∀ m held, pc = .acking m held → m ≤ q.len) : Inv q := by
  have hother : ∀ j, j ≠ k → (p.streams j).holdsLock →
      ¬pc.holdsLock ∧ (p.streams k).holdsLock = false := fun j hj hl => by
    have hk : (p.streams k).holdsLock = false := by
      by_contra hk
      exact hj (hp.lock_unique hl (by simpa using hk))
    exact ⟨fun hpc => absurd (hfree hpc hk) (by simp [(hp.lock j).mpr hl]), hk⟩
  constructor
  · intro j
    rw [hlock, hstreams]
    by_cases hj : j = k
    · subst hj
      by_cases hpc : pc.holdsLock
      · simp [hpc]
      · by_cases hk : (p.streams j).holdsLock
        · simp [hpc, hk]
        · simp [hpc, hk, hp.lock j]
    · rw [Function.update_noteq hj]
      by_cases hl : (p.streams j).holdsLock
      · obtain ⟨hpc, hk⟩ := hother j hj hl
        simp [hpc, hk, (hp.lock j).mpr hl, hl]
      · by_cases hpc : pc.holdsLock
        · simp [hpc, Ne.symm hj, hl]
        · by_cases hk : (p.streams k).holdsLock
          · simp [hpc, hk, hl]
          · simp [hpc, hk, hp.lock j, hl]
  · intro j m hm
    rw [hstreams] at hm
    by_cases hj : j = k
    · subst hj; exact hstoring m (by simpa using hm)
    · rw [Function.update_noteq hj] at hm
      have hlt := hp.storing j m hm
      by_cases he : q.latest = p.latest
      · omega
      · exact absurd (hother j hj (by simp [hm, StreamPc.holdsLock])).2 (by simp [hmine he])
  · intro j m hm
    rw [hstreams] at hm
    by_cases hj : j = k
    · subst hj; exact hstored m (by simpa using hm)
    · rw [Function.update_noteq hj] at hm
      exact (hp.stored j m hm).trans hlatest
  · intro j m held hm
    rw [hstreams] at hm
    by_cases hj : j = k
    · subst hj; exact hacking m held (by simpa using hm)
    · rw [Function.update_noteq hj] at hm
      exact (hp.acking j m held hm).trans hlen

theorem Inv.leave {p : Participant} (hp : Inv p) (k : Nat) : Inv (p.leave k) :=
  hp.setPc rfl (by simp [StreamPc.holdsLock]) (by simp [StreamPc.holdsLock]) le_rfl
    (fun h => absurd rfl h) le_rfl (by simp) (by simp [StreamPc.stored]) (by simp)

theorem Inv.move {p : Participant} (hp : Inv p) {k : Nat} {pc : StreamPc}
    (hlock : pc.holdsLock = (p.streams k).holdsLock)
    (hstoring : ∀ m, pc = .storing m → p.latest < m)
    (hstored : ∀ m, pc.stored = some m → m ≤ p.latest)
    (hacking : ∀ m held, pc = .acking m held → m ≤ p.len) : Inv (p.setPc k pc) := by
  refine hp.setPc rfl ?_ (fun h h' => by simp_all) le_rfl (fun h => absurd rfl h) le_rfl
    hstoring hstored hacking
  rw [hlock]
  by_cases hl : (p.streams k).holdsLock
  · simp [hl, (hp.lock k).mpr hl]
  · simp [hl]

theorem Inv.grow {p : Participant} (hp : Inv p) (caught : List Nat) :
    Inv { p with len := p.len + 1, caught := caught } where
  lock := hp.lock
  storing := hp.storing
  stored := hp.stored
  acking k m held h := (hp.acking k m held h).trans (Nat.le_succ _)

theorem Inv.catchUp {p : Participant} (hp : Inv p) (k i : Nat) : Inv (p.catchUp k i) := by
  unfold Participant.catchUp
  split
  · exact hp.grow _
  · exact { hp.leave k with }

theorem Inv.step {p q : Participant} (hp : Inv p) {act : StreamAct}
    (h : p.step act = some q) : Inv q := by
  cases act with
  | recv k msg =>
    rcases step_recv h with ⟨m, hk, -, rfl⟩ | ⟨-, -, rfl⟩ | ⟨m, i, -, -, -, rfl⟩ | ⟨-, -, -, -, rfl⟩
    · exact hp.move (by simp [hk, StreamPc.holdsLock]) (by simp) (by simp [StreamPc.stored])
        (by simp)
    · exact hp
    · exact hp.catchUp k i
    · exact hp
  | compare k =>
    obtain ⟨m, hk, rfl⟩ := step_compare h
    split
    · exact hp.move (by simp [hk, StreamPc.holdsLock]) (by simp) (by simp [StreamPc.stored])
        (by simpa)
    · exact hp.move (by simp [hk, StreamPc.holdsLock]) (by simp) (by simp [StreamPc.stored])
        (by simp)
  | lock k =>
    obtain ⟨m, -, hfree, rfl⟩ := step_lock h
    exact hp.setPc rfl (by simp [StreamPc.holdsLock]) (fun _ _ => hfree) le_rfl
      (fun h => absurd rfl h) le_rfl (by simp) (by simp [StreamPc.stored]) (by simp)
  | load k =>
    obtain ⟨m, hk, rfl⟩ := step_load h
    split
    · exact hp.move (by simp [hk, StreamPc.holdsLock]) (by simpa) (by simp [StreamPc.stored])
        (by simp)
    · exact hp.move (by simp [hk, StreamPc.holdsLock]) (by simp) (by simp_all [StreamPc.stored])
        (by simp)
  | storeLatest k =>
    obtain ⟨m, hk, rfl⟩ := step_storeLatest h
    have hl : (p.streams k).holdsLock := by simp [hk, StreamPc.holdsLock]
    exact hp.setPc rfl (by simp [StreamPc.holdsLock, hl, (hp.lock k).mpr hl]) (by simp [hl])
      (hp.storing k m hk).le (fun _ => hl) le_rfl (by simp) (by simp [StreamPc.stored])
      (by simp)
  | request k =>
    obtain ⟨m, hk, rfl⟩ := step_request h
    exact hp.move (by simp [hk, StreamPc.holdsLock]) (by simp)
      (by simpa [StreamPc.stored] using hp.stored k m (by simp [hk, StreamPc.stored])) (by simp)
  | loopEnd k =>
    obtain ⟨m, hk, hm, rfl⟩ := step_loopEnd h
    exact hp.move (by simp [hk, StreamPc.holdsLock]) (by simp)
      (by simpa [StreamPc.stored] using hp.stored k m (by simp [hk, StreamPc.stored]))
      (by simpa using hm)
  | ack k =>
    obtain ⟨-, -, -, rfl⟩ := step_ack h
    exact hp.leave k
  | fail k =>
    obtain ⟨-, rfl⟩ := step_fail h
    exact hp.leave k
  | commit =>
    cases h
    exact hp.grow p.caught
  | getLatest v =>
    obtain ⟨-, rfl⟩ := getLatest_eq h
    exact hp

theorem inv_run {len : Nat} {trace : List StreamAct} {p : Participant}
    (h : run step (init len) trace = some p) : Inv p :=
  run_invariant Inv (fun _ _ _ hp h => hp.step h) trace (inv_init len) h

theorem latest_step {p q : Participant} {act : StreamAct} (h : p.step act = some q) :
    q.latest = p.latest ∨ ∃ k m, act = .storeLatest k ∧ p.streams k = .storing m ∧ q.latest = m := by
  cases act with
  | storeLatest k =>
    simp only [Participant.step] at h
    split at h <;> cases h
    exact .inr ⟨k, _, rfl, ‹_›, rfl⟩
  | _ =>
    left
    simp only [Participant.step, recv, catchUp] at h
    repeat' split at h
    all_goals simp only [Option.some.injEq, reduceCtorEq] at h
    all_goals subst h; simp

theorem Inv.latest_le {p q : Participant} (hp : Inv p) {act : StreamAct}
    (h : p.step act = some q) : p.latest ≤ q.latest := by
  rcases latest_step h with he | ⟨k, m, -, hk, he⟩
  · exact he.ge
  · exact he ▸ (hp.storing k m hk).le

theorem Inv.observed_run {p q : Participant} (hp : Inv p) :
    ∀ {trace : List StreamAct}, run Participant.step p trace = some q →
      p.latest ≤ q.latest ∧ (∀ v ∈ observed trace, p.latest ≤ v ∧ v ≤ q.latest) ∧
        (observed trace).Pairwise (· ≤ ·)
  | [], h => by cases h; simp [observed]
  | act :: trace, h => by
    obtain ⟨t, ht, hrun⟩ := Option.bind_eq_some.mp h
    obtain ⟨hle, hin, hpw⟩ := (hp.step ht).observed_run hrun
    have hpt := hp.latest_le ht
    refine ⟨hpt.trans hle, ?_⟩
    cases act with
    | getLatest v =>
      obtain ⟨rfl, rfl⟩ := getLatest_eq ht
      simp only [observed, List.filterMap_cons, List.mem_cons, List.pairwise_cons] at hin hpw ⊢
      exact ⟨fun w hw => by rcases hw with rfl | hw <;> [omega; exact hin w hw],
        fun w hw => (hin w hw).1, hpw⟩
    | _ =>
      simp only [observed, List.filterMap_cons] at hin hpw ⊢
      exact ⟨fun w hw => ⟨hpt.trans (hin w hw).1, (hin w hw).2⟩, hpw⟩

/-- `GetLatest` never goes back, and once an invocation has done its compare-and-store
with announced index `m`, every later `GetLatest` returns at least `m`. -/
theorem get_latest_monotone (len : Nat) {pre post : List StreamAct} {p q : Participant}
    (hp : run step (init len) pre = some p) (hq : run step p post = some q) :
    (observed (pre ++ post)).Pairwise (· ≤ ·) ∧
      ∀ k m, (p.streams k).stored = some m → ∀ v ∈ observed post, m ≤ v := by
  have hrun : run step (init len) (pre ++ post) = some q := by rw [run_append, hp]; exact hq
  refine ⟨((inv_init len).observed_run hrun).2.2, fun k m hm v hv => ?_⟩
  have hinv := inv_run hp
  exact (hinv.stored k m hm).trans (((hinv.observed_run hq).2.1 v hv).1)

theorem get_latest_monotone_after_store :
    ∃ p q, run step (init 0) [.recv 0 (.announce 5), .compare 0, .lock 0, .load 0,
        .storeLatest 0] = some p ∧ run step p [.commit, .getLatest 5] = some q ∧
      ((observed ([.recv 0 (.announce 5), .compare 0, .lock 0, .load 0, .storeLatest 0] ++
          [.commit, .getLatest 5])).Pairwise (· ≤ ·) ∧
        ∀ k m, (p.streams k).stored = some m → ∀ v ∈ observed [.commit, .getLatest 5], m ≤ v) :=
  ⟨_, _, rfl, rfl, get_latest_monotone 0 rfl rfl⟩

/-- An invocation announced 5 over an empty store holds the lock, and `GetLatest`
still returns 0: the store on `latest` comes after `h.Lock()`. -/
theorem get_latest_below_after_lock :
    (run step (init 0) [.recv 0 (.announce 5), .compare 0, .lock 0, .getLatest 0]).map
      (fun p => (p.lock, p.streams 0, p.len)) = some (some 0, .locked 5, 0) :=
  rfl

def announced : List StreamAct → List Nat :=
  List.filterMap fun | .recv _ (.announce m) => some m | _ => none

theorem index_step {p q : Participant} {act : StreamAct} (h : p.step act = some q) (k : Nat) :
    (q.streams k).index = (p.streams k).index ∨ (q.streams k).index = none ∨
      ∃ m, act = .recv k (.announce m) ∧ (q.streams k).index = some m := by
  have upd : ∀ (j : Nat) (pc : StreamPc), q.streams = Function.update p.streams j pc →
      (pc.index = (p.streams j).index ∨ pc.index = none) →
      (q.streams k).index = (p.streams k).index ∨ (q.streams k).index = none := by
    intro j pc hq hpc
    rw [hq]
    by_cases hj : k = j
    · subst hj; simpa using hpc
    · exact .inl (by rw [Function.update_noteq hj])
  cases act with
  | recv j msg =>
    rcases step_recv h with ⟨m, hk, rfl, rfl⟩ | ⟨-, -, rfl⟩ | ⟨m, i, hk, -, -, rfl⟩ | ⟨-, -, -, -, rfl⟩
    · by_cases hj : k = j
      · subst hj; exact .inr (.inr ⟨m, rfl, by simp [StreamPc.index]⟩)
      · exact .inl (by simp [Function.update_noteq hj])
    · exact .inl rfl
    · by_cases hi : i = p.len
      · rw [hi, catchUp_len]; exact .inl rfl
      · have hq : (p.catchUp j i).streams = Function.update p.streams j .returned := by
          simp [catchUp, hi]
        exact (upd j .returned hq (.inr rfl)).imp_right .inl
    · exact .inl rfl
  | compare j =>
    obtain ⟨m, hk, rfl⟩ := step_compare h
    exact (upd j _ rfl (.inl (by split <;> simp [hk, StreamPc.index]))).imp_right .inl
  | lock j =>
    obtain ⟨m, hk, -, rfl⟩ := step_lock h
    exact (upd j _ rfl (.inl (by simp [hk, StreamPc.index]))).imp_right .inl
  | load j =>
    obtain ⟨m, hk, rfl⟩ := step_load h
    exact (upd j _ rfl (.inl (by split <;> simp [hk, StreamPc.index]))).imp_right .inl
  | storeLatest j =>
    obtain ⟨m, hk, rfl⟩ := step_storeLatest h
    exact (upd j _ rfl (.inl (by simp [hk, StreamPc.index]))).imp_right .inl
  | request j =>
    obtain ⟨m, hk, rfl⟩ := step_request h
    exact (upd j _ rfl (.inl (by simp [hk, StreamPc.index]))).imp_right .inl
  | loopEnd j =>
    obtain ⟨m, hk, -, rfl⟩ := step_loopEnd h
    exact (upd j _ rfl (.inl (by simp [hk, StreamPc.index]))).imp_right .inl
  | ack j =>
    obtain ⟨-, -, -, rfl⟩ := step_ack h
    exact (upd j .returned (by simp) (.inr rfl)).imp_right .inl
  | fail j =>
    obtain ⟨-, rfl⟩ := step_fail h
    exact (upd j .returned (by simp) (.inr rfl)).imp_right .inl
  | commit => cases h; exact .inl rfl
  | getLatest v => obtain ⟨-, rfl⟩ := getLatest_eq h; exact .inl rfl

structure Heard (len : Nat) (trace : List StreamAct) (p : Participant) : Prop where
  latest : p.latest = len ∨ p.latest ∈ announced trace
  reported : ∀ v ∈ observed trace, v = len ∨ v ∈ announced trace
  index : ∀ k m, (p.streams k).index = some m → m ∈ announced trace

theorem Heard.step {len : Nat} {trace : List StreamAct} {p q : Participant} (hp : Heard len trace p)
    {act : StreamAct} (h : p.step act = some q) : Heard len (trace ++ [act]) q := by
  have hmono : ∀ m ∈ announced trace, m ∈ announced (trace ++ [act]) := fun m hm => by
    rw [announced, List.filterMap_append]; exact List.mem_append_left _ hm
  refine ⟨?_, fun v hv => ?_, fun k m hm => ?_⟩
  · rcases latest_step h with he | ⟨k, m, -, hk, he⟩
    · rw [he]; exact hp.latest.imp_right (hmono _)
    · exact .inr (he ▸ hmono m (hp.index k m (by simp [hk, StreamPc.index])))
  · rcases List.mem_append.mp (by rwa [Participant.observed, List.filterMap_append] at hv) with hv | hv
    · exact (hp.reported v hv).imp_right (hmono v)
    · cases act with
      | getLatest w =>
        obtain ⟨rfl, rfl⟩ := getLatest_eq h
        simp only [List.filterMap_cons, List.filterMap_nil, List.mem_singleton] at hv
        subst hv
        exact hp.latest.imp_right (hmono _)
      | _ => simp at hv
  · rcases index_step h k with he | he | ⟨m', rfl, he⟩
    · exact hmono m (hp.index k m (he ▸ hm))
    · simp [he] at hm
    · rw [he] at hm; cases hm; simp [announced]

/-- `GetLatest` reports no index that nobody announced: every value it returns, and
`latest` itself, is the store's length at `NewSynchronizer` or the index of a
`SyncMessage` that an invocation received. -/
theorem latest_announced {len : Nat} {trace : List StreamAct} {p : Participant}
    (h : run step (init len) trace = some p) :
    (p.latest = len ∨ p.latest ∈ announced trace) ∧
      ∀ v ∈ observed trace, v = len ∨ v ∈ announced trace := by
  suffices Heard len trace p from ⟨this.latest, this.reported⟩
  induction trace using List.reverseRecOn generalizing p with
  | nil => cases h; exact ⟨.inl rfl, by simp [observed], by simp [init, StreamPc.index]⟩
  | append_singleton trace a ih =>
    obtain ⟨u, hu, hstep⟩ := run_snoc_eq_some h
    exact (ih hu).step hstep

theorem latest_announced_after_store :
    ∃ p, run step (init 0) [.recv 0 (.announce 5), .compare 0, .lock 0, .load 0,
        .storeLatest 0, .getLatest 5] = some p ∧
      ((p.latest = 0 ∨ p.latest ∈ announced [.recv 0 (.announce 5), .compare 0, .lock 0,
          .load 0, .storeLatest 0, .getLatest 5]) ∧
        ∀ v ∈ observed [.recv 0 (.announce 5), .compare 0, .lock 0, .load 0, .storeLatest 0,
          .getLatest 5], v = 0 ∨ v ∈ announced [.recv 0 (.announce 5), .compare 0, .lock 0,
            .load 0, .storeLatest 0, .getLatest 5]) :=
  ⟨_, rfl, latest_announced rfl⟩

end Participant

end Dela.Blocksync
