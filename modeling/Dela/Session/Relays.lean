import Dela.Trace
import Mathlib.Logic.Function.Basic

/-!
The relays of a session: `setupRelay`, the drain goroutine it starts, and the
`Wait` of `Close` (mino/minogrpc/session). `setupRelay` holds `s.Lock()` from its
start to its return; the drain goroutine takes it only around its `delete`;
`connMgr` serialises `Acquire` and `Release` on its own lock, so each is one step.
Each `sendTo` goroutine that calls `setupRelay` is a call record, and the drain
goroutine of a call that installed a relay lives in the same record. A call is `locked`
once it holds `s.Lock()`, then `acquired` and `opened` (its stream waits for the header),
and it returns `found`, `installed` or `failed`; `inserted`, after `s.relays[addr] =
newRelay` and before `s.Add(1)`, is a state of `stepSplit` alone, since `step` makes the
insert, `s.Add(1)` and the start of the drain goroutine one step.
-/
namespace Dela.Session

inductive SetupPc where
  | spawned
  | locked
  | acquired
  | opened
  | inserted
  | found
  | installed
  | failed
  deriving DecidableEq, Repr

inductive DrainPc where
  | draining
  | exiting
  | deleted
  | released
  | done
  deriving DecidableEq, Repr

structure Call (A : Type) where
  addr : A
  pc : SetupPc
  drain : Option DrainPc
  deriving DecidableEq, Repr

inductive ClosePc where
  | idle
  | waiting
  | returned
  deriving DecidableEq, Repr

@[ext] structure Relays (A : Type) where
  relays : A → Option Nat
  wg : Nat
  acquired : A → Nat
  released : A → Nat
  lock : Option Nat
  calls : List (Call A)
  close : ClosePc

inductive RelayAct (A : Type) where
  | spawn (addr : A)
  | lock (i : Nat)
  | found (i : Nat)
  | handshakeFails (i : Nat)
  | dialFails (i : Nat)
  | acquire (i : Nat)
  | streamFails (i : Nat)
  | openStream (i : Nat)
  | headerFails (i : Nat)
  | insert (i : Nat)
  | install (i : Nat)
  | exit (i : Nat)
  | delete (i : Nat)
  | release (i : Nat)
  | done (i : Nat)
  | closeErrs
  | closeReturns
  deriving DecidableEq, Repr

variable {A : Type}

namespace Relays

def init : Relays A := ⟨fun _ => none, 0, fun _ => 0, fun _ => 0, none, [], .idle⟩

def callAt (s : Relays A) (i : Nat) (pc : SetupPc) (k : Call A → Option (Relays A)) :
    Option (Relays A) :=
  match s.calls[i]? with
  | some c => if c.pc = pc then k c else none
  | none => none

def drainAt (s : Relays A) (i : Nat) (d : DrainPc) (k : Call A → Option (Relays A)) :
    Option (Relays A) :=
  match s.calls[i]? with
  | some c => if c.drain = some d then k c else none
  | none => none

def setCall (s : Relays A) (i : Nat) (c : Call A) : Relays A :=
  { s with calls := s.calls.set i c }

def leave (s : Relays A) (i : Nat) (c : Call A) (pc : SetupPc) : Relays A :=
  { s.setCall i { c with pc := pc } with lock := none }

section
variable (s : Relays A) (i : Nat) (c : Call A)

@[simp] theorem setCall_relays : (s.setCall i c).relays = s.relays := rfl
@[simp] theorem setCall_wg : (s.setCall i c).wg = s.wg := rfl
@[simp] theorem setCall_acquired : (s.setCall i c).acquired = s.acquired := rfl
@[simp] theorem setCall_released : (s.setCall i c).released = s.released := rfl
@[simp] theorem setCall_lock : (s.setCall i c).lock = s.lock := rfl
@[simp] theorem setCall_calls : (s.setCall i c).calls = s.calls.set i c := rfl
@[simp] theorem setCall_close : (s.setCall i c).close = s.close := rfl
@[simp] theorem leave_eq (pc : SetupPc) :
    s.leave i c pc = { s.setCall i { c with pc := pc } with lock := none } := rfl

end

variable [DecidableEq A]

def step (s : Relays A) : RelayAct A → Option (Relays A)
  | .spawn addr => some { s with calls := s.calls ++ [⟨addr, .spawned, none⟩] }
  | .lock i => s.callAt i .spawned fun c =>
    if s.lock = none then some { s.setCall i { c with pc := .locked } with lock := some i }
    else none
  | .found i => s.callAt i .locked fun c =>
    if (s.relays c.addr).isSome then some (s.leave i c .found) else none
  | .handshakeFails i => s.callAt i .locked fun c =>
    if s.relays c.addr = none then some (s.leave i c .failed) else none
  | .dialFails i => s.callAt i .locked fun c =>
    if s.relays c.addr = none then some (s.leave i c .failed) else none
  | .acquire i => s.callAt i .locked fun c =>
    if s.relays c.addr = none then
      some { s.setCall i { c with pc := .acquired } with
        acquired := Function.update s.acquired c.addr (s.acquired c.addr + 1) }
    else none
  | .streamFails i => s.callAt i .acquired fun c =>
    some { s.leave i c .failed with
      released := Function.update s.released c.addr (s.released c.addr + 1) }
  | .openStream i => s.callAt i .acquired fun c => some (s.setCall i { c with pc := .opened })
  | .headerFails i => s.callAt i .opened fun c =>
    some { s.leave i c .failed with
      released := Function.update s.released c.addr (s.released c.addr + 1) }
  | .insert _ => none
  -- the insert into `s.relays`, `s.Add(1)`, the `go` and the `Unlock` as one step
  | .install i => s.callAt i .opened fun c =>
    some { s.setCall i { c with pc := .installed, drain := some .draining } with
      relays := Function.update s.relays c.addr (some i), wg := s.wg + 1, lock := none }
  | .exit i => s.drainAt i .draining fun c => some (s.setCall i { c with drain := some .exiting })
  | .delete i => s.drainAt i .exiting fun c =>
    if s.lock = none then
      some { s.setCall i { c with drain := some .deleted } with
        relays := Function.update s.relays c.addr none }
    else none
  | .release i => s.drainAt i .deleted fun c =>
    some { s.setCall i { c with drain := some .released } with
      released := Function.update s.released c.addr (s.released c.addr + 1) }
  | .done i => s.drainAt i .released fun c =>
    some { s.setCall i { c with drain := some .done } with wg := s.wg - 1 }
  | .closeErrs => if s.close = .idle then some { s with close := .waiting } else none
  | .closeReturns =>
    if s.close = .waiting ∧ s.wg = 0 then some { s with close := .returned } else none

end Relays

namespace Call

variable (c : Call A)

def holdsEntry : Bool := c.drain = some .draining || c.drain = some .exiting

def holdsConn : Bool :=
  c.pc = .acquired || c.pc = .opened || c.holdsEntry || c.drain = some .deleted

def live : Bool := c.drain.isSome && c.drain ≠ some .done

def locking : Bool := c.pc = .locked || c.pc = .acquired || c.pc = .opened

end Call

namespace Relays

variable [DecidableEq A]

structure Inv (s : Relays A) : Prop where
  entry : ∀ a i, s.relays a = some i →
    ∃ c : Call A, s.calls[i]? = some c ∧ c.addr = a ∧ c.holdsEntry
  entry_held : ∀ (i : Nat) (c : Call A), s.calls[i]? = some c → c.holdsEntry →
    s.relays c.addr = some i
  wg : s.wg = s.calls.countP Call.live
  conns : ∀ a, s.acquired a = s.released a + s.calls.countP fun c => c.addr = a && c.holdsConn
  lock : ∀ i, s.lock = some i ↔ ∃ c : Call A, s.calls[i]? = some c ∧ c.locking
  vacant : ∀ (i : Nat) (c : Call A), s.calls[i]? = some c → (c.pc = .acquired ∨ c.pc = .opened) →
    s.relays c.addr = none
  drain : ∀ (i : Nat) (c : Call A), s.calls[i]? = some c → (c.drain.isSome ↔ c.pc = .installed)
  merged : ∀ (i : Nat) (c : Call A), s.calls[i]? = some c → c.pc ≠ .inserted

theorem inv_init : Inv (init : Relays A) where
  entry := by simp [init]
  entry_held := by simp [init]
  wg := rfl
  conns := by simp [init]
  lock := by simp [init]
  vacant := by simp [init]
  drain := by simp [init]
  merged := by simp [init]

omit [DecidableEq A] in
theorem countP_set_add {p : Call A → Bool} {l : List (Call A)} {i : Nat} {c d : Call A}
    (hc : l[i]? = some c) :
    (l.set i d).countP p + (if p c then 1 else 0) = l.countP p + (if p d then 1 else 0) := by
  obtain ⟨hi, rfl⟩ := List.getElem?_eq_some_iff.mp hc
  have := List.boole_getElem_le_countP p l i hi
  rw [List.countP_set p l i d hi]
  omega

theorem lock_unique {s : Relays A} (hs : Inv s) {i j : Nat} {c d : Call A}
    (hc : s.calls[i]? = some c) (hd : s.calls[j]? = some d) (hcl : c.locking) (hdl : d.locking) :
    i = j := by
  have h1 := (hs.lock i).mpr ⟨c, hc, hcl⟩
  have h2 := (hs.lock j).mpr ⟨d, hd, hdl⟩
  simpa [h1] using h2

omit [DecidableEq A] in
theorem getElem?_set_of {l : List (Call A)} {i j : Nat} {c c' : Call A} (hc : l[i]? = some c) :
    (l.set i c')[j]? = if j = i then some c' else l[j]? := by
  have hi : i < l.length := (List.getElem?_eq_some_iff.mp hc).1
  by_cases hj : j = i
  · subst hj; simp [hi]
  · simp [List.getElem?_set, Ne.symm hj, hj]

theorem Inv.setCall {s t : Relays A} (hs : Inv s) {i : Nat} {c c' : Call A}
    (hc : s.calls[i]? = some c) (hcalls : t.calls = s.calls.set i c')
    (haddr : c'.addr = c.addr)
    (hrelays : ∀ a, t.relays a =
      if a = c.addr ∧ c'.holdsEntry ≠ c.holdsEntry then (if c'.holdsEntry then some i else none)
      else s.relays a)
    (hfresh : c'.holdsEntry → c.holdsEntry = false → c.locking ∧ s.relays c.addr = none)
    (hwg : t.wg + (if c.live then 1 else 0) = s.wg + (if c'.live then 1 else 0))
    (hconns : ∀ a, t.acquired a + s.released a + (if c.addr = a && c.holdsConn then 1 else 0) =
      s.acquired a + t.released a + (if c.addr = a && c'.holdsConn then 1 else 0))
    (hlock : t.lock = if c'.locking then some i else if c.locking then none else s.lock)
    (hlockfree : c'.locking → c.locking = false → s.lock = none)
    (hvacant : (c'.pc = .acquired ∨ c'.pc = .opened) → s.relays c.addr = none)
    (hdrain : c'.drain.isSome ↔ c'.pc = .installed) (hmerged : c'.pc ≠ .inserted) : Inv t := by
  have hget : ∀ j, t.calls[j]? = if j = i then some c' else s.calls[j]? := fun j => by
    rw [hcalls, getElem?_set_of hc]
  have hentry' : (c'.pc = .acquired ∨ c'.pc = .opened) → c'.holdsEntry = false := by
    intro h
    have : c'.drain = none := by rcases h with h | h <;> simpa [h] using hdrain
    simp [Call.holdsEntry, this]
  constructor
  · intro a j h
    rw [hrelays] at h
    split at h
    · rename_i ha
      split at h <;> cases h
      exact ⟨c', by simp [hget], by rw [haddr, ha.1], by assumption⟩
    · rename_i ha
      obtain ⟨d, hd, hda, hde⟩ := hs.entry a j h
      by_cases hj : j = i
      · subst hj
        cases hc.symm.trans hd
        refine ⟨c', by simp [hget], by rw [haddr, hda], ?_⟩
        by_contra hne
        exact ha ⟨hda.symm, by simp [hde, hne]⟩
      · exact ⟨d, by simp [hget, hj, hd], hda, hde⟩
  · intro j d hd hde
    rw [hget] at hd
    split at hd
    · cases hd
      rename_i hj
      subst hj
      rw [hrelays, haddr]
      by_cases hce : c.holdsEntry
      · simp [hce, hde, hs.entry_held _ c hc hce]
      · simp [hce, hde]
    · rename_i hj
      have hs' := hs.entry_held j d hd hde
      rw [hrelays]
      split
      · rename_i ha
        rw [ha.1] at hs'
        by_cases hce : c.holdsEntry
        · exact absurd (Option.some.inj (hs'.symm.trans (hs.entry_held i c hc hce))) hj
        · have hce' : c'.holdsEntry := by simpa [hce] using ha.2
          simp [(hfresh hce' (by simpa using hce)).2] at hs'
      · exact hs'
  · have := countP_set_add (p := Call.live) (d := c') hc
    rw [hs.wg, hcalls] at *
    omega
  · intro a
    have := countP_set_add (p := fun c => c.addr = a && c.holdsConn) (d := c') hc
    have h2 := hs.conns a
    have h3 := hconns a
    rw [hcalls]
    simp only [haddr] at this
    omega
  · intro j
    rw [hlock]
    constructor
    · intro h
      split at h
      · cases h; exact ⟨c', by simp [hget], by assumption⟩
      · split at h
        · cases h
        · rename_i hcl
          obtain ⟨d, hd, hdl⟩ := (hs.lock j).mp h
          by_cases hj : j = i
          · subst hj; cases hc.symm.trans hd; exact absurd hdl hcl
          · exact ⟨d, by simp [hget, hj, hd], hdl⟩
    · rintro ⟨d, hd, hdl⟩
      rw [hget] at hd
      split at hd
      · rename_i hj; cases hd; subst hj; simp [hdl]
      · rename_i hj
        have hsl := (hs.lock j).mpr ⟨d, hd, hdl⟩
        split
        · rename_i hc'l
          by_cases hcl : c.locking
          · exact absurd (lock_unique hs hc hd hcl hdl) (Ne.symm hj)
          · simp [hlockfree hc'l (by simpa using hcl)] at hsl
        · split
          · rename_i _ hcl
            exact absurd (lock_unique hs hc hd hcl hdl) (Ne.symm hj)
          · exact hsl
  · intro j d hd hdp
    rw [hget] at hd
    split at hd
    · cases hd
      rename_i hj
      have he := hentry' hdp
      rw [hrelays, haddr]
      by_cases hce : c.holdsEntry
      · simp [hce, he]
      · simp [hce, he, hvacant hdp]
    · rename_i hj
      have hs' := hs.vacant j d hd hdp
      rw [hrelays]
      split
      · rename_i ha
        split
        · rename_i hce'
          have hdl : d.locking := by rcases hdp with h | h <;> simp [Call.locking, h]
          by_cases hce : c.holdsEntry
          · exact absurd (hce'.trans hce.symm) ha.2
          · exact absurd (lock_unique hs hc hd (hfresh hce' (by simpa using hce)).1 hdl) (Ne.symm hj)
        · rfl
      · exact hs'
  · intro j d hd
    rw [hget] at hd
    split at hd
    · cases hd; exact hdrain
    · exact hs.drain j d hd
  · intro j d hd
    rw [hget] at hd
    split at hd
    · cases hd; exact hmerged
    · exact hs.merged j d hd

omit [DecidableEq A] in
theorem callAt_eq_some {s t : Relays A} {i : Nat} {pc : SetupPc} {k : Call A → Option (Relays A)} :
    s.callAt i pc k = some t ↔ ∃ c, s.calls[i]? = some c ∧ c.pc = pc ∧ k c = some t := by
  unfold callAt
  split
  · rename_i c hc; by_cases hp : c.pc = pc <;> simp [hc, hp]
  · rename_i hn; simp [hn]

omit [DecidableEq A] in
theorem drainAt_eq_some {s t : Relays A} {i : Nat} {d : DrainPc} {k : Call A → Option (Relays A)} :
    s.drainAt i d k = some t ↔ ∃ c, s.calls[i]? = some c ∧ c.drain = some d ∧ k c = some t := by
  unfold drainAt
  split
  · rename_i c hc; by_cases hp : c.drain = some d <;> simp [hc, hp]
  · rename_i hn; simp [hn]

theorem Inv.spawn {s : Relays A} (hs : Inv s) (addr : A) :
    Inv { s with calls := s.calls ++ [⟨addr, .spawned, none⟩] } := by
  have hnone : s.calls[s.calls.length]? = none := List.getElem?_eq_none (le_refl _)
  constructor
  · intro a j h
    obtain ⟨d, hd, hda, hde⟩ := hs.entry a j h
    exact ⟨d, getElem?_concat_eq_some.mpr (.inl hd), hda, hde⟩
  · intro j d hd hde
    rcases getElem?_concat_eq_some.mp hd with hd | ⟨rfl, rfl⟩
    · exact hs.entry_held j d hd hde
    · simp [Call.holdsEntry] at hde
  · simp [hs.wg, Call.live]
  · intro a; simp [hs.conns a, Call.holdsConn, Call.holdsEntry]
  · intro j
    rw [hs.lock j]
    constructor
    · rintro ⟨d, hd, hdl⟩; exact ⟨d, getElem?_concat_eq_some.mpr (.inl hd), hdl⟩
    · rintro ⟨d, hd, hdl⟩
      rcases getElem?_concat_eq_some.mp hd with hd | ⟨rfl, rfl⟩
      · exact ⟨d, hd, hdl⟩
      · simp [Call.locking] at hdl
  · intro j d hd hdp
    rcases getElem?_concat_eq_some.mp hd with hd | ⟨rfl, rfl⟩
    · exact hs.vacant j d hd hdp
    · simp at hdp
  · intro j d hd
    rcases getElem?_concat_eq_some.mp hd with hd | ⟨rfl, rfl⟩
    · exact hs.drain j d hd
    · simp
  · intro j d hd
    rcases getElem?_concat_eq_some.mp hd with hd | ⟨rfl, rfl⟩
    · exact hs.merged j d hd
    · simp

theorem Inv.callAt_some {s t : Relays A} (hs : Inv s) {i : Nat} {pc : SetupPc}
    {k : Call A → Option (Relays A)} (hpc : pc ≠ .installed) (h : s.callAt i pc k = some t) :
    ∃ addr, s.calls[i]? = some ⟨addr, pc, none⟩ ∧ k ⟨addr, pc, none⟩ = some t := by
  obtain ⟨⟨addr, pc, drain⟩, hc, rfl, hk⟩ := callAt_eq_some.mp h
  obtain rfl : drain = none := by simpa [hpc] using hs.drain i _ hc
  exact ⟨addr, hc, hk⟩

theorem Inv.drainAt_some {s t : Relays A} (hs : Inv s) {i : Nat} {d : DrainPc}
    {k : Call A → Option (Relays A)} (h : s.drainAt i d k = some t) :
    ∃ addr, s.calls[i]? = some ⟨addr, .installed, some d⟩ ∧
      k ⟨addr, .installed, some d⟩ = some t := by
  obtain ⟨⟨addr, pc, drain⟩, hc, rfl, hk⟩ := drainAt_eq_some.mp h
  obtain rfl : pc = .installed := by simpa using hs.drain i _ hc
  exact ⟨addr, hc, hk⟩

theorem Inv.step {s t : Relays A} (hs : Inv s) {act : RelayAct A} (h : step s act = some t) :
    Inv t := by
  cases act with
  | spawn addr => cases h; exact hs.spawn addr
  | insert i => cases h
  | lock i =>
    obtain ⟨addr, hc, hk⟩ := hs.callAt_some (by decide) h
    obtain ⟨hfree, ⟨⟩⟩ := Option.ite_none_right_eq_some.mp hk
    exact hs.setCall hc rfl rfl (by simp [Call.holdsEntry]) (by simp [Call.holdsEntry])
      (by simp [Call.live]) (by simp [Call.holdsConn, Call.holdsEntry]) (by simp [Call.locking])
      (by simp [hfree]) (by simp) (by simp) (by simp)
  | found i | handshakeFails i | dialFails i =>
    obtain ⟨addr, hc, hk⟩ := hs.callAt_some (by decide) h
    obtain ⟨-, ⟨⟩⟩ := Option.ite_none_right_eq_some.mp hk
    exact hs.setCall hc rfl rfl (by simp [Call.holdsEntry]) (by simp [Call.holdsEntry])
      (by simp [Call.live]) (by simp [Call.holdsConn, Call.holdsEntry])
      (by simp [leave, Call.locking]) (by simp [Call.locking]) (by simp) (by simp) (by simp)
  | acquire i =>
    obtain ⟨addr, hc, hk⟩ := hs.callAt_some (by decide) h
    obtain ⟨hvac, ⟨⟩⟩ := Option.ite_none_right_eq_some.mp hk
    refine hs.setCall hc rfl rfl (by simp [Call.holdsEntry]) (by simp [Call.holdsEntry])
      (by simp [Call.live]) (fun a => ?_) (by simp [Call.locking, (hs.lock i).mpr ⟨_, hc, rfl⟩])
      (by simp [Call.locking]) (fun _ => hvac) (by simp) (by simp)
    by_cases ha : addr = a
    · subst ha; simp [setCall, Call.holdsConn, Call.holdsEntry]; omega
    · simp [setCall, Function.update_apply, Ne.symm ha, ha]
  | streamFails i | headerFails i =>
    obtain ⟨addr, hc, ⟨⟩⟩ := hs.callAt_some (by decide) h
    refine hs.setCall hc rfl rfl (by simp [leave, setCall, Call.holdsEntry])
      (by simp [Call.holdsEntry]) (by simp [leave, setCall, Call.live]) (fun a => ?_)
      (by simp [leave, setCall, Call.locking]) (by simp [Call.locking]) (by simp) (by simp) (by simp)
    by_cases ha : addr = a
    · subst ha; simp [leave, setCall, Call.holdsConn, Call.holdsEntry]; omega
    · simp [leave, setCall, Function.update_apply, Ne.symm ha, ha]
  | openStream i =>
    obtain ⟨addr, hc, ⟨⟩⟩ := hs.callAt_some (by decide) h
    exact hs.setCall hc rfl rfl (by simp [setCall, Call.holdsEntry]) (by simp [Call.holdsEntry])
      (by simp [setCall, Call.live]) (by simp [setCall, Call.holdsConn, Call.holdsEntry])
      (by simp [setCall, Call.locking, (hs.lock i).mpr ⟨_, hc, rfl⟩]) (by simp [Call.locking])
      (fun _ => hs.vacant i _ hc (.inl rfl)) (by simp) (by simp)
  | install i =>
    obtain ⟨addr, hc, ⟨⟩⟩ := hs.callAt_some (by decide) h
    refine hs.setCall hc rfl rfl (fun a => ?_) (fun _ _ => ⟨rfl, hs.vacant i _ hc (.inr rfl)⟩)
      (by simp [setCall, Call.live]) (by simp [setCall, Call.holdsConn, Call.holdsEntry])
      (by simp [setCall, Call.locking]) (by simp [Call.locking]) (by simp) (by simp) (by simp)
    by_cases ha : a = addr
    · subst ha; simp [setCall, Call.holdsEntry]
    · simp [setCall, Call.holdsEntry, ha]
  | exit i =>
    obtain ⟨addr, hc, ⟨⟩⟩ := hs.drainAt_some h
    exact hs.setCall hc rfl rfl (by simp [setCall, Call.holdsEntry])
      (by simp [Call.holdsEntry]) (by simp [setCall, Call.live])
      (by simp [setCall, Call.holdsConn, Call.holdsEntry]) (by simp [setCall, Call.locking])
      (by simp [Call.locking]) (by simp) (by simp) (by simp)
  | delete i =>
    obtain ⟨addr, hc, hk⟩ := hs.drainAt_some h
    obtain ⟨hfree, ⟨⟩⟩ := Option.ite_none_right_eq_some.mp hk
    refine hs.setCall hc rfl rfl (fun a => ?_) (by simp [Call.holdsEntry])
      (by simp [setCall, Call.live]) (by simp [setCall, Call.holdsConn, Call.holdsEntry])
      (by simp [setCall, Call.locking, hfree]) (by simp [Call.locking]) (by simp) (by simp) (by simp)
    by_cases ha : a = addr
    · subst ha; simp [setCall, Call.holdsEntry]
    · simp [setCall, Call.holdsEntry, ha]
  | release i =>
    obtain ⟨addr, hc, ⟨⟩⟩ := hs.drainAt_some h
    refine hs.setCall hc rfl rfl (by simp [setCall, Call.holdsEntry])
      (by simp [Call.holdsEntry]) (by simp [setCall, Call.live]) (fun a => ?_)
      (by simp [setCall, Call.locking]) (by simp [Call.locking]) (by simp) (by simp) (by simp)
    by_cases ha : addr = a
    · subst ha; simp [setCall, Call.holdsConn, Call.holdsEntry]; omega
    · simp [setCall, Function.update_apply, Ne.symm ha, ha]
  | done i =>
    obtain ⟨addr, hc, ⟨⟩⟩ := hs.drainAt_some h
    have hpos : 0 < s.wg := by
      rw [hs.wg]
      exact List.countP_pos_iff.mpr ⟨_, List.getElem?_mem hc, by simp [Call.live]⟩
    refine hs.setCall hc rfl rfl (by simp [setCall, Call.holdsEntry])
      (by simp [Call.holdsEntry]) ?_ (by simp [setCall, Call.holdsConn, Call.holdsEntry])
      (by simp [setCall, Call.locking]) (by simp [Call.locking]) (by simp) (by simp) (by simp)
    simp [setCall, Call.live]
    omega
  | closeErrs | closeReturns =>
    obtain ⟨-, ⟨⟩⟩ := Option.ite_none_right_eq_some.mp h
    exact ⟨hs.entry, hs.entry_held, hs.wg, hs.conns, hs.lock, hs.vacant, hs.drain, hs.merged⟩

theorem inv_run {trace : List (RelayAct A)} {s : Relays A} (h : run step init trace = some s) :
    Inv s :=
  run_invariant Inv (fun _ _ _ hs h => hs.step h) trace inv_init h

theorem Inv.step_relays {s t : Relays A} (hs : Inv s) {act : RelayAct A}
    (h : s.step act = some t) (a : A) :
    t.relays a = s.relays a ∨
      (∃ i, act = .install i ∧ s.relays a = none ∧ t.relays a = some i) ∨
      (∃ i, act = .delete i ∧ s.relays a = some i ∧ t.relays a = none) := by
  cases act with
  | install i =>
    obtain ⟨c, hc, hpc, ⟨⟩⟩ := callAt_eq_some.mp h
    by_cases ha : a = c.addr
    · subst ha; exact .inr (.inl ⟨i, rfl, hs.vacant i c hc (.inr hpc), by simp⟩)
    · exact .inl (by simp [ha])
  | delete i =>
    obtain ⟨c, hc, hd, hk⟩ := drainAt_eq_some.mp h
    obtain ⟨-, ⟨⟩⟩ := Option.ite_none_right_eq_some.mp hk
    by_cases ha : a = c.addr
    · subst ha
      exact .inr (.inr ⟨i, rfl, hs.entry_held i c hc (by simp [Call.holdsEntry, hd]), by simp⟩)
    · exact .inl (by simp [ha])
  | spawn addr => cases h; exact .inl rfl
  | insert i => cases h
  | lock i | found i | handshakeFails i | dialFails i | acquire i =>
    obtain ⟨c, -, -, hk⟩ := callAt_eq_some.mp h
    obtain ⟨-, ⟨⟩⟩ := Option.ite_none_right_eq_some.mp hk
    exact .inl rfl
  | streamFails i | openStream i | headerFails i =>
    obtain ⟨c, -, -, ⟨⟩⟩ := callAt_eq_some.mp h
    exact .inl rfl
  | exit i | release i | done i =>
    obtain ⟨c, -, -, ⟨⟩⟩ := drainAt_eq_some.mp h
    exact .inl rfl
  | closeErrs | closeReturns =>
    obtain ⟨-, ⟨⟩⟩ := Option.ite_none_right_eq_some.mp h
    exact .inl rfl

theorem Inv.holdsEntry_unique {s : Relays A} (hs : Inv s) {i j : Nat} {c d : Call A}
    (hc : s.calls[i]? = some c) (hd : s.calls[j]? = some d) (hce : c.holdsEntry)
    (hde : d.holdsEntry) (ha : c.addr = d.addr) : i = j := by
  have h1 := hs.entry_held i c hc hce
  rw [ha, hs.entry_held j d hd hde] at h1
  exact (Option.some.inj h1).symm

omit [DecidableEq A] in
theorem Call.live_of_holdsEntry {c : Call A} (h : c.holdsEntry) : c.live := by
  simp only [Call.holdsEntry, Bool.or_eq_true, decide_eq_true_eq] at h
  rcases h with h | h <;> simp [Call.live, h]

theorem Inv.failed_holds_nothing {s : Relays A} (hs : Inv s) {i : Nat} {c : Call A}
    (hc : s.calls[i]? = some c) (hf : c.pc = .failed) :
    c.holdsEntry = false ∧ c.holdsConn = false ∧ c.live = false := by
  have hd : c.drain = none := by simpa [hf] using hs.drain i c hc
  simp [Call.holdsEntry, Call.holdsConn, Call.live, hd, hf]

/-- The ledger of the relays, in every state that some interleaving reaches. (a) `s.relays`
maps an address to the one call whose drain goroutine is live and still owns the entry;
entries are written only by that call's `install`, never over another, and removed only
by its own `delete`. (b) The WaitGroup counts the live drain goroutines. (c) The
connections acquired for `a` are those released plus those held by a `setupRelay(a)`
after `Acquire` or by a drain goroutine of `a` before `Release`. (d) A call whose
`setupRelay` failed holds none of the three. -/
theorem relay_ledger {trace : List (RelayAct A)} {s : Relays A}
    (h : run step init trace = some s) :
    ((∀ a i, s.relays a = some i ↔
        ∃ c : Call A, s.calls[i]? = some c ∧ c.addr = a ∧ c.holdsEntry ∧ c.live) ∧
      (∀ (i j : Nat) (c d : Call A), s.calls[i]? = some c → s.calls[j]? = some d →
        c.holdsEntry → d.holdsEntry → c.addr = d.addr → i = j) ∧
      ∀ act t a, step s act = some t →
        t.relays a = s.relays a ∨
          (∃ i, act = .install i ∧ s.relays a = none ∧ t.relays a = some i) ∨
          (∃ i, act = .delete i ∧ s.relays a = some i ∧ t.relays a = none)) ∧
    s.wg = s.calls.countP Call.live ∧
    (∀ a, s.acquired a = s.released a + s.calls.countP fun c => c.addr = a && c.holdsConn) ∧
    ∀ (i : Nat) (c : Call A), s.calls[i]? = some c → c.pc = .failed →
      c.holdsEntry = false ∧ c.holdsConn = false ∧ c.live = false := by
  have hs := inv_run h
  refine ⟨⟨fun a i => ⟨fun he => ?_, ?_⟩, fun _ _ _ _ => hs.holdsEntry_unique,
    fun _ _ a h => hs.step_relays h a⟩, hs.wg, hs.conns, fun _ _ => hs.failed_holds_nothing⟩
  · obtain ⟨c, hc, rfl, hce⟩ := hs.entry a i he
    exact ⟨c, hc, rfl, hce, Call.live_of_holdsEntry hce⟩
  · rintro ⟨c, hc, rfl, hce, -⟩
    exact hs.entry_held i c hc hce

theorem relay_ledger_installed :
    ∃ s, run step (init : Relays Nat)
      [.spawn 7, .spawn 7, .lock 0, .acquire 0, .openStream 0, .install 0, .lock 1, .found 1]
        = some s ∧
      ((∀ a i, s.relays a = some i ↔
          ∃ c : Call Nat, s.calls[i]? = some c ∧ c.addr = a ∧ c.holdsEntry ∧ c.live) ∧
        (∀ (i j : Nat) (c d : Call Nat), s.calls[i]? = some c → s.calls[j]? = some d →
          c.holdsEntry → d.holdsEntry → c.addr = d.addr → i = j) ∧
        ∀ act t a, step s act = some t →
          t.relays a = s.relays a ∨
            (∃ i, act = .install i ∧ s.relays a = none ∧ t.relays a = some i) ∨
            (∃ i, act = .delete i ∧ s.relays a = some i ∧ t.relays a = none)) ∧
      s.wg = s.calls.countP Call.live ∧
      (∀ a, s.acquired a = s.released a + s.calls.countP fun c => c.addr = a && c.holdsConn) ∧
      ∀ (i : Nat) (c : Call Nat), s.calls[i]? = some c → c.pc = .failed →
        c.holdsEntry = false ∧ c.holdsConn = false ∧ c.live = false := by
  obtain ⟨s, h⟩ : ∃ s, run step (init : Relays Nat)
      [.spawn 7, .spawn 7, .lock 0, .acquire 0, .openStream 0, .install 0, .lock 1, .found 1]
        = some s := ⟨_, rfl⟩
  exact ⟨s, h, relay_ledger h⟩

end Relays

end Dela.Session
