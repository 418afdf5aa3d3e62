import Dela.Session.Relays

/-!
`setupRelay` in the order of its statements: `s.relays[addr] = newRelay` and `s.Add(1)`
are two steps, and `Close`, whose `s.Wait()` takes no lock, can return between them.
`Relays.step` runs them as one step under `s.Lock()`; `stepSplit` keeps them apart. A
run of `stepSplit` is a run of `step` once a call between the two is seen before its
insert (`unsplit`), so the invariant of `step` holds of the code's states seen that way.
-/
namespace Dela.Session

variable {A : Type}

def RelayAct.inserts : RelayAct A → Bool
  | .insert _ => true
  | _ => false

def Call.unsplit (c : Call A) : Call A := if c.pc = .inserted then { c with pc := .opened } else c

namespace Relays

variable [DecidableEq A]

def stepSplit (s : Relays A) : RelayAct A → Option (Relays A)
  | .insert i => s.callAt i .opened fun c =>
    some { s.setCall i { c with pc := .inserted } with
      relays := Function.update s.relays c.addr (some i) }
  | .install i => s.callAt i .inserted fun c =>
    some { s.setCall i { c with pc := .installed, drain := some .draining } with
      wg := s.wg + 1, lock := none }
  | act => s.step act

def inGap (s : Relays A) (a : A) : Bool := s.calls.any fun c => c.addr = a && c.pc = .inserted

def unsplit (s : Relays A) : Relays A :=
  { s with
    relays := fun a => if s.inGap a then none else s.relays a
    calls := s.calls.map Call.unsplit }

def Split (s : Relays A) : Prop :=
  ∀ (i : Nat) (c : Call A), s.calls[i]? = some c → c.pc = .inserted → s.relays c.addr = some i

omit [DecidableEq A] in
theorem Call.unsplit_of_ne {c : Call A} (h : c.pc ≠ .inserted) : c.unsplit = c := if_neg h

theorem inGap_iff {s : Relays A} {a : A} :
    s.inGap a ↔ ∃ (i : Nat) (c : Call A), s.calls[i]? = some c ∧ c.addr = a ∧ c.pc = .inserted := by
  simp only [inGap, List.any_eq_true, Bool.and_eq_true, decide_eq_true_eq, List.mem_iff_getElem?]
  exact ⟨fun ⟨c, ⟨i, hc⟩, h⟩ => ⟨i, c, hc, h⟩, fun ⟨i, c, hc, h⟩ => ⟨c, ⟨i, hc⟩, h⟩⟩

theorem unsplit_getElem {s : Relays A} {i : Nat} {c : Call A} (hc : s.calls[i]? = some c) :
    s.unsplit.calls[i]? = some c.unsplit := by
  simp [unsplit, hc]

theorem unsplit_eq_self {s : Relays A} (h : ∀ c ∈ s.calls, c.pc ≠ .inserted) : s.unsplit = s := by
  have hgap : ∀ a, s.inGap a = false := fun a => Bool.eq_false_iff.mpr fun hg =>
    have ⟨_, c, hc, _, hci⟩ := inGap_iff.mp hg
    h c (List.getElem?_mem hc) hci
  have hcalls : s.calls.map Call.unsplit = s.calls :=
    (List.map_congr_left (g := id) fun c hc => Call.unsplit_of_ne (h c hc)).trans (List.map_id _)
  simp only [unsplit, hgap, hcalls, Bool.false_eq_true, ite_false]

theorem inGap_setCall {s : Relays A} {i : Nat} {c d : Call A} (hc : s.calls[i]? = some c)
    (hci : c.pc ≠ .inserted) (hdi : d.pc ≠ .inserted) (a : A) :
    (s.setCall i d).inGap a = s.inGap a := by
  rw [Bool.eq_iff_iff, inGap_iff, inGap_iff]
  constructor
  · rintro ⟨j, e, he, hea, hei⟩
    rw [setCall_calls, getElem?_set_of hc] at he
    split at he
    · cases he; exact absurd hei hdi
    · exact ⟨j, e, he, hea, hei⟩
  · rintro ⟨j, e, he, hea, hei⟩
    have hj : j ≠ i := by rintro rfl; cases hc.symm.trans he; exact hci hei
    exact ⟨j, e, by rw [setCall_calls, getElem?_set_of hc, if_neg hj, he], hea, hei⟩

theorem unsplit_setCall {s : Relays A} {i : Nat} {c d : Call A} (hc : s.calls[i]? = some c)
    (hci : c.pc ≠ .inserted) (hdi : d.pc ≠ .inserted) :
    (s.setCall i d).unsplit = s.unsplit.setCall i d := by
  ext1 <;> simp only [unsplit, setCall_relays, setCall_calls, setCall_wg, setCall_acquired,
    setCall_released, setCall_lock, setCall_close, inGap_setCall hc hci hdi, List.map_set,
    Call.unsplit_of_ne hdi]

theorem merged_of_locking {s : Relays A} (hs : Inv s.unsplit) {i : Nat} {c : Call A}
    (hc : s.calls[i]? = some c) (hl : c.locking) : ∀ d ∈ s.calls, d.pc ≠ .inserted := by
  intro d hd hdi
  obtain ⟨j, hj⟩ := List.mem_iff_getElem?.mp hd
  have hci : c.pc ≠ .inserted := by intro h; simp [Call.locking, h] at hl
  have hij := lock_unique hs (unsplit_getElem hc) (unsplit_getElem hj)
    (by rwa [Call.unsplit_of_ne hci]) (by simp [Call.unsplit, Call.locking, hdi])
  subst hij
  cases hc.symm.trans hj
  exact hci hdi

theorem merged_of_lock_none {s : Relays A} (hs : Inv s.unsplit) (hl : s.lock = none) :
    ∀ d ∈ s.calls, d.pc ≠ .inserted := by
  intro d hd hdi
  obtain ⟨j, hj⟩ := List.mem_iff_getElem?.mp hd
  have := (hs.lock j).mpr ⟨_, unsplit_getElem hj, by simp [Call.unsplit, Call.locking, hdi]⟩
  simp [unsplit, hl] at this

theorem inserted_unique {s : Relays A} (hs : Inv s.unsplit) {i j : Nat} {c d : Call A}
    (hc : s.calls[i]? = some c) (hci : c.pc = .inserted) (hd : s.calls[j]? = some d)
    (hdi : d.pc = .inserted) : i = j :=
  lock_unique hs (unsplit_getElem hc) (unsplit_getElem hd)
    (by simp [Call.unsplit, Call.locking, hci]) (by simp [Call.unsplit, Call.locking, hdi])

theorem Inv.drainAt_unsplit {s t : Relays A} (hs : Inv s.unsplit) {i : Nat} {d : DrainPc}
    {k : Call A → Option (Relays A)} (h : s.drainAt i d k = some t) :
    ∃ addr, s.calls[i]? = some ⟨addr, .installed, some d⟩ ∧
      k ⟨addr, .installed, some d⟩ = some t := by
  obtain ⟨⟨addr, pc, drain⟩, hc, rfl, hk⟩ := drainAt_eq_some.mp h
  have := hs.drain i _ (unsplit_getElem hc)
  obtain rfl : pc = .installed := by cases pc <;> simp_all [Call.unsplit]
  exact ⟨addr, hc, hk⟩

omit [DecidableEq A] in
theorem Split.setCall {s t : Relays A} (hsp : Split s) {i : Nat} {c d : Call A}
    (hc : s.calls[i]? = some c) (hdi : d.pc ≠ .inserted) (hcalls : t.calls = s.calls.set i d)
    (hrelays : t.relays = s.relays) : Split t := by
  intro j e he hei
  rw [hcalls, getElem?_set_of hc] at he
  split at he
  · cases he; exact absurd hei hdi
  · rw [hrelays]; exact hsp j e he hei

theorem stepSplit_of_merged {s t : Relays A} (hs : Inv s.unsplit)
    (hm : ∀ c ∈ s.calls, c.pc ≠ .inserted) {act : RelayAct A} (h : Relays.step s act = some t) :
    Split t ∧ Relays.step s.unsplit act = some t.unsplit := by
  rw [unsplit_eq_self hm] at hs ⊢
  have ht := hs.step h
  rw [unsplit_eq_self fun c hc => have ⟨_, hi⟩ := List.mem_iff_getElem?.mp hc; ht.merged _ c hi]
  exact ⟨fun i c hc hci => absurd hci (ht.merged i c hc), h⟩

theorem inGap_set_of_sole {s t : Relays A} {i : Nat} {c d : Call A} (hc : s.calls[i]? = some c)
    (hsole : ∀ (j : Nat) (e : Call A), s.calls[j]? = some e → e.pc = .inserted → j = i)
    (hcalls : t.calls = s.calls.set i d) (a : A) :
    t.inGap a ↔ d.addr = a ∧ d.pc = .inserted := by
  rw [inGap_iff]
  constructor
  · rintro ⟨j, e, he, hea, hei⟩
    rw [hcalls, getElem?_set_of hc] at he
    split at he
    · cases he; exact ⟨hea, hei⟩
    · rename_i hj; exact absurd (hsole j e he hei) hj
  · rintro ⟨hda, hdi⟩
    exact ⟨i, d, by rw [hcalls, getElem?_set_of hc, if_pos rfl], hda, hdi⟩

theorem Split.insert {s t : Relays A} (hs : Inv s.unsplit) {i : Nat}
    (h : s.stepSplit (.insert i) = some t) : Split t ∧ t.unsplit = s.unsplit := by
  obtain ⟨c, hc, hpc, ht⟩ := callAt_eq_some.mp h
  have htc : t.calls = s.calls.set i { c with pc := .inserted } := by cases ht; rfl
  have htr : t.relays = Function.update s.relays c.addr (some i) := by cases ht; rfl
  have hm := merged_of_locking hs hc (by simp [Call.locking, hpc])
  have hgap := inGap_set_of_sole hc (fun _ e he hei => absurd hei (hm e (List.getElem?_mem he))) htc
  rw [unsplit_eq_self hm] at hs ⊢
  refine ⟨fun j d hd hdi => ?_, ?_⟩
  · rw [htc, getElem?_set_of hc] at hd
    split at hd
    · rename_i hj; subst hj; cases hd; simp [htr]
    · exact absurd hdi (hm d (List.getElem?_mem hd))
  ext1
  case relays =>
    funext a
    show (if t.inGap a then none else t.relays a) = s.relays a
    by_cases ha : c.addr = a
    · subst ha; simp [hgap, htr, hs.vacant i c hc (.inr hpc)]
    · simp [hgap, htr, ha, Function.update_noteq (Ne.symm ha)]
  case calls =>
    refine List.ext_getElem? fun j => ?_
    show (t.calls.map Call.unsplit)[j]? = s.calls[j]?
    rw [List.getElem?_map, htc, getElem?_set_of hc]
    split
    · rename_i hj; subst hj; rw [hc]; cases c; simp_all [Call.unsplit]
    · cases hj : s.calls[j]? with
      | none => rfl
      | some d => simp [Call.unsplit_of_ne (hm d (List.getElem?_mem hj))]
  all_goals cases ht; rfl

theorem Split.install {s t : Relays A} (hs : Inv s.unsplit) (hsp : Split s) {i : Nat}
    (h : s.stepSplit (.install i) = some t) :
    Split t ∧ Relays.step s.unsplit (.install i) = some t.unsplit := by
  obtain ⟨c, hc, hpc, ht⟩ := callAt_eq_some.mp h
  have htc : t.calls = s.calls.set i { c with pc := .installed, drain := some .draining } := by
    cases ht; rfl
  have hsole : ∀ (j : Nat) (d : Call A), s.calls[j]? = some d → d.pc = .inserted → j = i :=
    fun j d hd hdi => (inserted_unique hs hc hpc hd hdi).symm
  have hgap := inGap_set_of_sole hc hsole htc
  refine ⟨fun j d hd hdi => ?_, ?_⟩
  · obtain ⟨-, ⟨⟩⟩ := (hgap _).mp (inGap_iff.mpr ⟨j, d, hd, rfl, hdi⟩)
  have hu : c.unsplit = { c with pc := .opened } := if_pos hpc
  simp only [Relays.step, callAt, unsplit_getElem hc, hu, ite_true, Option.some.injEq]
  ext1
  case relays =>
    funext a
    show _ = if t.inGap a then none else t.relays a
    rw [show t.relays = s.relays by cases ht; rfl]
    by_cases ha : c.addr = a
    · subst ha; simp [hgap, hsp i c hc hpc]
    · have hs : ¬s.inGap a := fun hg =>
        have ⟨j, d, hd, hda, hdi⟩ := inGap_iff.mp hg
        ha (by cases hc.symm.trans (hsole j d hd hdi ▸ hd); exact hda)
      simp [unsplit, hgap, hs, Function.update_noteq (Ne.symm ha)]
  case calls =>
    show _ = t.calls.map Call.unsplit
    rw [htc, List.map_set]
    simp [unsplit, Call.unsplit]
  all_goals cases ht; rfl

theorem Split.step {s t : Relays A} (hs : Inv s.unsplit) (hsp : Split s) {act : RelayAct A}
    (h : s.stepSplit act = some t) :
    Split t ∧
      if act.inserts then t.unsplit = s.unsplit else Relays.step s.unsplit act = some t.unsplit := by
  cases act with
  | insert i => exact Split.insert hs h
  | install i => exact Split.install hs hsp h
  | spawn addr =>
    cases h
    refine ⟨fun j d hd hdi => ?_, ?_⟩
    · rcases getElem?_concat_eq_some.mp hd with hd | ⟨-, rfl⟩
      · exact hsp j d hd hdi
      · cases hdi
    · simp only [RelayAct.inserts, Bool.false_eq_true, ite_false, Relays.step, Option.some.injEq]
      ext1 <;> simp [unsplit, inGap, Call.unsplit]
  | lock i =>
    obtain ⟨c, -, -, hk⟩ := callAt_eq_some.mp h
    obtain ⟨hfree, -⟩ := Option.ite_none_right_eq_some.mp hk
    exact stepSplit_of_merged hs (merged_of_lock_none hs hfree) h
  | found i | handshakeFails i | dialFails i | acquire i | streamFails i | openStream i
  | headerFails i =>
    obtain ⟨c, hc, hpc, -⟩ := callAt_eq_some.mp h
    exact stepSplit_of_merged hs (merged_of_locking hs hc (by simp [Call.locking, hpc])) h
  | delete i =>
    obtain ⟨c, -, -, hk⟩ := drainAt_eq_some.mp h
    obtain ⟨hfree, -⟩ := Option.ite_none_right_eq_some.mp hk
    exact stepSplit_of_merged hs (merged_of_lock_none hs hfree) h
  | exit i =>
    obtain ⟨addr, hc, ⟨⟩⟩ := hs.drainAt_unsplit h
    refine ⟨hsp.setCall hc (by simp) rfl rfl, ?_⟩
    rw [if_neg (by simp [RelayAct.inserts]), unsplit_setCall hc (by simp) (by simp)]
    simp [Relays.step, drainAt, unsplit_getElem hc, Call.unsplit]
  | release i | done i =>
    obtain ⟨addr, hc, ⟨⟩⟩ := hs.drainAt_unsplit h
    refine ⟨hsp.setCall hc (by simp) rfl rfl, ?_⟩
    rw [if_neg (by simp [RelayAct.inserts])]
    simp only [Relays.step, drainAt, unsplit_getElem hc, Call.unsplit, reduceCtorEq, ite_false,
      ite_true, Option.some.injEq]
    ext1
    case relays =>
      funext a
      exact congrArg (fun g : Bool => if g then none else s.relays a)
        (inGap_setCall hc (by simp) (by simp) a).symm
    all_goals simp [unsplit, Call.unsplit]
  | closeErrs | closeReturns =>
    obtain ⟨hc, ⟨⟩⟩ := Option.ite_none_right_eq_some.mp h
    exact ⟨hsp, by simpa [RelayAct.inserts, Relays.step, unsplit, inGap] using hc⟩

end Relays

end Dela.Session
