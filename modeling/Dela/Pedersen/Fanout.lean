import Dela.Pedersen.Handler
import Mathlib.Algebra.BigOperators.Group.Finset
import Mathlib.Data.Finset.Card

/-!
The message fan-out of the Pedersen DKG setup, over all nodes at once: each node runs
`deal`, then `respond` (with a `handleDeal` per deal it pops), then `certify`. The node with
DKG index `k` is the one whose address is the `k`-th of the Start message, its public key
being the `k`-th one as well. A message sent is put at once in the recipient's channel;
nothing fails, so every send succeeds and no context ends; a pop on an empty channel waits,
and is no move. The channels here have no bound:
the results hold of the code for fewer than 16 participants, where no node is ever sent
`chanSize` messages of one kind, so no push of `Stream` blocks.
-/
namespace Dela.Pedersen

structure Setup (A : Type) where
  participants : List A
  dealKeys : Nat → List Nat
  nodup : participants.Nodup
  dealKeys_perm : ∀ k < participants.length,
    (dealKeys k).Perm ((List.range participants.length).erase k)

inductive DkgPc (A : Type) where
  | dealing (left : List Nat)
  | responding (numReceivedDeals : Nat)
  | handling (numReceivedDeals : Nat) (left : List A)
  | certifying (responsesReceived : Nat)
  | done
  deriving DecidableEq, Repr

inductive DkgMove where
  | deal
  | dealt
  | popDeal
  | respondTo
  | handled
  | respondDone
  | popResponse
  | certifyDone
  deriving DecidableEq, Repr

structure Dkg (A : Type) where
  pc : A → DkgPc A
  deals : A → Nat
  resps : A → Nat
  sentDeals : A → Nat
  sentResps : A → Nat

variable {A : Type}

namespace Setup

variable (S : Setup A)

def respondBound : Int := (S.participants.length : Int) - 1

def certifyBound : Int := S.respondBound * S.respondBound

def others : Nat := S.participants.length - 1

variable {S}

theorem respondBound_eq (h : 0 < S.participants.length) : S.respondBound = S.others := by
  simp only [respondBound, others]
  omega

theorem certifyBound_eq (h : 0 < S.participants.length) :
    S.certifyBound = (S.others * S.others : Nat) := by
  rw [certifyBound, respondBound_eq h]
  push_cast
  rfl

end Setup

variable [DecidableEq A]

theorem Setup.indexOf_eq_iff (S : Setup A) {b : A} (hb : b ∈ S.participants) {i : Nat}
    (hi : i < S.participants.length) : S.participants.indexOf b = i ↔ b = S.participants[i] := by
  constructor
  · rintro rfl
    exact (List.getElem_indexOf _).symm
  · rintro rfl
    exact List.indexOf_getElem S.nodup i hi

namespace DkgPc

def dealsLeft : DkgPc A → List Nat
  | .dealing left => left
  | _ => []

def dealsHandled (m : Nat) : DkgPc A → Nat
  | .dealing _ => 0
  | .responding r => r
  | .handling r _ => r + 1
  | .certifying _ => m
  | .done => m

def respsHandled (e : Nat) : DkgPc A → Nat
  | .certifying r => r
  | .done => e
  | _ => 0

def owed (m : Nat) (b : A) : DkgPc A → Nat
  | .dealing _ => m
  | .responding r => m - r
  | .handling r left => left.count b + (m - (r + 1))
  | .certifying _ => 0
  | .done => 0

def pot (n e : Nat) : DkgPc A → Nat
  | .dealing left => left.length + 1 + ((n - 1) * (n + 2) + e + 2)
  | .responding r => (n - 1 - r) * (n + 2) + e + 2
  | .handling r left => left.length + 1 + ((n - 1 - (r + 1)) * (n + 2) + e + 2)
  | .certifying r => e - r + 1
  | .done => 0

end DkgPc

def bump (f : A → Nat) (dest : A) : A → Nat := fun c => f c + if c = dest then 1 else 0

namespace Dkg

def init (S : Setup A) : Dkg A :=
  ⟨fun a => .dealing (S.dealKeys (S.participants.indexOf a)), fun _ => 0, fun _ => 0,
    fun _ => 0, fun _ => 0⟩

def advance (s : Dkg A) (a : A) (p : DkgPc A) (dd dr : Nat) : Dkg A :=
  { s with
    pc := Function.update s.pc a p
    deals := Function.update s.deals a (s.deals a - dd)
    resps := Function.update s.resps a (s.resps a - dr) }

def sendDeal (s : Dkg A) (dest : A) : Dkg A :=
  { s with deals := bump s.deals dest, sentDeals := bump s.sentDeals dest }

def sendResp (s : Dkg A) (dest : A) : Dkg A :=
  { s with resps := bump s.resps dest, sentResps := bump s.sentResps dest }

def stepAt (S : Setup A) (s : Dkg A) (a : A) : DkgMove → Option (Dkg A)
  | .deal =>
    match s.pc a with
    | .dealing (i :: left) =>
      match S.participants[i]? with
      | some dest => some ((s.advance a (.dealing left) 0 0).sendDeal dest)
      | none => none
    | _ => none
  | .dealt =>
    match s.pc a with
    | .dealing [] => some (s.advance a (.responding 0) 0 0)
    | _ => none
  | .popDeal =>
    match s.pc a with
    | .responding r =>
      if (r : Int) < S.respondBound ∧ 0 < s.deals a then
        some (s.advance a (.handling r S.participants) 1 0)
      else none
    | _ => none
  | .respondTo =>
    match s.pc a with
    | .handling r (addr :: left) =>
      if addr = a then some (s.advance a (.handling r left) 0 0)
      else some ((s.advance a (.handling r left) 0 0).sendResp addr)
    | _ => none
  | .handled =>
    match s.pc a with
    | .handling r [] => some (s.advance a (.responding (r + 1)) 0 0)
    | _ => none
  | .respondDone =>
    match s.pc a with
    | .responding r =>
      if (r : Int) < S.respondBound then none else some (s.advance a (.certifying 0) 0 0)
    | _ => none
  | .popResponse =>
    match s.pc a with
    | .certifying r =>
      if (r : Int) < S.certifyBound ∧ 0 < s.resps a then
        some (s.advance a (.certifying (r + 1)) 0 1)
      else none
    | _ => none
  | .certifyDone =>
    match s.pc a with
    | .certifying r => if (r : Int) < S.certifyBound then none else some (s.advance a .done 0 0)
    | _ => none

def step (S : Setup A) (s : Dkg A) (act : A × DkgMove) : Option (Dkg A) :=
  if act.1 ∈ S.participants then s.stepAt S act.1 act.2 else none

section
variable {S : Setup A} {s t : Dkg A} {a : A}

theorem step_eq_some {mv : DkgMove} (h : s.step S (a, mv) = some t) :
    a ∈ S.participants ∧ s.stepAt S a mv = some t := by
  obtain ⟨ha, h⟩ := Option.ite_none_right_eq_some.mp h
  exact ⟨ha, h⟩

theorem stepAt_deal (h : s.stepAt S a .deal = some t) :
    ∃ i left dest, s.pc a = .dealing (i :: left) ∧ S.participants[i]? = some dest ∧
      t = (s.advance a (.dealing left) 0 0).sendDeal dest := by
  simp only [stepAt] at h
  split at h
  · split at h <;> cases h
    exact ⟨_, _, _, ‹_›, ‹_›, rfl⟩
  · cases h

theorem stepAt_dealt (h : s.stepAt S a .dealt = some t) :
    s.pc a = .dealing [] ∧ t = s.advance a (.responding 0) 0 0 := by
  simp only [stepAt] at h
  split at h <;> cases h
  exact ⟨‹_›, rfl⟩

theorem stepAt_popDeal (h : s.stepAt S a .popDeal = some t) :
    ∃ r, s.pc a = .responding r ∧ (r : Int) < S.respondBound ∧ 0 < s.deals a ∧
      t = s.advance a (.handling r S.participants) 1 0 := by
  simp only [stepAt] at h
  split at h
  · obtain ⟨⟨hr, hd⟩, ⟨⟩⟩ := Option.ite_none_right_eq_some.mp h
    exact ⟨_, ‹_›, hr, hd, rfl⟩
  · cases h

theorem stepAt_respondTo (h : s.stepAt S a .respondTo = some t) :
    ∃ r addr left, s.pc a = .handling r (addr :: left) ∧
      (addr = a ∧ t = s.advance a (.handling r left) 0 0 ∨
        addr ≠ a ∧ t = (s.advance a (.handling r left) 0 0).sendResp addr) := by
  simp only [stepAt] at h
  split at h
  · split at h <;> cases h
    · exact ⟨_, _, _, ‹_›, .inl ⟨‹_›, rfl⟩⟩
    · exact ⟨_, _, _, ‹_›, .inr ⟨‹_›, rfl⟩⟩
  · cases h

theorem stepAt_handled (h : s.stepAt S a .handled = some t) :
    ∃ r, s.pc a = .handling r [] ∧ t = s.advance a (.responding (r + 1)) 0 0 := by
  simp only [stepAt] at h
  split at h <;> cases h
  exact ⟨_, ‹_›, rfl⟩

theorem stepAt_respondDone (h : s.stepAt S a .respondDone = some t) :
    ∃ r, s.pc a = .responding r ∧ ¬(r : Int) < S.respondBound ∧
      t = s.advance a (.certifying 0) 0 0 := by
  simp only [stepAt] at h
  split at h
  · obtain ⟨hr, ⟨⟩⟩ := Option.ite_none_left_eq_some.mp h
    exact ⟨_, ‹_›, hr, rfl⟩
  · cases h

theorem stepAt_popResponse (h : s.stepAt S a .popResponse = some t) :
    ∃ r, s.pc a = .certifying r ∧ (r : Int) < S.certifyBound ∧ 0 < s.resps a ∧
      t = s.advance a (.certifying (r + 1)) 0 1 := by
  simp only [stepAt] at h
  split at h
  · obtain ⟨⟨hr, hd⟩, ⟨⟩⟩ := Option.ite_none_right_eq_some.mp h
    exact ⟨_, ‹_›, hr, hd, rfl⟩
  · cases h

theorem stepAt_certifyDone (h : s.stepAt S a .certifyDone = some t) :
    ∃ r, s.pc a = .certifying r ∧ ¬(r : Int) < S.certifyBound ∧ t = s.advance a .done 0 0 := by
  simp only [stepAt] at h
  split at h
  · obtain ⟨hr, ⟨⟩⟩ := Option.ite_none_left_eq_some.mp h
    exact ⟨_, ‹_›, hr, rfl⟩
  · cases h

end

def dealsOwed (S : Setup A) (pc : A → DkgPc A) (b : A) : Nat :=
  ∑ a ∈ S.participants.toFinset, (pc a).dealsLeft.count (S.participants.indexOf b)

def respsOwed (S : Setup A) (pc : A → DkgPc A) (b : A) : Nat :=
  ∑ a ∈ S.participants.toFinset, if a = b then 0 else (pc a).owed S.others b

theorem sum_update_pc (F : A → DkgPc A → Nat) {T : Finset A} (pc : A → DkgPc A) {a : A}
    (ha : a ∈ T) (p : DkgPc A) {x y : Nat} (hx : F a (pc a) = x) (hy : F a p = y) :
    ∑ c ∈ T, F c (Function.update pc a p c) + x = ∑ c ∈ T, F c (pc c) + y := by
  subst hx hy
  have rest : ∑ c ∈ T.erase a, F c (Function.update pc a p c) = ∑ c ∈ T.erase a, F c (pc c) :=
    Finset.sum_congr rfl fun c hc => by rw [Function.update_noteq (Finset.ne_of_mem_erase hc)]
  rw [← Finset.add_sum_erase T _ ha, ← Finset.add_sum_erase T (fun c => F c (pc c)) ha, rest,
    Function.update_same]
  omega

theorem sum_update_pc_of_eq (F : A → DkgPc A → Nat) {T : Finset A} (pc : A → DkgPc A) {a : A}
    (ha : a ∈ T) {p : DkgPc A} (h : F a p = F a (pc a)) :
    ∑ c ∈ T, F c (Function.update pc a p c) = ∑ c ∈ T, F c (pc c) := by
  have := sum_update_pc F pc ha p rfl h
  omega

theorem sum_ite_self (T : Finset A) {b : A} (hb : b ∈ T) (c : Nat) :
    ∑ a ∈ T, (if a = b then 0 else c) = (T.card - 1) * c := by
  rw [← Finset.add_sum_erase T _ hb, if_pos rfl, zero_add,
    Finset.sum_const_nat fun a ha => if_neg (Finset.ne_of_mem_erase ha), Finset.card_erase_of_mem hb]

omit [DecidableEq A] in
theorem count_erase_range {n i k : Nat} (hi : i < n) :
    ((List.range n).erase k).count i = if i = k then 0 else 1 := by
  rw [List.count_erase, List.count_eq_one_of_mem (List.nodup_range n) (List.mem_range.mpr hi)]
  by_cases h : i = k
  · simp [h]
  · simp [h, Ne.symm h]

structure Inv (S : Setup A) (s : Dkg A) : Prop where
  keys : ∀ a ∈ S.participants, ∀ i ∈ (s.pc a).dealsLeft, i < S.participants.length
  dealsSent : ∀ b ∈ S.participants, s.sentDeals b + dealsOwed S s.pc b = S.others
  respsSent : ∀ b ∈ S.participants, s.sentResps b + respsOwed S s.pc b = S.others * S.others
  dealsQueued : ∀ b, s.deals b + (s.pc b).dealsHandled S.others = s.sentDeals b
  respsQueued : ∀ b, s.resps b + (s.pc b).respsHandled (S.others * S.others) = s.sentResps b

section
variable {S : Setup A} {s t : Dkg A} {a : A}

theorem inv_init (S : Setup A) : Inv S (init S) where
  keys a ha i hi := by
    have := (S.dealKeys_perm _ (List.indexOf_lt_length.mpr ha)).subset hi
    exact List.mem_range.mp (List.mem_of_mem_erase this)
  dealsSent b hb := by
    have hb' := List.mem_toFinset.mpr hb
    have hsum : dealsOwed S (init S).pc b = ∑ a ∈ S.participants.toFinset, if a = b then 0 else 1 :=
      Finset.sum_congr rfl fun a ha => by
        have ha := List.mem_toFinset.mp ha
        simp only [init, DkgPc.dealsLeft]
        rw [(S.dealKeys_perm _ (List.indexOf_lt_length.mpr ha)).count_eq,
          count_erase_range (List.indexOf_lt_length.mpr hb)]
        simp only [List.indexOf_inj hb ha, eq_comm]
    rw [hsum, sum_ite_self _ hb', List.toFinset_card_of_nodup S.nodup]
    simp [init, Setup.others]
  respsSent b hb := by
    simp only [respsOwed, init, DkgPc.owed]
    rw [sum_ite_self _ (List.mem_toFinset.mpr hb), List.toFinset_card_of_nodup S.nodup]
    simp [Setup.others]
  dealsQueued _ := rfl
  respsQueued _ := rfl

theorem Inv.advance (hi : Inv S s) (ha : a ∈ S.participants) {p : DkgPc A} {dd dr : Nat}
    (hleft : p.dealsLeft = (s.pc a).dealsLeft)
    (howed : ∀ b ∈ S.participants, b ≠ a → p.owed S.others b = (s.pc a).owed S.others b)
    (hd : s.deals a - dd + p.dealsHandled S.others = s.sentDeals a)
    (hr : s.resps a - dr + p.respsHandled (S.others * S.others) = s.sentResps a) :
    Inv S (s.advance a p dd dr) where
  keys c hc i hi' := by
    by_cases h : c = a
    · subst h
      simp only [Dkg.advance, Function.update_same, hleft] at hi'
      exact hi.keys c hc i hi'
    · simp only [Dkg.advance, Function.update_noteq h] at hi'
      exact hi.keys c hc i hi'
  dealsSent b hb := by
    have hsum := sum_update_pc_of_eq (fun _ q => q.dealsLeft.count (S.participants.indexOf b))
      s.pc (List.mem_toFinset.mpr ha) (congrArg _ hleft)
    simpa only [dealsOwed, Dkg.advance, hsum] using hi.dealsSent b hb
  respsSent b hb := by
    have hsum := sum_update_pc_of_eq (fun c q => if c = b then 0 else q.owed S.others b) s.pc
      (List.mem_toFinset.mpr ha) (p := p) (by
        by_cases h : a = b
        · simp [h]
        · simp [h, howed b hb (Ne.symm h)])
    simpa only [respsOwed, Dkg.advance, hsum] using hi.respsSent b hb
  dealsQueued c := by
    by_cases h : c = a
    · subst h
      simpa [Dkg.advance] using hd
    · simpa [Dkg.advance, Function.update_noteq h] using hi.dealsQueued c
  respsQueued c := by
    by_cases h : c = a
    · subst h
      simpa [Dkg.advance] using hr
    · simpa [Dkg.advance, Function.update_noteq h] using hi.respsQueued c

theorem Inv.deal (hi : Inv S s) (ha : a ∈ S.participants) {i : Nat} {left : List Nat} {dest : A}
    (hp : s.pc a = .dealing (i :: left)) (hd : S.participants[i]? = some dest) :
    Inv S ((s.advance a (.dealing left) 0 0).sendDeal dest) where
  keys c hc j hj := by
    by_cases h : c = a
    · subst h
      simp only [sendDeal, Dkg.advance, Function.update_same, DkgPc.dealsLeft] at hj
      exact hi.keys c hc j (by rw [hp]; exact List.mem_cons_of_mem _ hj)
    · simp only [sendDeal, Dkg.advance, Function.update_noteq h] at hj
      exact hi.keys c hc j hj
  dealsSent b hb := by
    obtain ⟨hi', rfl⟩ := List.getElem?_eq_some_iff.mp hd
    have hcount : (s.pc a).dealsLeft.count (S.participants.indexOf b) =
        (DkgPc.dealing left : DkgPc A).dealsLeft.count (S.participants.indexOf b) +
          if b = S.participants[i] then 1 else 0 := by
      simp only [hp, DkgPc.dealsLeft, List.count_cons, beq_iff_eq, eq_comm (a := i),
        S.indexOf_eq_iff hb hi']
    have hsum := sum_update_pc (fun _ q => q.dealsLeft.count (S.participants.indexOf b)) s.pc
      (List.mem_toFinset.mpr ha) (.dealing left) hcount rfl
    beta_reduce at hsum
    have := hi.dealsSent b hb
    simp only [dealsOwed, sendDeal, Dkg.advance, bump] at this ⊢
    omega
  respsSent b hb := by
    have hsum := sum_update_pc_of_eq (fun c q => if c = b then 0 else q.owed S.others b) s.pc
      (List.mem_toFinset.mpr ha) (p := .dealing left) (by rw [hp]; rfl)
    simpa only [respsOwed, sendDeal, Dkg.advance, hsum] using hi.respsSent b hb
  dealsQueued c := by
    have := hi.dealsQueued c
    by_cases h : c = a
    · subst h
      simp only [hp, DkgPc.dealsHandled] at this
      simp only [sendDeal, Dkg.advance, bump, Function.update_same, DkgPc.dealsHandled]
      omega
    · simp only [sendDeal, Dkg.advance, bump, Function.update_noteq h]
      omega
  respsQueued c := by
    have := hi.respsQueued c
    by_cases h : c = a
    · subst h
      simpa [sendDeal, Dkg.advance, hp, DkgPc.respsHandled] using this
    · simpa [sendDeal, Dkg.advance, Function.update_noteq h] using this

theorem Inv.respondTo (hi : Inv S s) (ha : a ∈ S.participants) {r : Nat} {addr : A}
    {left : List A} (hp : s.pc a = .handling r (addr :: left)) (hne : addr ≠ a) :
    Inv S ((s.advance a (.handling r left) 0 0).sendResp addr) where
  keys c hc j hj := by
    by_cases h : c = a
    · subst h
      simp [sendResp, Dkg.advance, DkgPc.dealsLeft] at hj
    · simp only [sendResp, Dkg.advance, Function.update_noteq h] at hj
      exact hi.keys c hc j hj
  dealsSent b hb := by
    have hsum := sum_update_pc_of_eq (fun _ q => q.dealsLeft.count (S.participants.indexOf b))
      s.pc (List.mem_toFinset.mpr ha) (p := .handling r left) (by rw [hp]; rfl)
    simpa only [dealsOwed, sendResp, Dkg.advance, hsum] using hi.dealsSent b hb
  respsSent b hb := by
    have hterm : (if a = b then 0 else (s.pc a).owed S.others b) =
        (if a = b then 0 else (DkgPc.handling r left).owed S.others b) +
          if b = addr then 1 else 0 := by
      by_cases h : a = b
      · subst h
        simp [Ne.symm hne]
      · simp only [hp, DkgPc.owed, List.count_cons, beq_iff_eq, h, if_false, eq_comm (a := addr)]
        omega
    have hsum := sum_update_pc (fun c q => if c = b then 0 else q.owed S.others b) s.pc
      (List.mem_toFinset.mpr ha) (.handling r left) hterm rfl
    beta_reduce at hsum
    have := hi.respsSent b hb
    simp only [respsOwed, sendResp, Dkg.advance, bump] at this ⊢
    omega
  dealsQueued c := by
    have := hi.dealsQueued c
    by_cases h : c = a
    · subst h
      simpa [sendResp, Dkg.advance, hp, DkgPc.dealsHandled] using this
    · simpa [sendResp, Dkg.advance, Function.update_noteq h] using this
  respsQueued c := by
    have := hi.respsQueued c
    by_cases h : c = a
    · subst h
      simp only [hp, DkgPc.respsHandled] at this
      simp only [sendResp, Dkg.advance, bump, Function.update_same, DkgPc.respsHandled]
      omega
    · simp only [sendResp, Dkg.advance, bump, Function.update_noteq h]
      omega

theorem Inv.step (hi : Inv S s) {act : A × DkgMove} (h : s.step S act = some t) : Inv S t := by
  obtain ⟨a, mv⟩ := act
  obtain ⟨ha, h⟩ := step_eq_some h
  have hn : 0 < S.participants.length := List.length_pos_of_mem ha
  have hsd := hi.dealsSent a ha
  have hsr := hi.respsSent a ha
  have hqd := hi.dealsQueued a
  have hqr := hi.respsQueued a
  cases mv with
  | deal =>
    obtain ⟨i, left, dest, hp, hd, rfl⟩ := stepAt_deal h
    exact hi.deal ha hp hd
  | dealt =>
    obtain ⟨hp, rfl⟩ := stepAt_dealt h
    rw [hp] at hqd hqr
    exact hi.advance ha (by simp only [hp, DkgPc.dealsLeft]) (fun _ _ _ => by simp only [hp, DkgPc.owed, List.count_nil, Nat.zero_add, Nat.sub_zero])
      (by simpa only [DkgPc.dealsHandled, Nat.sub_zero] using hqd) (by simpa only [DkgPc.respsHandled, Nat.sub_zero] using hqr)
  | popDeal =>
    obtain ⟨r, hp, hr, hd, rfl⟩ := stepAt_popDeal h
    rw [Setup.respondBound_eq hn] at hr
    rw [hp] at hqd hqr
    simp only [DkgPc.dealsHandled, DkgPc.respsHandled] at hqd hqr
    refine hi.advance ha (by simp only [hp, DkgPc.dealsLeft]) (fun b hb _ => ?_)
      (by simp only [DkgPc.dealsHandled]; omega) (by simpa only [DkgPc.respsHandled, Nat.sub_zero] using hqr)
    simp only [hp, DkgPc.owed, List.count_eq_one_of_mem S.nodup hb]
    omega
  | respondTo =>
    obtain ⟨r, addr, left, hp, ⟨rfl, rfl⟩ | ⟨hne, rfl⟩⟩ := stepAt_respondTo h
    · rw [hp] at hqd hqr
      refine hi.advance ha (by simp only [hp, DkgPc.dealsLeft]) (fun b _ hb => ?_)
        (by simpa only [DkgPc.dealsHandled, Nat.sub_zero] using hqd) (by simpa only [DkgPc.respsHandled, Nat.sub_zero] using hqr)
      simp [hp, DkgPc.owed, List.count_cons, Ne.symm hb]
    · exact hi.respondTo ha hp hne
  | handled =>
    obtain ⟨r, hp, rfl⟩ := stepAt_handled h
    rw [hp] at hqd hqr
    exact hi.advance ha (by simp only [hp, DkgPc.dealsLeft]) (fun _ _ _ => by simp only [hp, DkgPc.owed, List.count_nil, Nat.zero_add, Nat.sub_zero])
      (by simpa only [DkgPc.dealsHandled, Nat.sub_zero] using hqd) (by simpa only [DkgPc.respsHandled, Nat.sub_zero] using hqr)
  | respondDone =>
    obtain ⟨r, hp, hr, rfl⟩ := stepAt_respondDone h
    rw [Setup.respondBound_eq hn] at hr
    rw [hp] at hqd hqr
    simp only [DkgPc.dealsHandled, DkgPc.respsHandled] at hqd hqr
    exact hi.advance ha (by simp only [hp, DkgPc.dealsLeft])
      (fun _ _ _ => by simp only [hp, DkgPc.owed]; omega)
      (by simp only [DkgPc.dealsHandled]; omega) (by simpa only [DkgPc.respsHandled, Nat.sub_zero] using hqr)
  | popResponse =>
    obtain ⟨r, hp, hr, hd, rfl⟩ := stepAt_popResponse h
    rw [hp] at hqd hqr
    simp only [DkgPc.dealsHandled, DkgPc.respsHandled] at hqd hqr
    exact hi.advance ha (by simp only [hp, DkgPc.dealsLeft]) (fun _ _ _ => by simp only [hp, DkgPc.owed, List.count_nil, Nat.zero_add, Nat.sub_zero])
      (by simpa only [DkgPc.dealsHandled, Nat.sub_zero] using hqd) (by simp only [DkgPc.respsHandled]; omega)
  | certifyDone =>
    obtain ⟨r, hp, hr, rfl⟩ := stepAt_certifyDone h
    rw [Setup.certifyBound_eq hn] at hr
    rw [hp] at hqd hqr
    simp only [DkgPc.dealsHandled, DkgPc.respsHandled] at hqd hqr
    exact hi.advance ha (by simp only [hp, DkgPc.dealsLeft]) (fun _ _ _ => by simp only [hp, DkgPc.owed, List.count_nil, Nat.zero_add, Nat.sub_zero])
      (by simpa only [DkgPc.dealsHandled, Nat.sub_zero] using hqd) (by simp only [DkgPc.respsHandled]; omega)

theorem inv_run {trace : List (A × DkgMove)} (h : run (step S) (init S) trace = some s) :
    Inv S s :=
  run_invariant (Inv S) (fun _ _ _ hs h => hs.step h) trace (inv_init S) h

theorem Inv.waits (hi : Inv S s) (ha : a ∈ S.participants)
    (hstuck : ∀ mv, s.stepAt S a mv = none) :
    s.pc a = .done ∨ (∃ r, s.pc a = .responding r ∧ r < S.others ∧ s.deals a = 0) ∨
      ∃ r, s.pc a = .certifying r ∧ r < S.others * S.others ∧ s.resps a = 0 := by
  have hn : 0 < S.participants.length := List.length_pos_of_mem ha
  cases hp : s.pc a with
  | dealing left =>
    cases left with
    | nil => simpa [stepAt, hp] using hstuck .dealt
    | cons i left =>
      have hi' : i < S.participants.length := hi.keys a ha i (by simp [hp, DkgPc.dealsLeft])
      simpa [stepAt, hp, List.getElem?_eq_getElem hi'] using hstuck .deal
  | responding r =>
    have h1 := hstuck .popDeal
    have h2 := hstuck .respondDone
    simp only [stepAt, hp, Setup.respondBound_eq hn] at h1 h2
    simp only [ite_eq_left_iff, not_lt, reduceCtorEq, imp_false, not_le] at h2
    simp only [ite_eq_right_iff, reduceCtorEq, imp_false, not_and, not_lt] at h1
    exact .inr (.inl ⟨r, rfl, by omega, by have := h1 h2; omega⟩)
  | handling r left =>
    cases left with
    | nil => simpa [stepAt, hp] using hstuck .handled
    | cons addr left =>
      have := hstuck .respondTo
      simp only [stepAt, hp] at this
      split at this <;> cases this
  | certifying r =>
    have h1 := hstuck .popResponse
    have h2 := hstuck .certifyDone
    simp only [stepAt, hp, Setup.certifyBound_eq hn] at h1 h2
    simp only [ite_eq_left_iff, not_lt, reduceCtorEq, imp_false, not_le] at h2
    simp only [ite_eq_right_iff, reduceCtorEq, imp_false, not_and, not_lt] at h1
    exact .inr (.inr ⟨r, rfl, by omega, by have := h1 h2; omega⟩)
  | done => exact .inl rfl

theorem Inv.all_done (hi : Inv S s)
    (hstuck : ∀ a ∈ S.participants, ∀ mv, s.stepAt S a mv = none) :
    ∀ a ∈ S.participants, s.pc a = .done := by
  have hwait := fun a ha => hi.waits ha (hstuck a ha)
  have hdeals : ∀ b ∈ S.participants, s.sentDeals b = S.others := fun b hb => by
    have hzero : dealsOwed S s.pc b = 0 := Finset.sum_eq_zero fun a ha => by
      rcases hwait a (List.mem_toFinset.mp ha) with h | ⟨r, h, -⟩ | ⟨r, h, -⟩ <;>
        simp [h, DkgPc.dealsLeft]
    have := hi.dealsSent b hb
    omega
  -- so nobody still waits for a deal
  have hcert : ∀ a ∈ S.participants, s.pc a = .done ∨
      ∃ r, s.pc a = .certifying r ∧ r < S.others * S.others ∧ s.resps a = 0 := fun a ha => by
    rcases hwait a ha with h | ⟨r, h, hr, hd⟩ | h
    · exact .inl h
    · have := hi.dealsQueued a
      rw [h, hd, hdeals a ha] at this
      simp only [DkgPc.dealsHandled] at this
      omega
    · exact .inr h
  have hresps : ∀ b ∈ S.participants, s.sentResps b = S.others * S.others := fun b hb => by
    have hzero : respsOwed S s.pc b = 0 := Finset.sum_eq_zero fun a ha => by
      rcases hcert a (List.mem_toFinset.mp ha) with h | ⟨r, h, -⟩ <;> simp [h, DkgPc.owed]
    have := hi.respsSent b hb
    omega
  intro a ha
  rcases hcert a ha with h | ⟨r, h, hr, hz⟩
  · exact h
  · have := hi.respsQueued a
    rw [h, hz, hresps a ha] at this
    simp only [DkgPc.respsHandled] at this
    omega

def total (S : Setup A) (s : Dkg A) : Nat :=
  ∑ a ∈ S.participants.toFinset, (s.pc a).pot S.participants.length (S.others * S.others)

theorem total_lt {act : A × DkgMove} (h : s.step S act = some t) :
    total S t < total S s := by
  obtain ⟨a, mv⟩ := act
  obtain ⟨ha, h⟩ := step_eq_some h
  have hn : 0 < S.participants.length := List.length_pos_of_mem ha
  have lower : ∀ p dd dr,
      p.pot S.participants.length (S.others * S.others) <
        (s.pc a).pot S.participants.length (S.others * S.others) →
      total S (s.advance a p dd dr) < total S s := fun p dd dr hlt => by
    have := sum_update_pc (fun _ q => q.pot S.participants.length (S.others * S.others)) s.pc
      (List.mem_toFinset.mpr ha) p rfl rfl
    beta_reduce at this
    simp only [total, Dkg.advance]
    omega
  have hm : S.others = S.participants.length - 1 := rfl
  cases mv with
  | deal =>
    obtain ⟨i, left, dest, hp, -, rfl⟩ := stepAt_deal h
    exact lower (.dealing left) 0 0 (by simp only [hp, DkgPc.pot, List.length_cons]; omega)
  | dealt =>
    obtain ⟨hp, rfl⟩ := stepAt_dealt h
    exact lower _ _ _ (by simp only [hp, DkgPc.pot, List.length_nil, Nat.sub_zero]; omega)
  | popDeal =>
    obtain ⟨r, hp, hr, -, rfl⟩ := stepAt_popDeal h
    rw [Setup.respondBound_eq hn] at hr
    refine lower _ _ _ ?_
    obtain ⟨d, hd⟩ : ∃ d, S.participants.length - 1 - r = d + 1 := ⟨_, (Nat.succ_pred_eq_of_pos
      (by omega)).symm⟩
    simp only [hp, DkgPc.pot, hd, show S.participants.length - 1 - (r + 1) = d by omega,
      Nat.succ_mul]
    omega
  | respondTo =>
    obtain ⟨r, addr, left, hp, ⟨-, rfl⟩ | ⟨-, rfl⟩⟩ := stepAt_respondTo h <;>
      exact lower (.handling r left) 0 0 (by simp only [hp, DkgPc.pot, List.length_cons]; omega)
  | handled =>
    obtain ⟨r, hp, rfl⟩ := stepAt_handled h
    exact lower _ _ _ (by simp only [hp, DkgPc.pot, List.length_nil]; omega)
  | respondDone =>
    obtain ⟨r, hp, hr, rfl⟩ := stepAt_respondDone h
    rw [Setup.respondBound_eq hn] at hr
    refine lower _ _ _ ?_
    simp only [hp, DkgPc.pot, show S.participants.length - 1 - r = 0 by omega, Nat.zero_mul]
    omega
  | popResponse =>
    obtain ⟨r, hp, hr, -, rfl⟩ := stepAt_popResponse h
    rw [Setup.certifyBound_eq hn] at hr
    refine lower _ _ _ ?_
    simp only [hp, DkgPc.pot]
    omega
  | certifyDone =>
    obtain ⟨r, hp, -, rfl⟩ := stepAt_certifyDone h
    exact lower _ _ _ (by simp only [hp, DkgPc.pot]; omega)

theorem total_init (S : Setup A) : total S (init S) = S.participants.length *
    (S.others * (S.participants.length + 3) + S.others * S.others + 3) := by
  have hpot : ∀ a ∈ S.participants.toFinset,
      ((init S).pc a).pot S.participants.length (S.others * S.others) =
        S.others * (S.participants.length + 3) + S.others * S.others + 3 := fun a ha => by
    have hi := List.indexOf_lt_length.mpr (List.mem_toFinset.mp ha)
    have hlen : (S.dealKeys (S.participants.indexOf a)).length = S.others := by
      rw [(S.dealKeys_perm _ hi).length_eq, List.length_erase_of_mem (List.mem_range.mpr hi),
        List.length_range]
      rfl
    have hmul : S.others * (S.participants.length + 3) =
        S.others * (S.participants.length + 2) + S.others := Nat.mul_succ _ _
    simp only [init, DkgPc.pot, hlen, hmul]
    change S.others + 1 + (S.others * (S.participants.length + 2) + S.others * S.others + 2) = _
    omega
  rw [total, Finset.sum_const_nat hpot, List.toFinset_card_of_nodup S.nodup]

theorem total_run : ∀ {tr : List (A × DkgMove)} {s t : Dkg A}, run (step S) s tr = some t →
    total S t + tr.length ≤ total S s
  | [], _, _, h => by cases h; simp
  | _ :: _, _, _, h => by
    obtain ⟨u, hu, hrun⟩ := Option.bind_eq_some.mp h
    have := total_lt hu
    have := total_run hrun
    simp only [List.length_cons]
    omega

theorem Inv.completes (hi : Inv S s) :
    ∃ tr u, run (Dkg.step S) s tr = some u ∧ ∀ a ∈ S.participants, u.pc a = .done := by
  obtain ⟨k, hk⟩ : ∃ k, total S s = k := ⟨_, rfl⟩
  induction k using Nat.strong_induction_on generalizing s with
  | _ k ih =>
    by_cases hstuck : ∀ a ∈ S.participants, ∀ mv, s.stepAt S a mv = none
    · exact ⟨[], s, rfl, hi.all_done hstuck⟩
    · push_neg at hstuck
      obtain ⟨a, ha, mv, hmv⟩ := hstuck
      obtain ⟨t, ht⟩ := Option.ne_none_iff_exists'.mp hmv
      have hst : s.step S (a, mv) = some t := by simp [Dkg.step, ha, ht]
      obtain ⟨tr, u, hu, hdone⟩ := ih _ (hk ▸ total_lt hst) (hi.step hst) rfl
      exact ⟨(a, mv) :: tr, u, by simp [hst, hu], hdone⟩

theorem Inv.deals_over (hi : Inv S s) {b : A} (hb : b ∈ S.participants)
    (hp : (s.pc b).dealsHandled S.others = S.others) : s.sentDeals b = S.others ∧ s.deals b = 0 := by
  have := hi.dealsQueued b
  have := hi.dealsSent b hb
  omega

theorem Inv.resps_over (hi : Inv S s) {b : A} (hb : b ∈ S.participants)
    (hp : (s.pc b).respsHandled (S.others * S.others) = S.others * S.others) :
    s.sentResps b = S.others * S.others ∧ s.resps b = 0 := by
  have := hi.respsQueued b
  have := hi.respsSent b hb
  omega

theorem Inv.fits (hi : Inv S s) (hn : S.participants.length < 16) {b : A}
    (hb : b ∈ S.participants) :
    s.deals b ≤ s.sentDeals b ∧ s.sentDeals b < chanSize ∧
      s.resps b ≤ s.sentResps b ∧ s.sentResps b < chanSize := by
  have := hi.dealsSent b hb
  have := hi.respsSent b hb
  have := hi.dealsQueued b
  have := hi.respsQueued b
  have ho : S.others < 15 := by unfold Setup.others; omega
  have : S.others * S.others ≤ 14 * 14 := Nat.mul_le_mul (by omega) (by omega)
  simp only [chanSize]
  omega

end

/-- The fan-out of the DKG setup matches the loops that consume it. No participant is ever
sent more deals than `respond` pops, or more responses than `certify` pops; one that has
left a loop was sent everything it will ever get there, and popped it; and from every state
of the setup all participants can finish, each sent exactly `len(participants)-1` deals and
`(len(participants)-1)*(len(participants)-1)` responses. -/
theorem fanout_matches_loops (S : Setup A) (hn : S.participants.length < 16)
    {trace : List (A × DkgMove)} {s : Dkg A} (h : run (step S) (init S) trace = some s) :
    (∀ b ∈ S.participants, s.sentDeals b < chanSize ∧ s.sentResps b < chanSize) ∧
    (∀ b ∈ S.participants,
      (s.sentDeals b : Int) ≤ S.respondBound ∧ (s.sentResps b : Int) ≤ S.certifyBound) ∧
    (∀ b ∈ S.participants, ∀ r, s.pc b = .certifying r →
      (s.sentDeals b : Int) = S.respondBound ∧ s.deals b = 0) ∧
    (∀ b ∈ S.participants, s.pc b = .done →
      (s.sentDeals b : Int) = S.respondBound ∧ s.deals b = 0 ∧
        (s.sentResps b : Int) = S.certifyBound ∧ s.resps b = 0) ∧
    ∃ tr u, run (step S) s tr = some u ∧ ∀ b ∈ S.participants, u.pc b = .done ∧
      (u.sentDeals b : Int) = S.respondBound ∧ (u.sentResps b : Int) = S.certifyBound := by
  have hi := inv_run h
  have hpos : ∀ {b}, b ∈ S.participants → 0 < S.participants.length := List.length_pos_of_mem
  have hdone : ∀ {u : Dkg A}, Inv S u → ∀ b ∈ S.participants, u.pc b = .done →
      (u.sentDeals b : Int) = S.respondBound ∧ u.deals b = 0 ∧
        (u.sentResps b : Int) = S.certifyBound ∧ u.resps b = 0 := fun hu b hb hp => by
    obtain ⟨h1, h2⟩ := hu.deals_over hb (by simp [hp, DkgPc.dealsHandled])
    obtain ⟨h3, h4⟩ := hu.resps_over hb (by simp [hp, DkgPc.respsHandled])
    rw [Setup.respondBound_eq (hpos hb), Setup.certifyBound_eq (hpos hb), h1, h3]
    exact ⟨rfl, h2, rfl, h4⟩
  refine ⟨fun b hb => ?_, fun b hb => ?_, fun b hb r hp => ?_, fun b hb => hdone hi b hb, ?_⟩
  · exact ⟨(hi.fits hn hb).2.1, (hi.fits hn hb).2.2.2⟩
  · have := hi.dealsSent b hb
    have := hi.respsSent b hb
    rw [Setup.respondBound_eq (hpos hb), Setup.certifyBound_eq (hpos hb)]
    omega
  · obtain ⟨h1, h2⟩ := hi.deals_over hb (by simp [hp, DkgPc.dealsHandled])
    rw [Setup.respondBound_eq (hpos hb), h1]
    exact ⟨rfl, h2⟩
  · obtain ⟨tr, u, hu, hall⟩ := hi.completes
    have hiu : Inv S u := run_invariant (Inv S) (fun _ _ _ hs h => hs.step h) tr hi hu
    exact ⟨tr, u, hu, fun b hb =>
      ⟨hall b hb, (hdone hiu b hb (hall b hb)).1, (hdone hiu b hb (hall b hb)).2.2.1⟩⟩

def twoNodes : Setup Nat where
  participants := [0, 1]
  dealKeys k := (List.range 2).erase k
  nodup := by decide
  dealKeys_perm _ _ := List.Perm.refl _

theorem fanout_matches_loops_two_nodes :
    twoNodes.participants.length < 16 ∧
    ∃ s, run (step twoNodes) (init twoNodes) [(0, .deal), (1, .deal), (0, .dealt), (0, .popDeal)] =
      some s ∧
    ((∀ b ∈ twoNodes.participants, s.sentDeals b < chanSize ∧ s.sentResps b < chanSize) ∧
    (∀ b ∈ twoNodes.participants,
      (s.sentDeals b : Int) ≤ twoNodes.respondBound ∧
        (s.sentResps b : Int) ≤ twoNodes.certifyBound) ∧
    (∀ b ∈ twoNodes.participants, ∀ r, s.pc b = .certifying r →
      (s.sentDeals b : Int) = twoNodes.respondBound ∧ s.deals b = 0) ∧
    (∀ b ∈ twoNodes.participants, s.pc b = .done →
      (s.sentDeals b : Int) = twoNodes.respondBound ∧ s.deals b = 0 ∧
        (s.sentResps b : Int) = twoNodes.certifyBound ∧ s.resps b = 0) ∧
    ∃ tr u, run (step twoNodes) s tr = some u ∧ ∀ b ∈ twoNodes.participants, u.pc b = .done ∧
      (u.sentDeals b : Int) = twoNodes.respondBound ∧
        (u.sentResps b : Int) = twoNodes.certifyBound) := by
  obtain ⟨s, h⟩ : ∃ s, run (step twoNodes) (init twoNodes)
      [(0, .deal), (1, .deal), (0, .dealt), (0, .popDeal)] = some s := ⟨_, rfl⟩
  exact ⟨by decide, s, h, fanout_matches_loops twoNodes (by decide) h⟩

example : (run (step twoNodes) (init twoNodes)
    [(0, .deal), (1, .deal), (0, .dealt), (1, .dealt), (0, .popDeal), (0, .respondTo),
      (0, .respondTo), (0, .handled), (1, .popDeal), (1, .respondTo), (1, .respondTo),
      (1, .handled), (0, .respondDone), (1, .respondDone), (0, .popResponse), (1, .popResponse),
      (0, .certifyDone), (1, .certifyDone)]).map
      (fun s => (s.sentDeals 0, s.sentDeals 1, s.sentResps 0, s.sentResps 1,
        decide (s.pc 0 = .done ∧ s.pc 1 = .done))) =
    some (1, 1, 1, 1, true) := rfl

/-- The setup ends on every schedule: a run from the start makes at most
`n * ((n-1) * (n+3) + (n-1)^2 + 3)` moves for `n` participants, and a run that no participant
can go on with has every participant done, so no order of the moves leaves a loop waiting
for good. -/
theorem setup_terminates (S : Setup A) (hn : S.participants.length < 16)
    {trace : List (A × DkgMove)} {s : Dkg A} (h : run (step S) (init S) trace = some s) :
    trace.length ≤ S.participants.length *
        (S.others * (S.participants.length + 3) + S.others * S.others + 3) ∧
      (∀ b ∈ S.participants, s.deals b < chanSize ∧ s.resps b < chanSize) ∧
      ((∀ a ∈ S.participants, ∀ mv, s.stepAt S a mv = none) →
        ∀ a ∈ S.participants, s.pc a = .done) := by
  have hi := inv_run h
  refine ⟨?_, fun b hb => ?_, hi.all_done⟩
  · have := total_run h
    rw [total_init] at this
    omega
  · have := hi.fits hn hb
    omega

theorem setup_terminates_two_nodes :
    twoNodes.participants.length < 16 ∧
    ∃ s, run (step twoNodes) (init twoNodes)
      [(0, .deal), (1, .deal), (0, .dealt), (1, .dealt), (0, .popDeal), (0, .respondTo),
        (0, .respondTo), (0, .handled), (1, .popDeal), (1, .respondTo), (1, .respondTo),
        (1, .handled), (0, .respondDone), (1, .respondDone), (0, .popResponse), (1, .popResponse),
        (0, .certifyDone), (1, .certifyDone)] = some s ∧
      (18 ≤ twoNodes.participants.length *
          (twoNodes.others * (twoNodes.participants.length + 3) + twoNodes.others * twoNodes.others + 3) ∧
        (∀ b ∈ twoNodes.participants, s.deals b < chanSize ∧ s.resps b < chanSize) ∧
        ((∀ a ∈ twoNodes.participants, ∀ mv, s.stepAt twoNodes a mv = none) →
          ∀ a ∈ twoNodes.participants, s.pc a = .done)) := by
  obtain ⟨s, h⟩ : ∃ s, run (step twoNodes) (init twoNodes)
      [(0, .deal), (1, .deal), (0, .dealt), (1, .dealt), (0, .popDeal), (0, .respondTo),
        (0, .respondTo), (0, .handled), (1, .popDeal), (1, .respondTo), (1, .respondTo),
        (1, .handled), (0, .respondDone), (1, .respondDone), (0, .popResponse), (1, .popResponse),
        (0, .certifyDone), (1, .certifyDone)] = some s := ⟨_, rfl⟩
  exact ⟨by decide, s, h, setup_terminates twoNodes (by decide) h⟩

end Dkg

end Dela.Pedersen
