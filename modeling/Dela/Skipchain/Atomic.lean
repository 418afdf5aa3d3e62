import Dela.Skipchain.Database

/-!
`InMemoryDatabase.Atomic` among the other callers of one database. `Atomic` takes the
lock to clone the blocks, releases it while `tx` runs on the clone, and takes it again to
assign the clone to `db.blocks`. The other queries hold the lock for their whole call. So
each query, and each locked part of `Atomic`, is one step, and the steps of the callers
interleave in any order. A transaction acts on its snapshot through the `Queries`
interface; only its `Write` calls change the snapshot.
-/
namespace Dela.Skipchain

inductive AtomicPc (P : Type) where
  | running (snapshot : List (SkipBlock P))
  /-- `tx` returned an error: `couldn't execute transaction: %v` -/
  | aborted
  | committed
  deriving DecidableEq, Repr

structure Db (P : Type) where
  blocks : List (SkipBlock P)
  atomics : List (AtomicPc P)
  deriving DecidableEq, Repr

inductive DbAct (P : Type) where
  | write (b : SkipBlock P)
  | clone
  | txWrite (i : Nat) (b : SkipBlock P)
  | commit (i : Nat)
  | abort (i : Nat)
  deriving DecidableEq, Repr

variable {P : Type}

def applyWrites (blocks bs : List (SkipBlock P)) : List (SkipBlock P) := bs.foldl writeOrKeep blocks

def txWrites (i : Nat) : List (DbAct P) → List (SkipBlock P) :=
  List.filterMap fun
    | .txWrite j b => if j = i then some b else none
    | _ => none

theorem applyWrites_append (blocks xs ys : List (SkipBlock P)) :
    applyWrites blocks (xs ++ ys) = applyWrites (applyWrites blocks xs) ys := List.foldl_append ..

theorem txWrites_append (i : Nat) (xs ys : List (DbAct P)) :
    txWrites i (xs ++ ys) = txWrites i xs ++ txWrites i ys := List.filterMap_append ..

namespace Db

def init : Db P := ⟨[], []⟩

def runningAt (s : Db P) (i : Nat) (k : List (SkipBlock P) → Option (Db P)) : Option (Db P) :=
  match s.atomics[i]? with
  | some (.running snapshot) => k snapshot
  | _ => none

def step (s : Db P) : DbAct P → Option (Db P)
  | .write b => some { s with blocks := writeOrKeep s.blocks b }
  | .clone => some { s with atomics := s.atomics ++ [.running s.blocks] }
  | .txWrite i b => s.runningAt i fun snapshot =>
    some { s with atomics := s.atomics.set i (.running (writeOrKeep snapshot b)) }
  | .commit i => s.runningAt i fun snapshot =>
    some { blocks := snapshot, atomics := s.atomics.set i .committed }
  | .abort i => s.runningAt i fun _ => some { s with atomics := s.atomics.set i .aborted }

theorem runningAt_eq_some {s t : Db P} {i : Nat} {k : List (SkipBlock P) → Option (Db P)} :
    s.runningAt i k = some t ↔ ∃ snapshot, s.atomics[i]? = some (.running snapshot) ∧ k snapshot = some t := by
  unfold runningAt
  split <;> simp_all

section
variable {s t : Db P} {i : Nat}

theorem step_txWrite {b : SkipBlock P} (h : s.step (.txWrite i b) = some t) :
    ∃ snapshot, s.atomics[i]? = some (.running snapshot) ∧
      t = { s with atomics := s.atomics.set i (.running (writeOrKeep snapshot b)) } := by
  obtain ⟨snapshot, hi, ⟨⟩⟩ := runningAt_eq_some.mp h
  exact ⟨snapshot, hi, rfl⟩

theorem step_commit (h : s.step (.commit i) = some t) :
    ∃ snapshot, s.atomics[i]? = some (.running snapshot) ∧
      t = { blocks := snapshot, atomics := s.atomics.set i .committed } := by
  obtain ⟨snapshot, hi, ⟨⟩⟩ := runningAt_eq_some.mp h
  exact ⟨snapshot, hi, rfl⟩

theorem step_abort (h : s.step (.abort i) = some t) :
    ∃ snapshot, s.atomics[i]? = some (.running snapshot) ∧
      t = { s with atomics := s.atomics.set i .aborted } := by
  obtain ⟨snapshot, hi, ⟨⟩⟩ := runningAt_eq_some.mp h
  exact ⟨snapshot, hi, rfl⟩

end

structure Inv (s : Db P) : Prop where
  blocks : Indexed s.blocks
  snapshots : ∀ (i : Nat) (snapshot : List (SkipBlock P)),
    s.atomics[i]? = some (.running snapshot) → Indexed snapshot

theorem inv_init : Inv (init : Db P) := ⟨indexed_nil, by simp [init]⟩

theorem Inv.set {s : Db P} (hs : Inv s) {i : Nat} {x : AtomicPc P}
    (hx : ∀ snapshot, x = .running snapshot → Indexed snapshot) :
    ∀ (j : Nat) (snapshot : List (SkipBlock P)),
      (s.atomics.set i x)[j]? = some (.running snapshot) → Indexed snapshot := by
  intro j snapshot hj
  by_cases hij : i = j
  · subst hij
    rcases Nat.lt_or_ge i s.atomics.length with hi | hi
    · rw [List.getElem?_set_self hi] at hj
      exact hx snapshot (Option.some.inj hj)
    · rw [List.getElem?_eq_none (by simpa using hi)] at hj
      cases hj
  · rw [List.getElem?_set_ne hij] at hj
    exact hs.snapshots j snapshot hj

theorem Inv.step {s t : Db P} (hs : Inv s) {a : DbAct P} (h : s.step a = some t) : Inv t := by
  cases a with
  | write b => cases h; exact ⟨hs.blocks.writeOrKeep b, hs.snapshots⟩
  | clone =>
    cases h
    refine ⟨hs.blocks, fun j snapshot hj => ?_⟩
    rcases getElem?_concat_eq_some.mp hj with hj | ⟨-, ⟨⟩⟩
    · exact hs.snapshots j snapshot hj
    · exact hs.blocks
  | txWrite i b =>
    obtain ⟨snapshot, hi, rfl⟩ := step_txWrite h
    exact ⟨hs.blocks, hs.set fun _ h => by cases h; exact (hs.snapshots i snapshot hi).writeOrKeep b⟩
  | commit i =>
    obtain ⟨snapshot, hi, rfl⟩ := step_commit h
    exact ⟨hs.snapshots i snapshot hi, hs.set fun _ h => by cases h⟩
  | abort i =>
    obtain ⟨snapshot, hi, rfl⟩ := step_abort h
    exact ⟨hs.blocks, hs.set fun _ h => by cases h⟩

theorem inv_run {trace : List (DbAct P)} {s : Db P} (h : run step init trace = some s) : Inv s :=
  run_invariant Inv (fun _ _ _ hs h => hs.step h) trace inv_init h

/-- `Read`, `Contains`, `Write` and `ReadLast` after any interleaving of `Write` and `Atomic`
calls: every block sits at its index, so `Read` of a non-negative index agrees with
`Contains`; but `Read` of a negative index passes its one check and panics. -/
theorem database_queries_indexed {trace : List (DbAct P)} {s : Db P}
    (h : run step init trace = some s) :
    Indexed s.blocks ∧
    (∀ b : SkipBlock P, (∃ l, write s.blocks b = .ok l) ↔ b.index ≤ s.blocks.length) ∧
    (∀ i : Int, 0 ≤ i →
      (contains s.blocks i.toNat = true →
        ∃ b, read s.blocks i = .ok (.ok b) ∧ b.index = i.toNat) ∧
      (contains s.blocks i.toNat = false → read s.blocks i = .ok (.error (.noBlock i)))) ∧
    (∀ i : Int, i < 0 → read s.blocks i = .panics) ∧
    (s.blocks = [] → readLast s.blocks = .error .empty) ∧
    (s.blocks ≠ [] → ∃ b, readLast s.blocks = .ok b ∧ b.index = s.blocks.length - 1) := by
  have hs := (inv_run h).blocks
  refine ⟨hs, write_ok_iff s.blocks, fun i hi => ⟨fun hc => ?_, (hs.read_of_nonneg hi).2⟩,
    fun _ => read_of_neg s.blocks, hs.readLast⟩
  obtain ⟨b, hb, -, hbi⟩ := (hs.read_of_nonneg hi).1 hc
  exact ⟨b, hb, hbi⟩

theorem database_queries_indexed_after_write :
    ∃ s, run step (init : Db Unit) [.write ⟨0, ()⟩, .clone, .txWrite 0 ⟨1, ()⟩, .commit 0] =
      some s ∧
    (Indexed s.blocks ∧
    (∀ b : SkipBlock Unit, (∃ l, write s.blocks b = .ok l) ↔ b.index ≤ s.blocks.length) ∧
    (∀ i : Int, 0 ≤ i →
      (contains s.blocks i.toNat = true →
        ∃ b, read s.blocks i = .ok (.ok b) ∧ b.index = i.toNat) ∧
      (contains s.blocks i.toNat = false → read s.blocks i = .ok (.error (.noBlock i)))) ∧
    (∀ i : Int, i < 0 → read s.blocks i = .panics) ∧
    (s.blocks = [] → readLast s.blocks = .error .empty) ∧
    (s.blocks ≠ [] → ∃ b, readLast s.blocks = .ok b ∧ b.index = s.blocks.length - 1)) := by
  obtain ⟨s, h⟩ : ∃ s, run step (init : Db Unit)
      [.write ⟨0, ()⟩, .clone, .txWrite 0 ⟨1, ()⟩, .commit 0] = some s := by exact ⟨_, rfl⟩
  exact ⟨s, h, database_queries_indexed h⟩

theorem read_negative_index_panics :
    (run step (init : Db Unit) [.write ⟨0, ()⟩]).map (fun s => read s.blocks (-1)) =
      some .panics := rfl

section
variable {s t : Db P} {a : DbAct P}

theorem atomics_length_le (h : s.step a = some t) : s.atomics.length ≤ t.atomics.length := by
  cases a with
  | write b => cases h; exact le_rfl
  | clone => cases h; simp
  | txWrite i b => obtain ⟨_, -, rfl⟩ := step_txWrite h; simp
  | commit i => obtain ⟨_, -, rfl⟩ := step_commit h; simp
  | abort i => obtain ⟨_, -, rfl⟩ := step_abort h; simp

theorem running_before (h : s.step a = some t) {i : Nat} (hi : i < s.atomics.length)
    {snapshot : List (SkipBlock P)} (ht : t.atomics[i]? = some (.running snapshot)) :
    ∃ snapshot₀, s.atomics[i]? = some (.running snapshot₀) ∧
      snapshot = applyWrites snapshot₀ (txWrites i [a]) := by
  cases a with
  | write b => cases h; exact ⟨snapshot, ht, by simp [txWrites, applyWrites]⟩
  | clone =>
    cases h
    rw [List.getElem?_append_left hi] at ht
    exact ⟨snapshot, ht, by simp [txWrites, applyWrites]⟩
  | txWrite j b =>
    obtain ⟨snapshot₀, hj, rfl⟩ := step_txWrite h
    by_cases hij : j = i
    · subst hij
      rw [List.getElem?_set_self hi] at ht
      cases ht
      exact ⟨snapshot₀, hj, by simp [txWrites, applyWrites]⟩
    · rw [List.getElem?_set_ne hij] at ht
      exact ⟨snapshot, ht, by simp [txWrites, applyWrites, hij]⟩
  | commit j | abort j =>
    first
      | obtain ⟨_, -, rfl⟩ := step_commit h
      | obtain ⟨_, -, rfl⟩ := step_abort h
    by_cases hij : j = i
    · subst hij
      rw [List.getElem?_set_self hi] at ht
      cases ht
    · rw [List.getElem?_set_ne hij] at ht
      exact ⟨snapshot, ht, by simp [txWrites, applyWrites]⟩

end

theorem atomics_length_run {s t : Db P} {mid : List (DbAct P)} (h : run step s mid = some t) :
    s.atomics.length ≤ t.atomics.length :=
  run_invariant (fun u => s.atomics.length ≤ u.atomics.length)
    (fun _ _ _ hu h => le_trans hu (atomics_length_le h)) mid le_rfl h

theorem running_before_run {s t : Db P} {mid : List (DbAct P)} (h : run step s mid = some t)
    {i : Nat} (hi : i < s.atomics.length) {snapshot : List (SkipBlock P)}
    (ht : t.atomics[i]? = some (.running snapshot)) :
    ∃ snapshot₀, s.atomics[i]? = some (.running snapshot₀) ∧
      snapshot = applyWrites snapshot₀ (txWrites i mid) := by
  induction mid using List.reverseRecOn generalizing t snapshot with
  | nil => cases h; exact ⟨snapshot, ht, rfl⟩
  | append_singleton mid a ih =>
    obtain ⟨u, hu, hstep⟩ := run_snoc_eq_some h
    obtain ⟨snapshot₁, hu', rfl⟩ :=
      running_before hstep (lt_of_lt_of_le hi (atomics_length_run hu)) ht
    obtain ⟨snapshot₀, hs, rfl⟩ := ih hu hu'
    exact ⟨snapshot₀, hs, by rw [txWrites_append, applyWrites_append]⟩

/-- An `Atomic` call clones, then any callers take any steps while its `tx` runs, then it
commits: the blocks are those it cloned with its `tx`'s own writes applied, and every
`Write` and commit of the others in between is gone. -/
theorem commit_installs_snapshot {p s : Db P} {mid : List (DbAct P)}
    (h : run step p (.clone :: mid ++ [.commit p.atomics.length]) = some s) :
    s.blocks = applyWrites p.blocks (txWrites p.atomics.length mid) := by
  change run step { p with atomics := p.atomics ++ [.running p.blocks] }
    (mid ++ [.commit p.atomics.length]) = some s at h
  obtain ⟨u, hu, hc⟩ := run_snoc_eq_some h
  obtain ⟨snapshot, hsnap, rfl⟩ := step_commit hc
  obtain ⟨snapshot₀, h0, rfl⟩ := running_before_run hu (by simp) hsnap
  simp only [List.getElem?_concat_length, Option.some.injEq, AtomicPc.running.injEq] at h0
  rw [h0]

theorem commit_installs_snapshot_after_write :
    ∃ s, run step (init : Db Unit)
      (.clone :: [.write ⟨0, ()⟩, .txWrite 0 ⟨0, ()⟩] ++ [.commit (init : Db Unit).atomics.length])
        = some s ∧
      s.blocks = applyWrites (init : Db Unit).blocks
        (txWrites (init : Db Unit).atomics.length [.write ⟨0, ()⟩, .txWrite 0 ⟨0, ()⟩]) := by
  obtain ⟨s, h⟩ : ∃ s, run step (init : Db Unit)
      (.clone :: [.write ⟨0, ()⟩, .txWrite 0 ⟨0, ()⟩] ++ [.commit (init : Db Unit).atomics.length])
        = some s := by exact ⟨_, rfl⟩
  exact ⟨s, h, commit_installs_snapshot h⟩

theorem write_lost_under_atomic :
    write ([] : List (SkipBlock Unit)) ⟨0, ()⟩ = .ok [⟨0, ()⟩] ∧
    (run step init [.clone, .write ⟨0, ()⟩]).map (·.blocks) = some [⟨0, ()⟩] ∧
    (run step init [.clone, .write ⟨0, ()⟩, .commit 0]).map (·.blocks) =
      some ([] : List (SkipBlock Unit)) :=
  ⟨rfl, rfl, rfl⟩

end Db

inductive DbCall (P : Type) where
  | write (b : SkipBlock P)
  | atomic (ws : List (SkipBlock P)) (commits : Bool)
  deriving DecidableEq, Repr

namespace DbCall

def apply (blocks : List (SkipBlock P)) : DbCall P → List (SkipBlock P)
  | .write b => writeOrKeep blocks b
  | .atomic ws true => applyWrites blocks ws
  | .atomic _ false => blocks

def steps (i : Nat) : DbCall P → List (DbAct P)
  | .write b => [.write b]
  | .atomic ws commits =>
    .clone :: ws.map (.txWrite i) ++ [if commits then .commit i else .abort i]

def clones : DbCall P → Nat
  | .write _ => 0
  | .atomic _ _ => 1

end DbCall

def serial (i : Nat) : List (DbCall P) → List (DbAct P)
  | [] => []
  | c :: cs => c.steps i ++ serial (i + c.clones) cs

namespace Db

theorem run_txWrites (blocks : List (SkipBlock P)) (atomics : List (AtomicPc P)) :
    ∀ (snapshot ws : List (SkipBlock P)),
      run step ⟨blocks, atomics ++ [.running snapshot]⟩ (ws.map (.txWrite atomics.length)) =
        some ⟨blocks, atomics ++ [.running (applyWrites snapshot ws)]⟩
  | _, [] => rfl
  | snapshot, b :: ws => by
    simp only [List.map_cons, run_cons, step, runningAt, List.getElem?_concat_length,
      List.set_append_right _ _ le_rfl, Nat.sub_self, List.set_cons_zero, Option.some_bind]
    exact run_txWrites blocks atomics (writeOrKeep snapshot b) ws

theorem run_steps (s : Db P) (c : DbCall P) :
    ∃ t, run step s (c.steps s.atomics.length) = some t ∧ t.blocks = c.apply s.blocks ∧
      t.atomics.length = s.atomics.length + c.clones := by
  cases c with
  | write b => exact ⟨_, rfl, rfl, rfl⟩
  | atomic ws commits =>
    have hw := run_txWrites s.blocks s.atomics s.blocks ws
    refine ⟨⟨if commits then applyWrites s.blocks ws else s.blocks,
      s.atomics ++ [if commits then .committed else .aborted]⟩, ?_, ?_, by simp [DbCall.clones]⟩
    · simp only [DbCall.steps, List.cons_append, run_cons, step, Option.some_bind]
      rw [run_append, hw, Option.some_bind]
      cases commits <;> simp [step, runningAt, List.set_append_right _ _ le_rfl]
    · cases commits <;> rfl

/-- Calls that do not overlap are serializable: from every state, a schedule of whole
calls runs to its end, and leaves the blocks that running the calls one after the other
on the block list gives, each `Atomic` as its transaction's writes or as nothing. -/
theorem serial_refines (s : Db P) (cs : List (DbCall P)) :
    ∃ t, run step s (serial s.atomics.length cs) = some t ∧
      t.blocks = cs.foldl DbCall.apply s.blocks := by
  induction cs generalizing s with
  | nil => exact ⟨s, rfl, rfl⟩
  | cons c cs ih =>
    obtain ⟨u, hu, hb, hn⟩ := run_steps s c
    obtain ⟨t, ht, htb⟩ := ih u
    refine ⟨t, ?_, by rw [htb, hb]; rfl⟩
    rw [serial, run_append, hu, Option.some_bind, ← hn, ht]

example : (run step (init : Db Nat) (serial 0 [.write ⟨0, 1⟩, .atomic [⟨0, 2⟩, ⟨1, 2⟩] false,
    .atomic [⟨1, 3⟩] true])).map (·.blocks) = some [⟨0, 1⟩, ⟨1, 3⟩] := rfl

end Db

end Dela.Skipchain
