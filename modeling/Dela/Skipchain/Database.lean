import Dela.Chan
import Dela.Trace

/-!
The in-memory block store of blockchain/skipchain: the queries of `InMemoryDatabase`
(`Write`, `Contains`, `Read`, `ReadLast`) as functions of its block list. Each query
holds the database's mutex for its whole call, so each is one step of whoever calls it.
A block is its index and the rest of its content, which no query reads.
-/
namespace Dela.Skipchain

structure SkipBlock (P : Type) where
  index : Nat
  payload : P
  deriving DecidableEq, Repr

inductive DbError where
  /-- `NoBlockError`: `block at index %d not found` -/
  | noBlock (index : Int)
  /-- `missing intermediate blocks for index %d` -/
  | missingIntermediate (index : Nat)
  /-- `database is empty` -/
  | empty
  deriving DecidableEq, Repr

variable {P : Type}

def write (blocks : List (SkipBlock P)) (b : SkipBlock P) : Except DbError (List (SkipBlock P)) :=
  if blocks.length = b.index then .ok (blocks ++ [b])
  else if b.index < blocks.length then .ok (blocks.set b.index b)
  else .error (.missingIntermediate b.index)

def contains (blocks : List (SkipBlock P)) (index : Nat) : Bool := index < blocks.length

def read (blocks : List (SkipBlock P)) (index : Int) : Outcome (Except DbError (SkipBlock P)) :=
  if index < blocks.length then
    if 0 ≤ index then
      match blocks[index.toNat]? with
      | some b => .ok (.ok b)
      | none => .panics
    else .panics
  else .ok (.error (.noBlock index))

def readLast (blocks : List (SkipBlock P)) : Except DbError (SkipBlock P) :=
  match blocks.getLast? with
  | some b => .ok b
  | none => .error .empty

def writeOrKeep (blocks : List (SkipBlock P)) (b : SkipBlock P) : List (SkipBlock P) :=
  match write blocks b with
  | .ok l => l
  | .error _ => blocks

def Indexed (blocks : List (SkipBlock P)) : Prop :=
  ∀ (i : Nat) (b : SkipBlock P), blocks[i]? = some b → b.index = i

theorem indexed_nil : Indexed ([] : List (SkipBlock P)) := by simp [Indexed]

theorem write_ok_iff (blocks : List (SkipBlock P)) (b : SkipBlock P) :
    (∃ l, write blocks b = .ok l) ↔ b.index ≤ blocks.length := by
  unfold write
  split
  · exact ⟨fun _ => by omega, fun _ => ⟨_, rfl⟩⟩
  · split
    · exact ⟨fun _ => by omega, fun _ => ⟨_, rfl⟩⟩
    · exact ⟨fun ⟨_, h⟩ => (by cases h), fun _ => by omega⟩

theorem Indexed.write {blocks l : List (SkipBlock P)} {b : SkipBlock P} (h : Indexed blocks)
    (hw : write blocks b = .ok l) : Indexed l := by
  unfold Skipchain.write at hw
  split at hw
  · cases hw
    intro i c hc
    rcases getElem?_concat_eq_some.mp hc with hc | ⟨rfl, rfl⟩
    · exact h i c hc
    · omega
  · split at hw
    · cases hw
      intro i c hc
      by_cases hi : b.index = i
      · subst hi
        rw [List.getElem?_set_self ‹_›] at hc
        cases hc; rfl
      · rw [List.getElem?_set_ne hi] at hc
        exact h i c hc
    · cases hw

theorem Indexed.writeOrKeep {blocks : List (SkipBlock P)} (h : Indexed blocks) (b : SkipBlock P) :
    Indexed (writeOrKeep blocks b) := by
  unfold Skipchain.writeOrKeep
  split
  · exact h.write ‹_›
  · exact h

theorem Indexed.read_of_nonneg {blocks : List (SkipBlock P)} (h : Indexed blocks) {i : Int}
    (hi : 0 ≤ i) :
    (contains blocks i.toNat = true →
      ∃ b, read blocks i = .ok (.ok b) ∧ blocks[i.toNat]? = some b ∧ b.index = i.toNat) ∧
    (contains blocks i.toNat = false → read blocks i = .ok (.error (.noBlock i))) := by
  constructor
  · intro hc
    have hlt : i.toNat < blocks.length := by simpa [contains] using hc
    obtain ⟨b, hb⟩ : ∃ b, blocks[i.toNat]? = some b := ⟨_, List.getElem?_eq_getElem hlt⟩
    refine ⟨b, ?_, hb, h _ b hb⟩
    rw [read, if_pos (by omega), if_pos hi, hb]
  · intro hc
    have hge : blocks.length ≤ i.toNat := by simpa [contains] using hc
    rw [read, if_neg (by omega)]

theorem read_of_neg (blocks : List (SkipBlock P)) {i : Int} (hi : i < 0) : read blocks i = .panics := by
  rw [read, if_pos (by omega), if_neg (by omega)]

theorem Indexed.readLast {blocks : List (SkipBlock P)} (h : Indexed blocks) :
    (blocks = [] → Skipchain.readLast blocks = .error .empty) ∧
    (blocks ≠ [] → ∃ b, Skipchain.readLast blocks = .ok b ∧ b.index = blocks.length - 1) := by
  refine ⟨fun he => by simp [Skipchain.readLast, he], fun hne => ?_⟩
  obtain ⟨b, hb⟩ : ∃ b, blocks.getLast? = some b := ⟨_, List.getLast?_eq_getLast blocks hne⟩
  refine ⟨b, by simp [Skipchain.readLast, hb], h _ b ?_⟩
  rw [List.getLast?_eq_getElem?] at hb
  exact hb

theorem read_eq_getElem? (blocks : List (SkipBlock P)) {j : Int} (hj : 0 ≤ j) :
    read blocks j = match blocks[j.toNat]? with
      | some b => .ok (.ok b)
      | none => .ok (.error (.noBlock j)) := by
  unfold read
  by_cases hl : j < blocks.length
  · rw [if_pos hl, if_pos hj, List.getElem?_eq_getElem (by omega)]
  · rw [if_neg hl, List.getElem?_eq_none (by omega)]

theorem write_getElem? {blocks l : List (SkipBlock P)} {b : SkipBlock P}
    (h : write blocks b = .ok l) (j : Nat) : l[j]? = if j = b.index then some b else blocks[j]? := by
  unfold write at h
  split at h
  · cases h
    rcases Nat.lt_trichotomy j blocks.length with hj | rfl | hj
    · rw [List.getElem?_append_left hj, if_neg (by omega)]
    · simp [*]
    · rw [List.getElem?_eq_none (by simp; omega), if_neg (by omega), List.getElem?_eq_none (by omega)]
  · split at h
    · cases h
      rw [List.getElem?_set]
      by_cases hj : j = b.index
      · simp [hj, *]
      · rw [if_neg (Ne.symm hj), if_neg hj]
    · cases h

/-- A `Write` that succeeds stores the block under its index: `Read` of that index returns
it, and `Read` of every other index, negative ones included, returns what it returned
before. -/
theorem read_after_write {blocks l : List (SkipBlock P)} {b : SkipBlock P}
    (h : write blocks b = .ok l) :
    read l b.index = .ok (.ok b) ∧ ∀ j : Int, j ≠ b.index → read l j = read blocks j := by
  have hl := write_getElem? h
  refine ⟨?_, fun j hj => ?_⟩
  · rw [read_eq_getElem? l (Int.ofNat_nonneg _), Int.toNat_ofNat, hl, if_pos rfl]
  by_cases hn : j < 0
  · rw [read_of_neg _ hn, read_of_neg _ hn]
  · rw [read_eq_getElem? l (by omega), read_eq_getElem? blocks (by omega), hl, if_neg (by omega)]

theorem read_after_write_overwrite :
    write [⟨0, 1⟩, ⟨1, 1⟩] (⟨0, 2⟩ : SkipBlock Nat) = .ok [⟨0, 2⟩, ⟨1, 1⟩] ∧
      (read [⟨0, 2⟩, ⟨1, 1⟩] ((⟨0, 2⟩ : SkipBlock Nat).index : Int) = .ok (.ok ⟨0, 2⟩) ∧
        ∀ j : Int, j ≠ ((⟨0, 2⟩ : SkipBlock Nat).index : Int) →
          read [⟨0, 2⟩, ⟨1, 1⟩] j = read [⟨0, 1⟩, ⟨1, 1⟩] j) :=
  ⟨rfl, read_after_write rfl⟩

end Dela.Skipchain
