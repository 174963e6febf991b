import Mathlib.Data.List.Basic

/-!
# Bitsets (`porcupine/bitset.go`)

A bitset is a slice of words of 64 bits; an access past its end panics. It stands for the
set of the positions whose bit is 1.
-/

namespace RaftImplementation.Porcupine

abbrev Word := BitVec 64

/-- Bits 0-63 are in the first word, the next are in the second, etc. -/
abbrev Bitset := List Word

def newBitset (bits : Nat) : Bitset :=
  let extra := if bits % 64 ≠ 0 then 1 else 0
  List.replicate (bits / 64 + extra) 0

def bitsetIndex (pos : Nat) : Nat × Nat := (pos / 64, pos % 64)

/-- `math/bits` counts the ones of a word. -/
def onesCount64 (v : Word) : Nat := (List.range 64).countP v.getLsbD

namespace Bitset

def set (b : Bitset) (pos : Nat) : Option Bitset :=
  let (major, minor) := bitsetIndex pos
  b[major]?.map fun w => List.set b major (w ||| 1#64 <<< minor)

def clear (b : Bitset) (pos : Nat) : Option Bitset :=
  let (major, minor) := bitsetIndex pos
  b[major]?.map fun w => List.set b major (w &&& ~~~(1#64 <<< minor))

def popcnt (b : Bitset) : Nat := b.foldl (fun total v => total + onesCount64 v) 0

def hash (b : Bitset) : Word := b.foldl (· ^^^ ·) (BitVec.ofNat 64 b.popcnt)

def equals (b b2 : Bitset) : Bool :=
  if b.length ≠ b2.length then false
  else (b.zip b2).all fun (v, v2) => v = v2

/-! ## The set that a bitset stands for -/

/-- The bit at a position, 0 past the end. -/
def bit (b : Bitset) (pos : Nat) : Bool := (b.getD (pos / 64) 0).getLsbD (pos % 64)

/-- `b` has room for `bits` positions and stands for `A`. -/
structure Represents (b : Bitset) (bits : Nat) (A : List Nat) : Prop where
  length : b.length = (newBitset bits).length
  bit : ∀ pos, b.bit pos = decide (pos ∈ A)

theorem getLsbD_mask {minor : Nat} (hminor : minor < 64) (j : Nat) :
    (1#64 <<< minor).getLsbD j = decide (j = minor) := by
  rw [← BitVec.twoPow_eq, BitVec.getLsbD_twoPow, decide_eq_true hminor, Bool.true_and]
  exact decide_eq_decide.mpr eq_comm

theorem bit_set_word (b : Bitset) {major : Nat} (hmajor : major < b.length) (w : Word) (pos : Nat) :
    bit (List.set b major w) pos =
      if pos / 64 = major then w.getLsbD (pos % 64) else b.bit pos := by
  unfold bit
  by_cases hpos : pos / 64 = major
  · subst hpos
    simp [hmajor]
  · rw [if_neg hpos]
    simp [List.getD_eq_getElem?_getD, List.getElem?_set_ne (Ne.symm hpos)]

theorem bit_eq {b : Bitset} {pos : Nat} {w : Word} (hw : b[pos / 64]? = some w) :
    b.bit pos = w.getLsbD (pos % 64) := by
  rw [bit, List.getD_eq_getElem?_getD, hw]
  rfl

theorem set_eq {b : Bitset} {pos : Nat} {w : Word} (hw : b[pos / 64]? = some w) :
    b.set pos = some (List.set b (pos / 64) (w ||| 1#64 <<< (pos % 64))) := by
  simp only [set, bitsetIndex, hw, Option.map_some]

theorem clear_eq {b : Bitset} {pos : Nat} {w : Word} (hw : b[pos / 64]? = some w) :
    b.clear pos = some (List.set b (pos / 64) (w &&& ~~~(1#64 <<< (pos % 64)))) := by
  simp only [clear, bitsetIndex, hw, Option.map_some]

theorem length_set {b b' : Bitset} {pos : Nat} (h : b.set pos = some b') : b'.length = b.length := by
  obtain ⟨w, -, rfl⟩ := Option.map_eq_some_iff.mp h
  exact List.length_set

theorem bit_set {b b' : Bitset} {pos : Nat} (h : b.set pos = some b') (pos' : Nat) :
    b'.bit pos' = (b.bit pos' || decide (pos' = pos)) := by
  obtain ⟨w, hw, rfl⟩ := Option.map_eq_some_iff.mp h
  rw [bit_set_word b (List.getElem?_eq_some_iff.mp hw).1]
  by_cases hmajor : pos' / 64 = pos / 64
  · rw [if_pos hmajor, BitVec.getLsbD_or, getLsbD_mask (Nat.mod_lt _ (by decide)),
      bit_eq (hmajor ▸ hw)]
    congr 1
    exact decide_eq_decide.mpr (by omega)
  · have hne : pos' ≠ pos := fun heq => hmajor (congrArg (· / 64) heq)
    simp [hmajor, hne]

theorem bit_clear {b b' : Bitset} {pos : Nat} (h : b.clear pos = some b') (pos' : Nat) :
    b'.bit pos' = (b.bit pos' && decide (pos' ≠ pos)) := by
  obtain ⟨w, hw, rfl⟩ := Option.map_eq_some_iff.mp h
  rw [bit_set_word b (List.getElem?_eq_some_iff.mp hw).1]
  by_cases hmajor : pos' / 64 = pos / 64
  · rw [if_pos hmajor, BitVec.getLsbD_and, BitVec.getLsbD_not,
      getLsbD_mask (Nat.mod_lt _ (by decide)), bit_eq (hmajor ▸ hw),
      decide_eq_true (Nat.mod_lt _ (by decide)), Bool.true_and, ← decide_not]
    congr 1
    exact decide_eq_decide.mpr (by omega)
  · have hne : pos' ≠ pos := fun heq => hmajor (congrArg (· / 64) heq)
    simp [hmajor, hne]

/-- Bitsets of one length are told apart by their bits. -/
theorem eq_of_bit {b b2 : Bitset} (hlen : b.length = b2.length) (h : ∀ pos, b.bit pos = b2.bit pos) :
    b = b2 := by
  apply List.ext_getElem hlen
  intro i hi hi2
  apply BitVec.eq_of_getLsbD_eq
  intro j hj
  have hbit := h (64 * i + j)
  have hdiv : (64 * i + j) / 64 = i := by omega
  have hmod : (64 * i + j) % 64 = j := by omega
  have hw : b[(64 * i + j) / 64]? = some b[i] := by rw [hdiv, List.getElem?_eq_getElem hi]
  have hw2 : b2[(64 * i + j) / 64]? = some b2[i] := by rw [hdiv, List.getElem?_eq_getElem hi2]
  rwa [bit_eq hw, bit_eq hw2, hmod] at hbit

theorem equals_iff {b b2 : Bitset} : b.equals b2 = true ↔ b = b2 := by
  unfold equals
  constructor
  · intro h
    by_cases hlen : b.length = b2.length
    · rw [if_neg (by simpa using hlen)] at h
      apply List.ext_getElem hlen
      intro i hi hi2
      have hmem : (b[i], b2[i]) ∈ b.zip b2 :=
        List.mem_iff_getElem.mpr ⟨i, by simp [← hlen, hi], by simp⟩
      simpa using List.all_eq_true.mp h _ hmem
    · rw [if_pos hlen] at h
      cases h
  · rintro rfl
    rw [if_neg (by simp)]
    induction b with
    | nil => rfl
    | cons v b ih => simpa using ih

theorem represents_new (bits : Nat) : (newBitset bits).Represents bits [] := by
  refine ⟨rfl, fun pos => ?_⟩
  have hword : (newBitset bits).getD (pos / 64) 0 = 0 := by
    rw [newBitset, List.getD_eq_getElem?_getD, List.getElem?_replicate]
    by_cases hlt : pos / 64 < bits / 64 + if bits % 64 ≠ 0 then 1 else 0
    · rw [if_pos hlt]
      rfl
    · rw [if_neg hlt]
      rfl
  rw [bit, hword]
  exact BitVec.getLsbD_zero

namespace Represents

variable {b b' b2 : Bitset} {bits pos : Nat} {A B : List Nat}

/-- There is a word for every position. -/
theorem getElem?_eq (h : b.Represents bits A) (hpos : pos < bits) : ∃ w, b[pos / 64]? = some w := by
  have hlt : pos / 64 < b.length := by
    rw [h.length, newBitset, List.length_replicate]
    split
    · omega
    · omega
  exact ⟨_, List.getElem?_eq_getElem hlt⟩

/-- A position is put in. -/
theorem set (h : b.Represents bits A) (hpos : pos < bits) :
    ∃ b', b.set pos = some b' ∧ b'.Represents bits (A ++ [pos]) := by
  obtain ⟨w, hw⟩ := h.getElem?_eq hpos
  have hset := set_eq hw
  refine ⟨_, hset, (length_set hset).trans h.length, ?_⟩
  intro pos'
  rw [bit_set hset, h.bit, ← Bool.decide_or]
  simp

/-- A position that was put in is taken out. -/
theorem clear_set (h : b.Represents bits A) (hset : b.set pos = some b') (hpos : pos ∉ A) :
    b'.clear pos = some b := by
  obtain ⟨w, hw, rfl⟩ := Option.map_eq_some_iff.mp hset
  have hword : (List.set b (pos / 64) (w ||| 1#64 <<< (pos % 64)))[pos / 64]? =
      some (w ||| 1#64 <<< (pos % 64)) := by
    rw [List.getElem?_set_self (List.getElem?_eq_some_iff.mp hw).1]
  have hclear := clear_eq hword
  refine hclear.trans (congrArg some ?_)
  apply eq_of_bit
  · simp
  · intro pos'
    rw [bit_clear hclear, bit_set hset, h.bit]
    by_cases hpos' : pos' = pos
    · subst hpos'
      simp [hpos]
    · simp [hpos']

/-- `equals` tells whether the sets are the same. -/
theorem equals_iff (h : b.Represents bits A) (h2 : b2.Represents bits B) :
    b.equals b2 = true ↔ ∀ pos, pos ∈ A ↔ pos ∈ B := by
  rw [Bitset.equals_iff]
  constructor
  · rintro rfl pos
    have hbit := (h.bit pos).symm.trans (h2.bit pos)
    exact decide_eq_decide.mp hbit
  · intro hAB
    apply eq_of_bit (h.length.trans h2.length.symm)
    intro pos
    rw [h.bit, h2.bit]
    exact decide_eq_decide.mpr (hAB pos)

end Represents

end Bitset

end RaftImplementation.Porcupine
