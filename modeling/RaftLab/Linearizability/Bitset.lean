import Mathlib.Tactic

set_option autoImplicit false

/-! # Bitsets

The checker keeps the set of operations it has linearized in a slice of 64-bit words: bits 0 to
63 are in the first word, the next 64 in the second, and so on. An access past the last word
panics, which is `none` here. `toFinset` reads a bitset as the set of positions whose bit is on;
`set` and `clear` insert and erase, and two bitsets of one size are equal word by word exactly
when they are the same set.
-/

namespace RaftLab.Linearizability

/-- A slice of 64-bit words. -/
structure Bitset where
  words : List (BitVec 64)
  deriving DecidableEq

namespace Bitset

def newBitset (bits : Nat) : Bitset :=
  let extra := if bits % 64 ≠ 0 then 1 else 0
  let chunks := bits / 64 + extra
  ⟨List.replicate chunks 0⟩

def bitsetIndex (pos : Nat) : Nat × Nat := (pos / 64, pos % 64)

def set (b : Bitset) (pos : Nat) : Option Bitset :=
  let (major, minor) := bitsetIndex pos
  b.words[major]?.map fun v => ⟨b.words.set major (v ||| (1#64 <<< minor))⟩

def clear (b : Bitset) (pos : Nat) : Option Bitset :=
  let (major, minor) := bitsetIndex pos
  b.words[major]?.map fun v => ⟨b.words.set major (v &&& ~~~(1#64 <<< minor))⟩

def get (b : Bitset) (pos : Nat) : Option Bool :=
  let (major, minor) := bitsetIndex pos
  b.words[major]?.map fun v => v &&& (1#64 <<< minor) != 0

/-- One pass of the loop of `popcnt`: the bits of a word, added up in parallel. -/
def popcntWord (v : BitVec 64) : BitVec 64 :=
  let v := (v &&& 0x5555555555555555#64) + ((v &&& 0xAAAAAAAAAAAAAAAA#64) >>> 1)
  let v := (v &&& 0x3333333333333333#64) + ((v &&& 0xCCCCCCCCCCCCCCCC#64) >>> 2)
  let v := (v &&& 0x0F0F0F0F0F0F0F0F#64) + ((v &&& 0xF0F0F0F0F0F0F0F0#64) >>> 4)
  let v := v * 0x0101010101010101#64
  (v >>> 56) &&& 0xFF#64

def popcnt (b : Bitset) : BitVec 64 :=
  b.words.foldl (fun total v => total + popcntWord v) 0

def hash (b : Bitset) : BitVec 64 :=
  b.words.foldl (fun hash v => hash ^^^ v) b.popcnt

def equals (b b2 : Bitset) : Bool :=
  if b.words.length ≠ b2.words.length then false
  else (List.range b.words.length).all fun i => b.words[i]? == b2.words[i]?

/-! ## A bitset as a set of positions -/

/-- The bit at `pos`, which is off past the end. -/
def has (b : Bitset) (pos : Nat) : Bool :=
  match b.words[pos / 64]? with
  | some v => v.getLsbD (pos % 64)
  | none => false

/-- The positions whose bit is on. -/
def toFinset (b : Bitset) : Finset Nat := (Finset.range (64 * b.words.length)).filter (b.has ·)

/-- The bitset has room for `n` positions and no word more. -/
def Sized (b : Bitset) (n : Nat) : Prop := b.words.length = (newBitset n).words.length

variable {b b' : Bitset} {n p q : Nat}

theorem has_eq_of_getElem? {v : BitVec 64} (h : b.words[p / 64]? = some v) :
    b.has p = v.getLsbD (p % 64) := by
  rw [has, h]

theorem mem_toFinset : p ∈ b.toFinset ↔ b.has p = true := by
  rw [toFinset, Finset.mem_filter, Finset.mem_range]
  refine ⟨fun h => h.2, fun h => ⟨?_, h⟩⟩
  by_contra hout
  have hnone : b.words[p / 64]? = none := List.getElem?_eq_none (by omega)
  rw [has, hnone] at h
  cases h

/-- A position below the size is in a word of the bitset. -/
theorem Sized.exists_word (hb : b.Sized n) (hp : p < n) : ∃ v, b.words[p / 64]? = some v := by
  have hlen : b.words.length = n / 64 + if n % 64 ≠ 0 then 1 else 0 := by
    rw [hb]
    exact List.length_replicate
  refine ⟨b.words.get ⟨p / 64, ?_⟩, List.getElem?_eq_getElem _⟩
  rw [hlen]
  split <;> omega

theorem sized_newBitset (n : Nat) : (newBitset n).Sized n := rfl

theorem toFinset_newBitset (n : Nat) : (newBitset n).toFinset = ∅ := by
  refine Finset.eq_empty_of_forall_notMem fun p hp => ?_
  have hbit := mem_toFinset.mp hp
  rw [has] at hbit
  split at hbit
  · rename_i v hv
    have hzero : v = 0 := List.eq_of_mem_replicate (List.mem_of_getElem? hv)
    rw [hzero] at hbit
    simp at hbit
  · cases hbit

/-! ## Setting and clearing a bit -/

/-- The mask of one bit. -/
theorem getLsbD_mask {i j : Nat} (hi : i < 64) : (1#64 <<< j).getLsbD i = decide (i = j) := by
  rw [BitVec.getLsbD_shiftLeft, BitVec.getLsbD_one]
  by_cases hij : i = j
  · subst hij
    simp [hi]
  · have : ¬ (¬ i < j ∧ i - j = 0) := by omega
    simpa [hi, hij] using this

/-- Two positions in one word with one bit index are one position. -/
theorem position_eq_iff : p = q ↔ p / 64 = q / 64 ∧ p % 64 = q % 64 := by omega

/-- The mask of `p` at a position of the same word. -/
theorem getLsbD_mask_position (hsame : q / 64 = p / 64) :
    (1#64 <<< (p % 64)).getLsbD (q % 64) = decide (q = p) := by
  have hpos : (q = p) = (q % 64 = p % 64) := by
    rw [eq_iff_iff, position_eq_iff]
    simp [hsame]
  rw [getLsbD_mask (Nat.mod_lt _ (by omega))]
  simp only [hpos]

/-- The bits of a bitset in which the word of `p` was replaced. -/
theorem has_replace {v w : BitVec 64} (hv : b.words[p / 64]? = some v) (q : Nat) :
    has ⟨b.words.set (p / 64) w⟩ q = if q / 64 = p / 64 then w.getLsbD (q % 64) else b.has q := by
  obtain ⟨hlt, -⟩ := List.getElem?_eq_some_iff.mp hv
  split
  · rename_i hsame
    refine has_eq_of_getElem? ?_
    rw [hsame]
    exact List.getElem?_set_self hlt
  · rename_i hother
    rw [has, has, List.getElem?_set_ne (Ne.symm hother)]

/-- The bitset after the word of `pos` was combined with the mask of its bit. -/
def modify (b : Bitset) (f : BitVec 64 → BitVec 64 → BitVec 64) (pos : Nat) : Option Bitset :=
  b.words[pos / 64]?.map fun v => ⟨b.words.set (pos / 64) (f v (1#64 <<< (pos % 64)))⟩

theorem set_eq_modify (b : Bitset) (pos : Nat) : b.set pos = b.modify (· ||| ·) pos := rfl

theorem clear_eq_modify (b : Bitset) (pos : Nat) :
    b.clear pos = b.modify (fun v mask => v &&& ~~~mask) pos := rfl

section Modify

variable {f : BitVec 64 → BitVec 64 → BitVec 64}

theorem modify_eq_some (hb : b.Sized n) (hp : p < n) : ∃ b', b.modify f p = some b' := by
  obtain ⟨v, hv⟩ := hb.exists_word hp
  exact ⟨_, congrArg (Option.map _) hv⟩

theorem modify_cases (h : b.modify f p = some b') :
    ∃ v, b.words[p / 64]? = some v ∧
      b' = ⟨b.words.set (p / 64) (f v (1#64 <<< (p % 64)))⟩ := by
  obtain ⟨v, hv, hb'⟩ := Option.map_eq_some_iff.mp h
  exact ⟨v, hv, hb'.symm⟩

theorem Sized.modify (hb : b.Sized n) (h : b.modify f p = some b') : b'.Sized n := by
  obtain ⟨v, -, rfl⟩ := modify_cases h
  exact List.length_set.trans hb

/-- The bits after words were combined bit by bit: only the one of the mask can change. -/
theorem has_modify {g : Bool → Bool → Bool}
    (hf : ∀ v mask i, i < 64 → (f v mask).getLsbD i = g (v.getLsbD i) (mask.getLsbD i))
    (hg : ∀ x, g x false = x) (h : b.modify f p = some b') (q : Nat) :
    b'.has q = g (b.has q) (decide (q = p)) := by
  obtain ⟨v, hv, rfl⟩ := modify_cases h
  rw [has_replace hv]
  split
  · rename_i hsame
    have hq : b.has q = v.getLsbD (q % 64) := has_eq_of_getElem? (hsame ▸ hv)
    rw [hf _ _ _ (Nat.mod_lt q (by omega)), getLsbD_mask_position hsame, hq]
  · rename_i hother
    have hne : q ≠ p := fun heq => hother (heq ▸ rfl)
    rw [decide_eq_false hne, hg]

end Modify

theorem set_eq_some (hb : b.Sized n) (hp : p < n) : ∃ b', b.set p = some b' := by
  rw [set_eq_modify]
  exact modify_eq_some hb hp

theorem Sized.set (hb : b.Sized n) (h : b.set p = some b') : b'.Sized n := by
  rw [set_eq_modify] at h
  exact hb.modify h

theorem has_set (h : b.set p = some b') (q : Nat) : b'.has q = (b.has q || decide (q = p)) := by
  rw [set_eq_modify] at h
  exact has_modify (fun v mask i _ => BitVec.getLsbD_or) Bool.or_false h q

/-- `set` inserts the position. -/
theorem toFinset_set (h : b.set p = some b') : b'.toFinset = insert p b.toFinset := by
  ext q
  rw [Finset.mem_insert, mem_toFinset, mem_toFinset, has_set h, Bool.or_eq_true,
    decide_eq_true_iff, or_comm]

/-- Clearing a bit that was just set restores the words. -/
theorem clear_of_set (h : b.set p = some b') (hp : p ∉ b.toFinset) : b'.clear p = some b := by
  have hoff : b.has p = false := by simpa [mem_toFinset] using hp
  obtain ⟨v, hv, rfl⟩ := modify_cases (set_eq_modify b p ▸ h)
  obtain ⟨hlt, hget⟩ := List.getElem?_eq_some_iff.mp hv
  have hword : (v ||| (1#64 <<< (p % 64))) &&& ~~~(1#64 <<< (p % 64)) = v := by
    refine BitVec.eq_of_getLsbD_eq fun i hi => ?_
    rw [BitVec.getLsbD_and, BitVec.getLsbD_or, BitVec.getLsbD_not, getLsbD_mask hi]
    by_cases hip : i = p % 64
    · rw [has_eq_of_getElem? hv, ← hip] at hoff
      rw [hoff, Bool.false_or, hip]
      simp
    · simp [hip, hi]
  have hset : (b.words.set (p / 64) (v ||| (1#64 <<< (p % 64))))[p / 64]?
      = some (v ||| (1#64 <<< (p % 64))) := List.getElem?_set_self hlt
  rw [clear, bitsetIndex]
  show Option.map _ _ = _
  rw [hset, Option.map_some, hword, List.set_set, ← hget, List.set_getElem_self]

theorem clear_eq_some (hb : b.Sized n) (hp : p < n) : ∃ b', b.clear p = some b' := by
  rw [clear_eq_modify]
  exact modify_eq_some hb hp

theorem Sized.clear (hb : b.Sized n) (h : b.clear p = some b') : b'.Sized n := by
  rw [clear_eq_modify] at h
  exact hb.modify h

theorem has_clear (h : b.clear p = some b') (q : Nat) :
    b'.has q = (b.has q && !decide (q = p)) := by
  rw [clear_eq_modify] at h
  refine has_modify (g := fun x m => x && !m) (fun v mask i hi => ?_) (by simp) h q
  simp [hi]

/-- `clear` erases the position. -/
theorem toFinset_clear (h : b.clear p = some b') : b'.toFinset = b.toFinset.erase p := by
  ext q
  rw [Finset.mem_erase, mem_toFinset, mem_toFinset, has_clear h, Bool.and_eq_true,
    Bool.not_eq_true', decide_eq_false_iff_not, and_comm]

/-- `get` tests the bit that `has` reads. -/
theorem get_eq_has (hb : b.Sized n) (hp : p < n) : b.get p = some (b.has p) := by
  obtain ⟨v, hv⟩ := hb.exists_word hp
  have hlt : p % 64 < 64 := Nat.mod_lt _ (by omega)
  have htest : (v &&& (1#64 <<< (p % 64)) != 0) = v.getLsbD (p % 64) := by
    rw [Bool.eq_iff_iff, bne_iff_ne]
    constructor
    · -- a bit of the masked word that is on can only be the one of the mask
      intro hne
      by_contra hoff
      apply hne
      refine BitVec.eq_of_getLsbD_eq fun i hi => ?_
      rw [BitVec.getLsbD_and, getLsbD_mask hi]
      by_cases hip : i = p % 64
      · rw [hip, Bool.eq_false_iff.mpr hoff]
        simp
      · simp [hip]
    · intro hon hzero
      have hbit : (v &&& (1#64 <<< (p % 64))).getLsbD (p % 64) = true := by
        rw [BitVec.getLsbD_and, getLsbD_mask hlt, hon]
        simp
      rw [hzero] at hbit
      simp at hbit
  rw [has_eq_of_getElem? hv, ← htest]
  exact congrArg (Option.map _) hv

/-! ## Equality -/

theorem equals_iff : b.equals b' = true ↔ b = b' := by
  obtain ⟨l⟩ := b
  obtain ⟨l'⟩ := b'
  rw [equals, Bitset.mk.injEq]
  constructor
  · intro h
    split at h
    · cases h
    · rename_i hlen
      have hlen : l.length = l'.length := not_not.mp hlen
      refine List.ext_getElem? fun i => ?_
      by_cases hi : i < l.length
      · have := List.all_eq_true.mp h i (List.mem_range.mpr hi)
        simpa using this
      · rw [List.getElem?_eq_none (by omega), List.getElem?_eq_none (by omega)]
  · rintro rfl
    simp

/-- Two bitsets of one size that are the same set have the same words. -/
theorem eq_of_toFinset_eq (hb : b.Sized n) (hb' : b'.Sized n) (h : b.toFinset = b'.toFinset) :
    b = b' := by
  have hbit : ∀ p, b.has p = b'.has p := fun p => by
    rw [Bool.eq_iff_iff, ← mem_toFinset, ← mem_toFinset, h]
  obtain ⟨l⟩ := b
  obtain ⟨l'⟩ := b'
  have hlen : l.length = l'.length := hb.trans hb'.symm
  refine congrArg Bitset.mk (List.ext_getElem hlen fun i hi hi' => ?_)
  refine BitVec.eq_of_getLsbD_eq fun j hj => ?_
  have hdiv : (64 * i + j) / 64 = i := by omega
  have hmod : (64 * i + j) % 64 = j := by omega
  have hl : has ⟨l⟩ (64 * i + j) = l[i].getLsbD ((64 * i + j) % 64) :=
    has_eq_of_getElem? (by rw [hdiv]; exact List.getElem?_eq_getElem hi)
  have hl' : has ⟨l'⟩ (64 * i + j) = l'[i].getLsbD ((64 * i + j) % 64) :=
    has_eq_of_getElem? (by rw [hdiv]; exact List.getElem?_eq_getElem hi')
  rw [hmod] at hl hl'
  rw [← hl, ← hl', hbit]

end Bitset

end RaftLab.Linearizability
