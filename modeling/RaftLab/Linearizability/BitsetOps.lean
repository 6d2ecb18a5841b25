import RaftLab.Lib.DigitSum
import RaftLab.Lib.Run
import RaftLab.Linearizability.Bitset

set_option autoImplicit false

/-! # Bitsets implement finite sets

Whole sequences of `set` and `clear` on a new bitset, against the set of the positions whose last
operation was `set`. The sequence never leaves the bitset, `get` and `equals` answer for that set,
and `popcnt` is its size.

`popcnt` adds up the bits of a word in parallel. In three stages it adds the two halves of every
field, of 2, 4 and 8 bits, and a multiplication that overflows the word adds the eight bytes into
the top one. Both are instances of the rules for sums of digits (`Word.digitSum_addHalves`,
`Word.mul_ones_div`): bits are digits in base 2, bytes in base 256, and a word has at most 64 bits
that are on, which fits into a byte.
-/

namespace RaftLab.Linearizability

namespace Bitset

/-! ## The bits of a word -/

/-- The number of bits of a word that are on. -/
def bitCount (v : BitVec 64) : Nat := ∑ i ∈ Finset.range 64, (v.getLsbD i).toNat

theorem bitCount_le (v : BitVec 64) : bitCount v ≤ 64 := by
  have hbit : ∀ i ∈ Finset.range 64, (v.getLsbD i).toNat ≤ 1 := fun i _ => Bool.toNat_le _
  unfold bitCount
  simpa using Finset.sum_le_card_nsmul _ _ 1 hbit

theorem bitCount_eq_digitSum (v : BitVec 64) : bitCount v = Word.digitSum (2 ^ 1) v.toNat := by
  rw [pow_one, Word.digitSum_two_eq_sum v.isLt]
  rfl

section Stage

variable {w k lo hi : Nat} (hw : 0 < w) (hwidth : 2 * w * k = 64) (hlo : Word.mask w k = lo)
  (hhi : Word.mask w k <<< w = hi) (hlo_lt : lo < 2 ^ 64) (hhi_lt : hi < 2 ^ 64)
include hw hwidth hlo hhi hlo_lt hhi_lt

/-- A stage of `popcntWord`, with the masks `lo` and `hi` of the lower and the upper halves. -/
theorem toNat_stage (v : BitVec 64) :
    ((v &&& BitVec.ofNat 64 lo) + ((v &&& BitVec.ofNat 64 hi) >>> w)).toNat
      = Word.addHalves w k v.toNat := by
  have hfits := Word.addHalves_lt hw k v.toNat
  rw [hwidth] at hfits
  rw [BitVec.toNat_add, BitVec.toNat_ushiftRight, BitVec.toNat_and, BitVec.toNat_and,
    BitVec.toNat_ofNat, BitVec.toNat_ofNat, Nat.mod_eq_of_lt hlo_lt, Nat.mod_eq_of_lt hhi_lt,
    ← hlo, ← hhi]
  exact Nat.mod_eq_of_lt hfits

/-- A stage keeps the sum of the digits. -/
theorem digitSum_stage (v : BitVec 64) :
    Word.digitSum (2 ^ (2 * w))
        ((v &&& BitVec.ofNat 64 lo) + ((v &&& BitVec.ofNat 64 hi) >>> w)).toNat
      = Word.digitSum (2 ^ w) v.toNat := by
  rw [toNat_stage hw hwidth hlo hhi hlo_lt hhi_lt]
  refine Word.digitSum_addHalves hw ?_
  rw [hwidth]
  exact v.isLt

end Stage

/-- The multiplication adds up the bytes, when the sum is a byte. -/
theorem toNat_sum_bytes {v : BitVec 64} (hsum : Word.digitSum (2 ^ 8) v.toNat < 2 ^ 8) :
    (((v * 0x0101010101010101#64) >>> 56) &&& 0xFF#64).toNat
      = Word.digitSum (2 ^ 8) v.toNat := by
  have hones : ∑ i ∈ Finset.range (7 + 1), (2 ^ 8) ^ i = 0x0101010101010101 := by decide
  have htop := Word.mul_ones_div (k := 7) (by decide) hsum v.isLt
  rw [hones] at htop
  rw [BitVec.toNat_and, BitVec.toNat_ushiftRight, BitVec.toNat_mul, Nat.shiftRight_eq_div_pow]
  calc v.toNat * 0x0101010101010101 % 2 ^ 64 / 2 ^ 56 &&& 2 ^ 8 - 1
      = Word.digitSum (2 ^ 8) v.toNat &&& 2 ^ 8 - 1 := congrArg (· &&& 2 ^ 8 - 1) htop
    _ = Word.digitSum (2 ^ 8) v.toNat := by
        rw [Nat.and_two_pow_sub_one_eq_mod, Nat.mod_eq_of_lt hsum]

/-- **The parallel sum counts the bits**, of every word. -/
theorem toNat_popcntWord (v : BitVec 64) : (popcntWord v).toNat = bitCount v := by
  unfold popcntWord
  extract_lets v₁ v₂ v₃
  -- fields of two, four and eight bits hold the sums of their halves
  have h₁ : Word.digitSum (2 ^ 2) v₁.toNat = Word.digitSum (2 ^ 1) v.toNat :=
    digitSum_stage (w := 1) (k := 32) (by decide) rfl (by decide) (by decide) (by decide)
      (by decide) v
  have h₂ : Word.digitSum (2 ^ 4) v₂.toNat = Word.digitSum (2 ^ 2) v₁.toNat :=
    digitSum_stage (w := 2) (k := 16) (by decide) rfl (by decide) (by decide) (by decide)
      (by decide) v₁
  have h₃ : Word.digitSum (2 ^ 8) v₃.toNat = Word.digitSum (2 ^ 4) v₂.toNat :=
    digitSum_stage (w := 4) (k := 8) (by decide) rfl (by decide) (by decide) (by decide)
      (by decide) v₂
  have hcount : Word.digitSum (2 ^ 8) v₃.toNat = bitCount v := by
    rw [h₃, h₂, h₁, bitCount_eq_digitSum]
  -- a word has 64 bits, which one byte can count
  have hbyte : Word.digitSum (2 ^ 8) v₃.toNat < 2 ^ 8 := by
    have hle := bitCount_le v
    omega
  exact (toNat_sum_bytes hbyte).trans hcount

/-! ## The size of the set -/

theorem has_cons_of_lt {v : BitVec 64} {words : List (BitVec 64)} {p : Nat} (hp : p < 64) :
    has ⟨v :: words⟩ p = v.getLsbD p := by
  have hword : (v :: words)[p / 64]? = some v := by rw [Nat.div_eq_of_lt hp]; rfl
  rw [has_eq_of_getElem? hword, Nat.mod_eq_of_lt hp]

theorem has_cons_add {v : BitVec 64} {words : List (BitVec 64)} (p : Nat) :
    has ⟨v :: words⟩ (64 + p) = has ⟨words⟩ p := by
  have hdiv : (64 + p) / 64 = p / 64 + 1 := by omega
  have hmod : (64 + p) % 64 = p % 64 := by omega
  unfold has
  rw [hdiv, hmod, List.getElem?_cons_succ]

theorem card_toFinset_eq_sum (words : List (BitVec 64)) :
    (toFinset ⟨words⟩).card
      = ∑ p ∈ Finset.range (64 * words.length), (has ⟨words⟩ p).toNat := by
  rw [toFinset, Finset.card_filter]
  refine Finset.sum_congr rfl fun p _ => ?_
  cases has ⟨words⟩ p <;> rfl

/-- The bits are counted word by word. -/
theorem card_toFinset (words : List (BitVec 64)) :
    (toFinset ⟨words⟩).card = (words.map bitCount).sum := by
  rw [card_toFinset_eq_sum]
  induction words with
  | nil => rfl
  | cons v words ih =>
      have hfirst : ∑ p ∈ Finset.range 64, (has ⟨v :: words⟩ p).toNat = bitCount v :=
        Finset.sum_congr rfl fun p hp =>
          congrArg Bool.toNat (has_cons_of_lt (Finset.mem_range.mp hp))
      have hrest : ∑ p ∈ Finset.range (64 * words.length), (has ⟨v :: words⟩ (64 + p)).toNat
          = (words.map bitCount).sum := by
        simp only [has_cons_add, ih]
      rw [List.length_cons, Nat.mul_succ, Nat.add_comm, Finset.sum_range_add, hfirst, hrest,
        List.map_cons, List.sum_cons]

theorem foldl_popcntWord (words : List (BitVec 64)) (total : BitVec 64) :
    words.foldl (fun total v => total + popcntWord v) total
      = total + BitVec.ofNat 64 (words.map bitCount).sum := by
  induction words generalizing total with
  | nil => simp
  | cons v words ih =>
      have hword : popcntWord v = BitVec.ofNat 64 (bitCount v) := by
        rw [← toNat_popcntWord, BitVec.ofNat_toNat, BitVec.setWidth_eq]
      rw [List.foldl_cons, ih, hword, List.map_cons, List.sum_cons, BitVec.ofNat_add,
        BitVec.add_assoc]

/-- **`popcnt` is the size of the set**, up to what a 64-bit total can hold. -/
theorem popcnt_eq (b : Bitset) : b.popcnt = BitVec.ofNat 64 b.toFinset.card := by
  obtain ⟨words⟩ := b
  rw [popcnt, foldl_popcntWord, card_toFinset]
  exact BitVec.zero_add _

end Bitset

/-! ## Sequences of operations -/

inductive BitsetOp where
  | set (pos : Nat)
  | clear (pos : Nat)
  deriving DecidableEq

namespace BitsetOp

/-- The position an operation is on. -/
def pos : BitsetOp → Nat
  | .set pos => pos
  | .clear pos => pos

/-- The bitset after the operation. -/
def apply (b : Bitset) : BitsetOp → Option Bitset
  | .set pos => b.set pos
  | .clear pos => b.clear pos

/-- The last operation on `p`. -/
def lastOn (ops : List BitsetOp) (p : Nat) : Option BitsetOp :=
  ops.reverse.find? (fun op => op.pos = p)

/-- The positions whose last operation was `set`. -/
def members (ops : List BitsetOp) : Finset Nat :=
  (ops.map pos).toFinset.filter fun p => lastOn ops p = some (.set p)

variable {ops : List BitsetOp} {b b' : Bitset} {n p : Nat}

theorem lastOn_append (ops : List BitsetOp) (op : BitsetOp) (p : Nat) :
    lastOn (ops ++ [op]) p = if op.pos = p then some op else lastOn ops p := by
  unfold lastOn
  rw [List.reverse_append, List.reverse_singleton, List.singleton_append, List.find?_cons]
  by_cases hp : op.pos = p <;> simp [hp]

theorem mem_members : p ∈ members ops ↔ lastOn ops p = some (.set p) := by
  rw [members, Finset.mem_filter, and_iff_right_iff_imp]
  intro hlast
  have hmem : BitsetOp.set p ∈ ops := List.mem_reverse.mp (List.mem_of_find?_eq_some hlast)
  exact List.mem_toFinset.mpr (List.mem_map_of_mem hmem)

theorem members_append_set (ops : List BitsetOp) (q : Nat) :
    members (ops ++ [.set q]) = insert q (members ops) := by
  ext p
  rw [Finset.mem_insert, mem_members, mem_members, lastOn_append]
  by_cases hp : q = p
  · simp [pos, hp]
  · simp [pos, hp, Ne.symm hp]

theorem members_append_clear (ops : List BitsetOp) (q : Nat) :
    members (ops ++ [.clear q]) = (members ops).erase q := by
  ext p
  rw [Finset.mem_erase, mem_members, mem_members, lastOn_append]
  by_cases hp : q = p
  · simp [pos, hp]
  · simp [pos, hp, Ne.symm hp]

/-- The bitset has the given size and is the set of the operations so far. -/
structure Implements (n : Nat) (ops : List BitsetOp) (b : Bitset) : Prop where
  sized : b.Sized n
  toFinset_eq : b.toFinset = members ops

theorem implements_new (n : Nat) : Implements n [] (Bitset.newBitset n) where
  sized := Bitset.sized_newBitset n
  toFinset_eq := Bitset.toFinset_newBitset n

/-- An operation below the size succeeds and does to the bitset what it does to the set. -/
theorem Implements.apply (hb : Implements n ops b) (op : BitsetOp) (hop : op.pos < n) :
    ∃ b', op.apply b = some b' ∧ Implements n (ops ++ [op]) b' := by
  cases op with
  | set q =>
      obtain ⟨b', hset⟩ := Bitset.set_eq_some hb.sized hop
      refine ⟨b', hset, hb.sized.set hset, ?_⟩
      rw [Bitset.toFinset_set hset, hb.toFinset_eq, members_append_set, pos]
  | clear q =>
      obtain ⟨b', hclear⟩ := Bitset.clear_eq_some hb.sized hop
      refine ⟨b', hclear, hb.sized.clear hclear, ?_⟩
      rw [Bitset.toFinset_clear hclear, hb.toFinset_eq, members_append_clear, pos]

/-- Operations below the size never leave the bitset, and it implements them. -/
theorem run_implements (hops : ∀ op ∈ ops, op.pos < n) :
    ∃ b, Machine.run BitsetOp.apply (Bitset.newBitset n) ops = some b ∧ Implements n ops b := by
  -- the induction is on the end of the list, where the operation acts last
  induction ops using List.reverseRecOn with
  | nil => exact ⟨_, rfl, implements_new n⟩
  | append_singleton ops op ih =>
      rw [List.forall_mem_append, List.forall_mem_singleton] at hops
      obtain ⟨b, hrun, hb⟩ := ih hops.1
      obtain ⟨b', hop, hb'⟩ := hb.apply op hops.2
      refine ⟨b', ?_, hb'⟩
      simp [Machine.run_append, hrun, Machine.run, hop]

theorem Implements.get_eq (hb : Implements n ops b) (hp : p < n) :
    b.get p = some (decide (lastOn ops p = some (.set p))) := by
  rw [Bitset.get_eq_has hb.sized hp]
  congr 1
  rw [Bool.eq_iff_iff, decide_eq_true_iff, ← mem_members, ← hb.toFinset_eq, Bitset.mem_toFinset]

theorem Implements.eq_iff {ops' : List BitsetOp} (hb : Implements n ops b)
    (hb' : Implements n ops' b') : b = b' ↔ members ops = members ops' := by
  rw [← hb.toFinset_eq, ← hb'.toFinset_eq]
  exact ⟨fun heq => heq ▸ rfl, Bitset.eq_of_toFinset_eq hb.sized hb'.sized⟩

theorem card_members_le (hops : ∀ op ∈ ops, op.pos < n) : (members ops).card ≤ n := by
  have hsub : members ops ⊆ Finset.range n := by
    intro p hp
    have hmem := List.mem_reverse.mp (List.mem_of_find?_eq_some (mem_members.mp hp))
    exact Finset.mem_range.mpr (hops _ hmem)
  simpa using Finset.card_le_card hsub

/-- **The bitset implements finite sets**, for every size and every sequence of operations below
it: no access is out of range, `get` tells whether the last operation on a position was `set`,
`equals` compares the sets, whose equality gives equal hashes, and `popcnt` counts the positions.
A size is a 64-bit number in the program, for which the count does not wrap around; for other
sizes it is the number of positions modulo `2 ^ 64`. -/
theorem bitset_implements_finite_sets (n : Nat) (ops : List BitsetOp)
    (hops : ∀ op ∈ ops, op.pos < n) :
    ∃ b, Machine.run BitsetOp.apply (Bitset.newBitset n) ops = some b ∧
      (∀ p < n, b.get p = some (decide (lastOn ops p = some (.set p)))) ∧
      (∀ ops' b', (∀ op ∈ ops', op.pos < n) →
        Machine.run BitsetOp.apply (Bitset.newBitset n) ops' = some b' →
        (b.equals b' = true ↔ members ops = members ops') ∧
          (members ops = members ops' → b.hash = b'.hash)) ∧
      b.popcnt = BitVec.ofNat 64 (members ops).card ∧
      (n < 2 ^ 64 → b.popcnt.toNat = (members ops).card) := by
  obtain ⟨b, hrun, hb⟩ := run_implements hops
  have hpopcnt : b.popcnt = BitVec.ofNat 64 (members ops).card := by
    rw [Bitset.popcnt_eq, hb.toFinset_eq]
  refine ⟨b, hrun, fun p hp => hb.get_eq hp, ?_, hpopcnt, fun hn => ?_⟩
  · intro ops' b' hops' hrun'
    obtain ⟨c, hrunc, hc⟩ := run_implements hops'
    obtain rfl : c = b' := Option.some.inj (hrunc.symm.trans hrun')
    have hiff := hb.eq_iff hc
    exact ⟨Bitset.equals_iff.trans hiff, fun hsame => congrArg Bitset.hash (hiff.mpr hsame)⟩
  · have hle := card_members_le hops
    rw [hpopcnt, BitVec.toNat_ofNat, Nat.mod_eq_of_lt (by omega)]

/-- Positions in two words, one of which is set twice and one cleared again. -/
theorem bitset_implements_finite_sets_two_words :
    ∃ b, Machine.run BitsetOp.apply (Bitset.newBitset 70)
        [.set 3, .set 64, .clear 3, .set 69, .set 64] = some b ∧
      b.get 3 = some false ∧ b.get 64 = some true ∧ b.popcnt.toNat = 2 := by
  obtain ⟨b, hrun, hget, -, -, hpopcnt⟩ := bitset_implements_finite_sets 70
    [.set 3, .set 64, .clear 3, .set 69, .set 64] (by decide)
  exact ⟨b, hrun, hget 3 (by decide), hget 64 (by decide), hpopcnt (by decide)⟩

end BitsetOp

end RaftLab.Linearizability
