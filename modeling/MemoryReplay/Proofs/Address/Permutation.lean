import Mathlib.Algebra.Order.Ring.Nat
import Mathlib.Data.Finset.Card
import Mathlib.Data.Fintype.Basic
import Mathlib.Data.Nat.Factorization.Basic
import Mathlib.Logic.Function.Iterate
import Mathlib.Tactic.Ring
import MemoryReplay.Address.Permutation

/-!
# A bit permutation moves bits and nothing else

An address is a set of bits. The permuted address has each of them in its new place, so whatever
holds of the addresses bit by bit holds of the permuted ones.

- `hasBit`, `bits`: an address as a set of bits. `eq_of_hasBit`: nothing else is in it.
- `lowest_spec`, `card_bits_clearLowest`: the walk from set bit to set bit.
- `hasBit_scatter`, `hasBit_apply`: what the walk has put together when it is over.
- `source_inverse`, `inverse_inverse`, `ofList?_toList`: the inverse, and the table that stands for
  a permutation.
- `apply_moves_bits`: the permuted address, bit by bit, and what follows.
-/

namespace MemoryReplay.BitPermutation

/-! ### Words as sets of bits -/

/-- Whether a bit of a word is set. -/
def hasBit (a : UInt64) (bit : Fin 64) : Bool := a.toNat.testBit bit

/-- The set bits of a word. -/
def bits (a : UInt64) : Finset (Fin 64) := Finset.univ.filter fun bit => hasBit a bit = true

variable {a b : UInt64} {i j : Fin 64}

theorem mem_bits : i ∈ bits a ↔ hasBit a i = true := by simp [bits]

/-- A word has no bits beyond the sixty-fourth. -/
theorem testBit_of_le (a : UInt64) {n : Nat} (h : 64 ≤ n) : a.toNat.testBit n = false :=
  Nat.testBit_lt_two_pow (Nat.lt_of_lt_of_le a.toNat_lt (Nat.pow_le_pow_right (by decide) h))

/-- A word is its sixty-four bits. -/
theorem eq_of_hasBit (h : ∀ i, hasBit a i = hasBit b i) : a = b := by
  refine UInt64.toNat_inj.mp (Nat.eq_of_testBit_eq fun n => ?_)
  by_cases hn : n < 64
  · exact h ⟨n, hn⟩
  · rw [testBit_of_le a (Nat.le_of_not_lt hn), testBit_of_le b (Nat.le_of_not_lt hn)]

@[simp] theorem hasBit_zero (i : Fin 64) : hasBit 0 i = false := Nat.zero_testBit _

@[simp] theorem hasBit_or (a b : UInt64) (i : Fin 64) :
    hasBit (a ||| b) i = (hasBit a i || hasBit b i) := by
  unfold hasBit
  rw [UInt64.toNat_or, Nat.testBit_or]

@[simp] theorem hasBit_xor (a b : UInt64) (i : Fin 64) :
    hasBit (a ^^^ b) i = (hasBit a i ^^ hasBit b i) := by
  unfold hasBit
  rw [UInt64.toNat_xor, Nat.testBit_xor]

@[simp] theorem hasBit_bitAt (i j : Fin 64) : hasBit (bitAt i) j = decide (i = j) := by
  have hsmall : 2 ^ i.val < 2 ^ 64 := Nat.pow_lt_pow_right (by decide) i.isLt
  have hword : (bitAt i).toNat = 2 ^ i.val := by
    have hplace : (UInt64.ofNat i).toNat = i :=
      UInt64.toNat_ofNat_of_lt (Nat.lt_trans i.isLt (by decide))
    unfold bitAt
    rw [UInt64.toNat_shiftLeft, hplace, Nat.mod_eq_of_lt i.isLt, UInt64.toNat_one, Nat.one_shiftLeft,
      Nat.mod_eq_of_lt hsmall]
  unfold hasBit
  rw [hword, Nat.testBit_two_pow, decide_eq_decide, Fin.ext_iff]

theorem eq_zero_iff : a = 0 ↔ bits a = ∅ := by
  constructor
  · rintro rfl
    simp [bits]
  · intro h
    refine eq_of_hasBit fun i => ?_
    have hi : i ∉ bits a := h ▸ Finset.notMem_empty i
    rw [mem_bits, Bool.not_eq_true] at hi
    rw [hi, hasBit_zero]

/-! ### From set bit to set bit -/

/-- A number and its predecessor differ in the lowest set bit of the number and in those below. -/
theorem exists_lowest {n : Nat} (h : n ≠ 0) : ∃ k, n.testBit k = true ∧
    ∀ j, (n &&& (n - 1)).testBit j = (n.testBit j && !decide (j = k)) := by
  obtain ⟨k, m, ⟨q, rfl⟩, rfl⟩ := Nat.exists_eq_two_pow_mul_odd h
  have hlow : 2 ^ k < 2 ^ (k + 1) := Nat.pow_lt_pow_right (by decide) (Nat.lt_succ_self k)
  have hpos : 0 < 2 ^ k := Nat.two_pow_pos k
  have hsplit : 2 ^ k * (2 * q + 1) = 2 ^ (k + 1) * q + 2 ^ k := by ring
  have hpred : 2 ^ k * (2 * q + 1) - 1 = 2 ^ (k + 1) * q + (2 ^ k - 1) := by omega
  refine ⟨k, ?_, fun j => ?_⟩
  · rw [hsplit, Nat.testBit_two_pow_mul_add _ hlow, if_pos (Nat.lt_succ_self k),
      Nat.testBit_two_pow_self]
  · rw [Nat.testBit_and, hpred, hsplit, Nat.testBit_two_pow_mul_add _ hlow,
      Nat.testBit_two_pow_mul_add _ (by omega)]
    by_cases hj : j < k + 1
    · -- up to the lowest set bit the two have nothing in common
      rw [if_pos hj, if_pos hj, Nat.testBit_two_pow, Nat.testBit_two_pow_sub_one]
      by_cases hjk : j = k
      · simp [hjk]
      · simp [Ne.symm hjk]
    · have hne : j ≠ k := by omega
      rw [if_neg hj, if_neg hj]
      simp [hne]

/-- Clearing the lowest set bit of a word clears one set bit, and no other. -/
theorem lowest_spec (h : a ≠ 0) : hasBit a (lowest a) = true ∧
    ∀ i, hasBit (clearLowest a) i = (hasBit a i && !decide (i = lowest a)) := by
  have hne : a.toNat ≠ 0 := fun e => h (UInt64.toNat_inj.mp e)
  obtain ⟨k, hk, hclear⟩ := exists_lowest hne
  have hone : (1 : UInt64) ≤ a := UInt64.le_iff_toNat_le.mpr (Nat.pos_of_ne_zero hne)
  have hword : (clearLowest a).toNat = a.toNat &&& (a.toNat - 1) := by
    rw [clearLowest, UInt64.toNat_and, UInt64.toNat_sub_of_le _ _ hone]
    rfl
  have hinside : k < 64 := by
    by_contra hge
    rw [testBit_of_le a (Nat.le_of_not_lt hge)] at hk
    cases hk
  -- what the walk clears is the bit at `k` alone
  have hdiff : (a ^^^ clearLowest a).toNat = 2 ^ k := by
    refine Nat.eq_of_testBit_eq fun j => ?_
    rw [UInt64.toNat_xor, Nat.testBit_xor, hword, hclear, Nat.testBit_two_pow]
    by_cases hj : j = k
    · simp [hj, hk]
    · simp [hj, Ne.symm hj]
  have hlowest : lowest a = ⟨k, hinside⟩ := by
    refine Fin.ext ?_
    show (a ^^^ clearLowest a).toNat.log2 % 64 = k
    rw [hdiff, Nat.log2_two_pow, Nat.mod_eq_of_lt hinside]
  rw [hlowest]
  refine ⟨hk, fun i => ?_⟩
  simp only [hasBit, hword, hclear, Fin.ext_iff]

theorem bits_clearLowest (h : a ≠ 0) : bits (clearLowest a) = (bits a).erase (lowest a) := by
  ext i
  rw [mem_bits, (lowest_spec h).2, Finset.mem_erase, mem_bits]
  simp [and_comm]

theorem card_bits_clearLowest (a : UInt64) :
    (bits (clearLowest a)).card = (bits a).card - 1 := by
  by_cases h : a = 0
  · subst h
    rfl
  · rw [bits_clearLowest h, Finset.card_erase_of_mem (mem_bits.mpr (lowest_spec h).1)]

/-- The walk from set bit to set bit is over after as many steps as there are set bits. -/
theorem iterate_clearLowest_eq_zero {n : Nat} :
    clearLowest^[n] a = 0 ↔ (bits a).card ≤ n := by
  have hcard : (bits (clearLowest^[n] a)).card = (bits a).card - n := by
    induction n with
    | zero => rfl
    | succ n ih =>
      rw [Function.iterate_succ_apply', card_bits_clearLowest, ih]
      omega
  rw [eq_zero_iff, ← Finset.card_eq_zero, hcard]
  omega

/-! ### The permuted address -/

variable (p : BitPermutation)

/-- What is in `out` stays, and each set bit of `rest` comes to its place. -/
theorem hasBit_scatter (rest out : UInt64) (i : Fin 64) :
    hasBit (p.scatter rest out) i = (hasBit out i || hasBit rest (p.source i)) := by
  fun_induction scatter p rest out with
  | case1 out => simp
  | case2 rest out h ih =>
    obtain ⟨hset, hclear⟩ := lowest_spec h
    rw [ih, hclear, hasBit_or, hasBit_bitAt]
    by_cases hi : p.source i = lowest rest
    · have htarget : p.target (lowest rest) = i := by rw [← hi, target_source]
      simp [hi, htarget, hset]
    · have htarget : p.target (lowest rest) ≠ i := by
        rintro rfl
        exact hi (p.source_target _)
      simp [hi, htarget]

/-- A place of the permuted address has the bit that moves there. -/
theorem hasBit_apply (a : UInt64) (i : Fin 64) : hasBit (p.apply a) i = hasBit a (p.source i) := by
  unfold apply
  rw [hasBit_scatter, hasBit_zero, Bool.false_or]

theorem hasBit_apply_target (a : UInt64) (i : Fin 64) :
    hasBit (p.apply a) (p.target i) = hasBit a i := by
  rw [hasBit_apply, source_target]

/-! ### The way back, and the table -/

variable {p} {q : BitPermutation}

theorem eq_of_target (h : ∀ i, p.target i = q.target i) : p = q := by
  obtain ⟨targets, _⟩ := p
  obtain ⟨targets', _⟩ := q
  obtain rfl : targets = targets' := Vector.ext fun i hi => h ⟨i, hi⟩
  rfl

variable (p)

@[simp] theorem target_inverse (i : Fin 64) : p.inverse.target i = p.source i := by
  simp [target, inverse]

@[simp] theorem source_inverse (i : Fin 64) : p.inverse.source i = p.target i := by
  refine p.inverse.target_injective ?_
  rw [target_source, target_inverse, source_target]

theorem inverse_inverse : p.inverse.inverse = p :=
  eq_of_target fun i => by rw [target_inverse, source_inverse]

theorem apply_inverse_apply (a : UInt64) : p.inverse.apply (p.apply a) = a :=
  eq_of_hasBit fun i => by rw [hasBit_apply, hasBit_apply, source_inverse, source_target]

theorem apply_apply_inverse (a : UInt64) : p.apply (p.inverse.apply a) = a := by
  have h := p.inverse.apply_inverse_apply a
  rwa [inverse_inverse] at h

/-- Entries that are in range and different from one another are all read. -/
theorem readOnto_map_val (seen rest : List (Fin 64)) (h : (seen ++ rest).Nodup) :
    readOnto seen (rest.map Fin.val) = .ok (seen ++ rest) := by
  induction rest generalizing seen with
  | nil => simp [readOnto]
  | cons entry rest ih =>
    have hfree : entry ∉ seen := fun hmem =>
      (List.nodup_append.mp h).2.2 entry hmem entry List.mem_cons_self rfl
    have hnext := ih (seen ++ [entry]) (by simpa using h)
    rw [List.map_cons, readOnto, dif_pos entry.isLt]
    simp only [Fin.eta, List.idxOf?_eq_none_iff.mpr hfree]
    simpa using hnext

/-- The table of a permutation is accepted, and stands for the permutation. -/
theorem ofList?_toList : ofList? p.toList = .ok p := by
  have hread : readOnto [] p.toList = .ok p.targets.toList :=
    readOnto_map_val [] p.targets.toList p.nodup
  unfold ofList?
  rw [dif_pos (by simp [toList])]
  split
  · next e he =>
    rw [hread] at he
    cases he
  · next targets htargets =>
    rw [hread] at htargets
    obtain rfl := Except.ok.inj htargets
    rfl

/-! ### What follows bit by bit -/

theorem isIdentity_iff : p.isIdentity = true ↔ ∀ i, p.target i = i := by
  simp [isIdentity]

/-- What leaves every bit in its place leaves every address alone. -/
theorem apply_of_isIdentity (h : p.isIdentity = true) (a : UInt64) : p.apply a = a := by
  refine eq_of_hasBit fun i => ?_
  rw [← p.hasBit_apply_target a i, p.isIdentity_iff.mp h i]

theorem apply_injective : Function.Injective p.apply := by
  intro a b h
  rw [← p.apply_inverse_apply a, h, p.apply_inverse_apply]

theorem card_bits_apply (a : UInt64) : (bits (p.apply a)).card = (bits a).card := by
  refine Finset.card_equiv ⟨p.source, p.target, p.target_source, p.source_target⟩ fun i => ?_
  rw [mem_bits, hasBit_apply, mem_bits]
  rfl

/-- **A permuted address is the address with its bits moved.** The walk over the set bits ends when it
has met each of them; every bit is then found at its target, and the inverse, which is a table like
any other, moves it back. So no two addresses become one, as many bits are set as before, and
differences go through. Only the permutation that leaves every bit in its place leaves every address
alone. -/
theorem apply_moves_bits :
    (∀ a n, clearLowest^[n] a = 0 ↔ (bits a).card ≤ n) ∧
    (∀ a i, hasBit (p.apply a) (p.target i) = hasBit a i) ∧
    (∀ a, p.inverse.apply (p.apply a) = a ∧ p.apply (p.inverse.apply a) = a) ∧
    (ofList? p.toList = .ok p ∧ ofList? p.inverse.toList = .ok p.inverse ∧
      p.inverse.inverse = p) ∧
    (∀ a b, p.apply a = p.apply b → a = b) ∧
    (∀ a, (bits (p.apply a)).card = (bits a).card) ∧
    (∀ a b, p.apply (a ^^^ b) = p.apply a ^^^ p.apply b) ∧
    (p.isIdentity = true ↔ ∀ a, p.apply a = a) := by
  refine ⟨fun _ _ => iterate_clearLowest_eq_zero, p.hasBit_apply_target,
    fun a => ⟨p.apply_inverse_apply a, p.apply_apply_inverse a⟩,
    ⟨p.ofList?_toList, p.inverse.ofList?_toList, p.inverse_inverse⟩,
    fun _ _ h => p.apply_injective h, p.card_bits_apply, fun a b => ?_, p.apply_of_isIdentity, ?_⟩
  · refine eq_of_hasBit fun i => ?_
    rw [hasBit_apply, hasBit_xor, hasBit_xor, hasBit_apply, hasBit_apply]
  · rw [isIdentity_iff]
    intro h i
    -- the word with the one bit `i` set tells where it goes
    have hbit := p.hasBit_apply_target (bitAt i) i
    rw [h, hasBit_bitAt, hasBit_bitAt, decide_eq_true rfl] at hbit
    exact (of_decide_eq_true hbit).symm

end MemoryReplay.BitPermutation
