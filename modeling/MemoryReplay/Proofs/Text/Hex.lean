import Mathlib.Data.Nat.Digits.Defs
import Mathlib.Tactic.IntervalCases
import MemoryReplay.Text.Hex
import MemoryReplay.Text.Line

/-!
# Hexadecimal numbers, written and read

- `Spells`: which characters stand for a digit. `value?_eq_some_iff`: these, and no others, are read.
- `Writes`: which texts write a number, with any number of zeros in front.
- `read?_eq_some_iff`: exactly the texts that write a number are read, and as that number.
- `read?_wideDigits`: what is written is read back, whatever the width.
-/

namespace MemoryReplay.Text.Hex

/-- The sixteen digits with small letters, from zero up. -/
def smallDigits : List Char := "0123456789abcdef".toList

/-- The sixteen digits with capital letters, from zero up. -/
def capitalDigits : List Char := "0123456789ABCDEF".toList

/-- A character stands for a digit. -/
def Spells (c : Char) (d : Nat) : Prop := smallDigits[d]? = some c ∨ capitalDigits[d]? = some c

instance (c : Char) (d : Nat) : Decidable (Spells c d) := inferInstanceAs (Decidable (_ ∨ _))

/-- A text is a run of digits and writes a number. -/
def Writes (cs : List Char) (n : Nat) : Prop :=
  cs ≠ [] ∧ ∃ ds, List.Forall₂ Spells cs ds ∧ n = Nat.ofDigits 16 ds.reverse

variable {c : Char} {cs : List Char} {n d : Nat}

/-! ### One digit -/

theorem lt_of_spells (h : Spells c d) : d < 16 := by
  rcases h with h | h <;> exact (List.getElem?_eq_some_iff.mp h).1

theorem value?_eq_some_iff : value? c = some d ↔ Spells c d := by
  constructor
  · intro h
    have hc : c = Char.ofNat c.toNat := (Char.ofNat_toNat c).symm
    unfold value? at h
    generalize c.toNat = code at h hc
    subst hc
    -- in each of the three runs of codes, one code after the other
    dsimp only at h
    split_ifs at h with hdecimal hsmall hcapital
    · obtain ⟨hlow, hhigh⟩ := hdecimal
      interval_cases code <;> cases h <;> decide
    · obtain ⟨hlow, hhigh⟩ := hsmall
      interval_cases code <;> cases h <;> decide
    · obtain ⟨hlow, hhigh⟩ := hcapital
      interval_cases code <;> cases h <;> decide
  · intro h
    have hlt := lt_of_spells h
    rcases h with h | h
    · interval_cases d <;> cases h <;> rfl
    · interval_cases d <;> cases h <;> rfl

/-! ### Runs of digits -/

theorem readOnto_eq_some_iff {total : Nat} : readOnto total cs = some n ↔
    ∃ ds, List.Forall₂ Spells cs ds ∧ n = ds.foldl (fun n d => 16 * n + d) total := by
  induction cs generalizing total with
  | nil =>
    constructor
    · intro h
      exact ⟨[], .nil, (Option.some.inj h).symm⟩
    · rintro ⟨ds, hds, rfl⟩
      cases hds
      rfl
  | cons c cs ih =>
    rw [readOnto]
    constructor
    · intro h
      split at h
      · next d hd =>
        obtain ⟨ds, hds, rfl⟩ := ih.mp h
        exact ⟨d :: ds, .cons (value?_eq_some_iff.mp hd) hds, rfl⟩
      · cases h
    · rintro ⟨ds, hds, rfl⟩
      cases hds with
      | cons hd hds =>
        rw [value?_eq_some_iff.mpr hd]
        exact ih.mpr ⟨_, hds, rfl⟩

theorem foldl_eq_ofDigits (ds : List Nat) :
    ds.foldl (fun n d => 16 * n + d) 0 = Nat.ofDigits 16 ds.reverse := by
  rw [Nat.ofDigits_eq_foldr, List.foldr_reverse]
  congr 1
  funext n d
  simp only [Nat.cast_id]
  omega

/-- Exactly the texts that write a number are read, and as that number. -/
theorem read?_eq_some_iff : read? cs = some n ↔ Writes cs n := by
  unfold read? Writes
  cases cs with
  | nil => simp
  | cons c cs =>
    rw [List.isEmpty_cons, if_neg Bool.false_ne_true, readOnto_eq_some_iff]
    constructor
    · rintro ⟨ds, hds, rfl⟩
      exact ⟨List.cons_ne_nil c cs, ds, hds, foldl_eq_ofDigits ds⟩
    · rintro ⟨-, ds, hds, rfl⟩
      exact ⟨ds, hds, (foldl_eq_ofDigits ds).symm⟩

/-- A number is written in digits only. -/
theorem Writes.exists_value (h : Writes cs n) (hc : c ∈ cs) : ∃ d, value? c = some d := by
  obtain ⟨-, ds, hds, -⟩ := h
  induction hds with
  | nil => cases hc
  | @cons c' d cs ds hd hds ih =>
    rcases List.mem_cons.mp hc with rfl | hc
    · exact ⟨d, value?_eq_some_iff.mpr hd⟩
    · exact ih hc

/-- No digit is blank. -/
theorem Writes.not_blank (h : Writes cs n) (hc : c ∈ cs) : isBlank c = false := by
  obtain ⟨d, hd⟩ := h.exists_value hc
  unfold value? at hd
  dsimp only at hd
  -- the three runs of digits lie between the ranges of blanks
  split_ifs at hd
  all_goals
    simp [isBlank, blankRanges]
    omega

/-! ### What is written is read back -/

theorem readOnto_digitsOnto (n : Nat) (rest : List Char) :
    readOnto 0 (digitsOnto n rest) = readOnto n rest := by
  fun_induction digitsOnto n rest with
  | case1 n rest h => simp only [readOnto, value?_digit n h, Nat.mul_zero, Nat.zero_add]
  | case2 n rest h ih =>
    have hn : 16 * (n / 16) + n % 16 = n := Nat.div_add_mod n 16
    rw [ih, readOnto, value?_digit _ (Nat.mod_lt n (by decide))]
    simp only [hn]

theorem readOnto_zeros (k : Nat) (cs : List Char) :
    readOnto 0 (List.replicate k '0' ++ cs) = readOnto 0 cs := by
  induction k with
  | zero => rfl
  | succ k ih =>
    rw [List.replicate_succ, List.cons_append, readOnto]
    exact ih

theorem digitsOnto_ne_nil (n : Nat) (rest : List Char) : digitsOnto n rest ≠ [] := by
  fun_induction digitsOnto n rest with
  | case1 n rest h => exact List.cons_ne_nil _ _
  | case2 n rest h ih => exact ih

theorem wideDigits_ne_nil (width n : Nat) : wideDigits width n ≠ [] :=
  List.append_ne_nil_of_right_ne_nil _ (digitsOnto_ne_nil n [])

/-- A number is read back from its digits, with any number of zeros in front. -/
theorem read?_wideDigits (width n : Nat) : read? (wideDigits width n) = some n := by
  have hread : readOnto 0 (wideDigits width n) = some n := by
    unfold wideDigits digits
    rw [readOnto_zeros, readOnto_digitsOnto]
    rfl
  unfold read?
  rw [if_neg (by simpa using wideDigits_ne_nil width n), hread]

theorem writes_wideDigits (width n : Nat) : Writes (wideDigits width n) n :=
  read?_eq_some_iff.mp (read?_wideDigits width n)

end MemoryReplay.Text.Hex
