import Mathlib.Algebra.Order.Floor.Div
import MemoryReplay.Pattern.Columnwise
import MemoryReplay.Proofs.Pattern.Linear

/-!
# Column-wise patterns in exact numbers

A column-wise pattern is a loop over rows, and in each row over its requests. Like a linear pattern
it is checked at its last address, which for a gather without elements is where its first row would
end. What is multiplied before that, on the way to the pitch of the rows, divides the pitch, so it
fits if the pitch does.

- `ceilDiv_eq_ite`, `Word.toNat_ceilDiv`: rounding up never leaves 64 bits.
- `map_grid`: the double loop written out. `columnAddress_yields`: an address in it.
- `columnwise_made`: the pattern is made if and only if it can be represented.
-/

namespace MemoryReplay

/-- A number that is not a multiple is rounded up to the next one. -/
theorem ceilDiv_eq_ite {n d : Nat} (hd : 0 < d) :
    n ⌈/⌉ d = if n % d = 0 then n / d else n / d + 1 := by
  have hsplit := Nat.div_add_mod' n d
  have hmod := Nat.mod_lt n hd
  rw [Nat.ceilDiv_eq_add_pred_div]
  split
  · refine Nat.div_eq_of_lt_le ?_ ?_
    · omega
    · rw [Nat.succ_mul]
      omega
  · refine Nat.div_eq_of_lt_le ?_ ?_
    · rw [Nat.succ_mul]
      omega
    · rw [Nat.succ_mul, Nat.succ_mul]
      omega

theorem ceilDiv_pos {n d : Nat} (hn : 0 < n) (hd : 0 < d) : 0 < n ⌈/⌉ d := by
  by_contra hzero
  have hle : n ≤ d * 0 := (ceilDiv_le_iff_le_mul hd).mp (Nat.le_of_not_lt hzero)
  omega

/-- A quotient is rounded up only if the divisor is two at least, so there is room for it. -/
theorem Word.toNat_ceilDiv {a b : UInt64} (hb : 0 < b.toNat) :
    (ceilDiv a b).toNat = a.toNat ⌈/⌉ b.toNat := by
  have hzero : a % b = 0 ↔ a.toNat % b.toNat = 0 := by
    rw [← UInt64.toNat_inj, UInt64.toNat_mod]
    rfl
  unfold ceilDiv
  rw [ceilDiv_eq_ite hb]
  split
  · next h => rw [if_pos (hzero.mp h), UInt64.toNat_div]
  · next h =>
    have hrest : a.toNat % b.toNat ≠ 0 := fun hmod => h (hzero.mpr hmod)
    have htwo : 2 ≤ b.toNat := by
      by_contra hone
      obtain hone : b.toNat = 1 := by omega
      rw [hone, Nat.mod_one] at hrest
      exact hrest rfl
    have hhalf : a.toNat / b.toNat ≤ a.toNat / 2 := Nat.div_le_div_left htwo (by decide)
    have hroom := a.toNat_lt
    rw [if_neg hrest, UInt64.toNat_add, UInt64.toNat_div]
    exact Nat.mod_eq_of_lt (by show a.toNat / b.toNat + 1 < _; omega)

namespace Pattern

theorem mem_grid {b c : Nat} {p : Nat × Nat} : p ∈ grid b c ↔ p.1 < b ∧ p.2 < c := by
  obtain ⟨i, j⟩ := p
  simp [grid]

theorem map_grid {α : Type} (b c : Nat) (f : Nat × Nat → α) :
    (grid b c).map f = (List.range b).flatMap fun i => (List.range c).map fun j => f (i, j) := by
  simp only [grid, List.map_flatMap, List.map_map, Function.comp_def]

variable {start pitch : UInt64} {p : Nat × Nat}

theorem columnAddress_yields (hrow : p.1 < UInt64.size)
    (hfits : start.toNat + p.1 * pitch.toNat + p.2 < UInt64.size) :
    Word.Yields (columnAddress start pitch p) (start.toNat + p.1 * pitch.toNat + p.2) := by
  unfold columnAddress
  rw [← bind_assoc]
  refine (Word.yields_multiple hrow rfl (by omega)).bind fun offset hoffset => ?_
  refine (Word.yields_add? rfl hoffset (by omega)).bind fun base hbase => ?_
  refine (Word.yields_ofNat? (by omega)).bind fun burst hburst => ?_
  exact Word.yields_add? hbase hburst hfits

variable {numElements stride elementSize burstSize : UInt64} {direction : Direction}

section

variable {e rows requests width : Nat}
  (he : burstSize.toNat ⌈/⌉ (elementSize.toNat * stride.toNat) = e)
  (hrows : numElements.toNat ⌈/⌉ e = rows)
  (hrequests : elementSize.toNat ⌈/⌉ burstSize.toNat = requests)
  (hwidth : stride.toNat * e * elementSize.toNat = width)

include he hrows hrequests hwidth

/-- The checks of a gather, one after the other. -/
theorem columnwise_madeWhen :
    MadeWhen (columnwise start numElements stride elementSize burstSize direction)
      (0 < stride.toNat ∧ 0 < elementSize.toNat ∧ 0 < burstSize.toNat ∧ width < UInt64.size ∧
        rows * requests ≤ maxRequests ∧
        start.toNat + (rows - 1) * width + (requests - 1) < UInt64.size)
      ((grid rows requests).map fun p => start.toNat + p.1 * width + p.2) direction := by
  refine .positive (fun h => h.1) fun hstride => ?_
  refine .positive (fun h => h.2.1) fun helement => ?_
  refine .positive (fun h => h.2.2.1) fun hburst => ?_
  have hspan : 0 < elementSize.toNat * stride.toNat := Nat.mul_pos helement hstride
  have hpositive : 0 < e := he ▸ ceilDiv_pos hburst hspan
  -- the products on the way to the pitch divide it, and no other factor of it is zero
  have hstep : stride.toNat * e ≤ width := hwidth ▸ Nat.le_mul_of_pos_right _ helement
  have hspacing : elementSize.toNat * stride.toNat ≤ width := by
    rw [← hwidth, Nat.mul_comm elementSize.toNat]
    exact Nat.mul_le_mul_right _ (Nat.le_mul_of_pos_right _ hpositive)
  refine .exact rfl (fun h => Nat.lt_of_le_of_lt hspacing h.2.2.2.1) fun spacing hspacing => ?_
  have helements : (Word.ceilDiv burstSize spacing).toNat = e := by
    rw [Word.toNat_ceilDiv (hspacing ▸ hspan), hspacing, he]
  have hrows : (Word.ceilDiv numElements (Word.ceilDiv burstSize spacing)).toNat = rows := by
    rw [Word.toNat_ceilDiv (helements ▸ hpositive), helements, hrows]
  have hrequests : (Word.ceilDiv elementSize burstSize).toNat = requests := by
    rw [Word.toNat_ceilDiv hburst, hrequests]
  refine .exact (n := stride.toNat * e) (helements ▸ rfl)
    (fun h => Nat.lt_of_le_of_lt hstep h.2.2.2.1) fun step hstep => ?_
  refine .exact (n := width) (by rw [← hwidth, ← hstep]; rfl) (fun h => h.2.2.2.1)
    fun pitch hpitch => ?_
  refine .counted (n := rows * requests) (by rw [← hrows, ← hrequests]; rfl)
    (fun h => h.2.2.2.2.1) fun hfew => ?_
  refine .exact (n := (rows - 1) * width) (by rw [← hrows, ← toNat_lastIndex, ← hpitch]; rfl)
    (fun h => by omega) fun lastRow hlastRow => ?_
  refine .exact (n := start.toNat + (rows - 1) * width + (requests - 1))
    (by rw [Word.add?_bind_add?, hlastRow, toNat_lastIndex, hrequests]) (fun h => h.2.2.2.2.2)
    fun last hlast => ?_
  have hfits : start.toNat + (rows - 1) * width + (requests - 1) < UInt64.size :=
    hlast ▸ last.toNat_lt
  rw [hrows, hrequests, ← hpitch]
  refine .along ?_ ?_
  · exact ⟨hstride, helement, hburst, pitch.toNat_lt, hfew, hpitch ▸ hfits⟩
  · intro p hp
    obtain ⟨hrow, hrequest⟩ := mem_grid.mp hp
    have hle := mul_le_mul_last hrow width
    rw [← hpitch] at hle hfits
    refine columnAddress_yields (Nat.lt_trans hrow ?_) (by omega)
    rw [← hrows]
    exact UInt64.toNat_lt _

end

/-- A parameter of zero is refused before anything is divided. -/
theorem columnwise_of_zero (h : stride = 0 ∨ elementSize = 0 ∨ burstSize = 0) : ∃ parameter,
    columnwise start numElements stride elementSize burstSize direction =
      .error (.reported ⟨parameter, .zero⟩) := by
  unfold columnwise Parameter.positive
  by_cases hstride : stride = 0
  · exact ⟨"stride", by rw [if_pos hstride]; rfl⟩
  rw [if_neg hstride]
  by_cases helement : elementSize = 0
  · exact ⟨"element_size", by rw [if_pos helement]; rfl⟩
  rw [if_neg helement]
  rcases h with h | h | h
  · exact absurd h hstride
  · exact absurd h helement
  · exact ⟨"burst_size", by rw [if_pos h]; rfl⟩

/-- **A column-wise pattern is made if and only if it can be represented**: no parameter is zero, the
pitch of the rows fits, there are not too many requests, and the last address fits. It then has the
addresses of its formula in exact numbers, row by row. A parameter of zero is refused before anything
is divided, and no divisor that is computed from the others is zero. -/
theorem columnwise_made (start numElements stride elementSize burstSize : UInt64)
    (direction : Direction) :
    let e := burstSize.toNat ⌈/⌉ (elementSize.toNat * stride.toNat)
    let pitch := stride.toNat * e * elementSize.toNat
    let rows := numElements.toNat ⌈/⌉ e
    let r := elementSize.toNat ⌈/⌉ burstSize.toNat
    MadeWhen (columnwise start numElements stride elementSize burstSize direction)
      (0 < stride.toNat ∧ 0 < elementSize.toNat ∧ 0 < burstSize.toNat ∧ pitch < UInt64.size ∧
        rows * r ≤ maxRequests ∧ start.toNat + (max rows 1 - 1) * pitch + (r - 1) < UInt64.size)
      ((List.range rows).flatMap fun row =>
        (List.range r).map fun b => start.toNat + row * pitch + b) direction ∧
    (stride = 0 ∨ elementSize = 0 ∨ burstSize = 0 → ∃ parameter,
      columnwise start numElements stride elementSize burstSize direction =
        .error (.reported ⟨parameter, .zero⟩)) ∧
    (stride ≠ 0 → elementSize ≠ 0 → burstSize ≠ 0 → ∀ spacing,
      Word.mul? elementSize stride = some spacing →
        spacing ≠ 0 ∧ Word.ceilDiv burstSize spacing ≠ 0) := by
  intro e pitch rows r
  refine ⟨?_, columnwise_of_zero, ?_⟩
  · have hlast : max rows 1 - 1 = rows - 1 := by omega
    rw [hlast, ← map_grid rows r fun p => start.toNat + p.1 * pitch + p.2]
    exact columnwise_madeWhen rfl rfl rfl rfl
  · intro hstride helement hburst spacing hspacing
    rw [← Word.toNat_pos_iff] at hstride helement hburst
    have hpositive : 0 < spacing.toNat := by
      rw [Word.mul?_eq_some_iff.mp hspacing]
      exact Nat.mul_pos helement hstride
    refine ⟨Word.toNat_pos_iff.mp hpositive, Word.toNat_pos_iff.mp ?_⟩
    rw [Word.toNat_ceilDiv hpositive]
    exact ceilDiv_pos hburst hpositive

/-- A gather without elements is refused where its first row would not fit. -/
example : columnwise 0xffffffffffffffff 0 1 64 32 .read =
    .error (.reported ⟨"start", .addressOverflow⟩) := rfl

end Pattern

end MemoryReplay
