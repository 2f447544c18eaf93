import Mathlib.Algebra.Order.Ring.Nat
import Mathlib.Tactic.GCongr
import MemoryReplay.Pattern.Sweep
import MemoryReplay.Proofs.Pattern.Columnwise

/-!
# Stage patterns in exact numbers

A stage is checked once, at the last position of its loop, and then made by checked arithmetic.
The number that its formula stands for grows with the position, so where the last address fits so
do all the others, with everything that is computed on the way.

- `StageVariant.extent`: the bounds of a stage's loop. `mem_positions`, `length_positions`.
- `StageVariant.exactWord`, `StageVariant.exactAddress`: the formula in exact numbers, and
  `StageVariant.exactEnd`, its value at the last position.
- `StageGeometry.Fits`: what the check of a tiling has found.
- `lastAddress_eq`: the largest address, or the parameter that is to blame.
- `addressAt_yields`, `generate_eq`: the addresses of a stage are the numbers of its formula.
  `freshAt_requests`: so its requests are.
- `generate_eq_ok_iff`, `of_generate_reported`: when a stage has its requests, and when it has not.
- `request_bound`: how many requests a stage that fits can have.
-/

namespace MemoryReplay

namespace StageVariant

open Pattern

variable {variant : StageVariant} {start : UInt64} {g : StageGeometry} {p q : Nat × Nat}

/-! ### The formula -/

/-- The bounds of the two indices of a stage's loop. -/
def extent (variant : StageVariant) (g : StageGeometry) : Nat × Nat :=
  match variant with
  | icWiseFirstHalf | icWiseSecondHalf => (g.iterations.toNat, g.channels.toNat)
  | irWiseFirstHalf => (1, g.subtiles.toNat)
  | irWiseSecondHalf => (1, g.iterations.toNat)

/-- The last position of a stage's loop; the first one for an index without a value. -/
def lastPosition (variant : StageVariant) (g : StageGeometry) : Nat × Nat :=
  ((variant.extent g).1 - 1, (variant.extent g).2 - 1)

/-- The word that a stage's formula stands for at a position of its loop. -/
def exactWord (variant : StageVariant) (start : Nat) (g : StageGeometry) : Nat × Nat → Nat
  | (i, j) =>
    match variant with
    | icWiseFirstHalf =>
      j * g.channelSpan.toNat + (start + i * g.rowElements.toNat * g.subtiles.toNat)
    | icWiseSecondHalf => j * g.channelSpan.toNat + (start + i * g.rowElements.toNat)
    | irWiseFirstHalf => start + j
    | irWiseSecondHalf => start + j * g.subtiles.toNat

/-- The shift from a stage's words to its addresses. The IR-wise halves make none. -/
def addressShift (variant : StageVariant) (g : StageGeometry) : Nat :=
  match variant with
  | icWiseFirstHalf | icWiseSecondHalf => g.wordShift.toNat
  | irWiseFirstHalf | irWiseSecondHalf => 0

/-- The address that a stage's formula stands for at a position of its loop. -/
def exactAddress (variant : StageVariant) (start : Nat) (g : StageGeometry) (p : Nat × Nat) : Nat :=
  variant.exactWord start g p * 2 ^ variant.addressShift g

/-- The address of the last position. -/
def exactEnd (variant : StageVariant) (start : Nat) (g : StageGeometry) : Nat :=
  variant.exactAddress start g (variant.lastPosition g)

theorem mem_positions : p ∈ variant.positions g ↔
    p.1 < (variant.extent g).1 ∧ p.2 < (variant.extent g).2 := by
  obtain ⟨i, j⟩ := p
  cases variant with
  | icWiseSecondHalf =>
    -- channels are the outer loop here, and still the second index
    simp only [positions, extent, List.mem_map, mem_grid, Prod.exists, Prod.swap_prod_mk, Prod.mk.injEq]
    constructor
    · rintro ⟨j, i, ⟨hj, hi⟩, rfl, rfl⟩
      exact ⟨hi, hj⟩
    · rintro ⟨hi, hj⟩
      exact ⟨j, i, ⟨hj, hi⟩, rfl, rfl⟩
  | _ => exact mem_grid

theorem length_positions (variant : StageVariant) (g : StageGeometry) :
    (variant.positions g).length = variant.requestCount g := by
  cases variant with
  | icWiseSecondHalf => rw [positions, List.length_map, length_grid, Nat.mul_comm]; rfl
  | icWiseFirstHalf => exact length_grid ..
  | irWiseFirstHalf => exact (length_grid ..).trans (Nat.one_mul _)
  | irWiseSecondHalf => exact (length_grid ..).trans (Nat.one_mul _)

/-- The formula grows with both indices. -/
theorem exactWord_mono {s : Nat} (h₁ : p.1 ≤ q.1) (h₂ : p.2 ≤ q.2) :
    variant.exactWord s g p ≤ variant.exactWord s g q := by
  obtain ⟨i, j⟩ := p
  obtain ⟨i', j'⟩ := q
  cases variant <;> dsimp only [exactWord] at h₁ h₂ ⊢ <;> gcongr

/-- The last position belongs to a loop that makes anything. -/
theorem lastPosition_mem (h : variant.positions g ≠ []) :
    variant.lastPosition g ∈ variant.positions g := by
  obtain ⟨p, hp⟩ := List.exists_mem_of_ne_nil _ h
  obtain ⟨h₁, h₂⟩ := mem_positions.mp hp
  exact mem_positions.mpr ⟨Nat.sub_one_lt_of_lt h₁, Nat.sub_one_lt_of_lt h₂⟩

theorem le_lastPosition (h : p ∈ variant.positions g) :
    p.1 ≤ (variant.lastPosition g).1 ∧ p.2 ≤ (variant.lastPosition g).2 := by
  obtain ⟨h₁, h₂⟩ := mem_positions.mp h
  dsimp only [lastPosition]
  omega

theorem exactAddress_le_exactEnd {s : Nat} (h : p ∈ variant.positions g) :
    variant.exactAddress s g p ≤ variant.exactEnd s g := by
  obtain ⟨h₁, h₂⟩ := le_lastPosition h
  exact Nat.mul_le_mul_right _ (exactWord_mono h₁ h₂)

theorem exactWord_le_exactAddress {s : Nat} :
    variant.exactWord s g p ≤ variant.exactAddress s g p :=
  Nat.le_mul_of_pos_right _ (Nat.two_pow_pos _)

/-- From a larger start the last address is larger. -/
theorem exactEnd_mono {s t : Nat} (h : s ≤ t) : variant.exactEnd s g ≤ variant.exactEnd t g := by
  refine Nat.mul_le_mul_right _ ?_
  cases variant <;> dsimp only [exactWord] <;> omega

/-! ### The check of a tiling -/

/-- Of the last address of an IC-wise half every part fits. -/
theorem of_lastIcAddress_eq_ok {step : Checked UInt64} {a : UInt64}
    (h : lastIcAddress start g step = .ok a) : g.wordShift.toNat < 64 ∧ ∃ s, step = some s ∧
      a.toNat = ((g.channels.toNat - 1) * g.channelSpan.toNat +
        (start.toNat + (g.iterations.toNat - 1) * s.toNat)) * 2 ^ g.wordShift.toNat := by
  unfold lastIcAddress at h
  obtain ⟨base, hbase, h⟩ := Outcome.bind_eq_ok_iff.mp h
  obtain ⟨offset, hoffset, h⟩ := Outcome.bind_eq_ok_iff.mp h
  obtain ⟨word, hword, h⟩ := Outcome.bind_eq_ok_iff.mp h
  obtain ⟨s, hstep, hs⟩ := Option.bind_eq_some_iff.mp (Parameter.exact_eq_ok_iff.mp hoffset)
  have hbase := Word.mul?_eq_some_iff.mp (Parameter.exact_eq_ok_iff.mp hbase)
  have hs := Word.mul?_eq_some_iff.mp hs
  have hword := Parameter.exact_eq_ok_iff.mp hword
  rw [Word.add?_bind_add?, Word.ofNat?_eq_some_iff] at hword
  obtain ⟨hshift, h⟩ := Word.scale?_eq_some_iff.mp (Parameter.exact_eq_ok_iff.mp h)
  refine ⟨hshift, s, hstep, ?_⟩
  rw [h, hword, hbase, hs, toNat_lastIndex, toNat_lastIndex, Nat.add_assoc]

end StageVariant

/-- The tilings that pass the check, in exact numbers. -/
structure StageGeometry.Fits (g : StageGeometry) : Prop where
  shift : g.wordShift.toNat < 64
  plane : g.rowElements.toNat * g.rowElements.toNat < UInt64.size
  requests : g.iterations.toNat * g.channels.toNat ≤ maxRequests
  subtiles : g.subtiles.toNat ≤ maxRequests
  step : g.rowElements.toNat * g.subtiles.toNat < UInt64.size
  /-- Every half fits from the first word on. -/
  reach : ∀ variant : StageVariant, variant.exactEnd 0 g < UInt64.size

namespace StageVariant

open Pattern

variable {variant : StageVariant} {start : UInt64} {g : StageGeometry} {p : Nat × Nat}

/-- Where there is a last address, it is the exact one. -/
theorem exactEnd_of_lastAddress {a : UInt64} (h : variant.lastAddress start g = .ok a) :
    a.toNat = variant.exactEnd start.toNat g := by
  unfold lastAddress at h
  cases variant with
  | icWiseFirstHalf =>
    obtain ⟨-, s, hs, ha⟩ := of_lastIcAddress_eq_ok h
    rw [ha, Word.mul?_eq_some_iff.mp hs, ← Nat.mul_assoc]
    rfl
  | icWiseSecondHalf =>
    obtain ⟨-, s, hs, ha⟩ := of_lastIcAddress_eq_ok h
    obtain rfl := Option.some.inj hs
    exact ha
  | irWiseFirstHalf =>
    rw [Word.add?_eq_some_iff.mp (Parameter.exact_eq_ok_iff.mp h), toNat_lastIndex]
    exact (Nat.mul_one _).symm
  | irWiseSecondHalf =>
    have h := Parameter.exact_eq_ok_iff.mp h
    rw [Word.mul?_bind_add?, Word.ofNat?_eq_some_iff, toNat_lastIndex] at h
    exact h.trans (Nat.mul_one _).symm

end StageVariant

/-- A tiling that passes the check leaves 64 bits nowhere from the first word on. -/
theorem StageGeometry.fits_of_validate {g : StageGeometry} (h : g.validate = .ok ()) : g.Fits := by
  unfold validate at h
  split at h
  · cases h
  next hshift =>
  obtain ⟨plane, hplane, h⟩ := Outcome.bind_eq_ok_iff.mp h
  obtain ⟨requests, hrequests, h⟩ := Outcome.bind_eq_ok_iff.mp h
  obtain ⟨subtiles, hsubtiles, h⟩ := Outcome.bind_eq_ok_iff.mp h
  obtain ⟨_, h, -⟩ := Outcome.bind_eq_ok_iff.mp h
  have hlast : ∀ variant : StageVariant, ∃ a, variant.lastAddress 0 g = .ok a := by
    intro variant
    exact Outcome.of_forIn_eq_ok h variant (by cases variant <;> decide)
  obtain ⟨⟨count, hcount, rfl⟩, hrequests⟩ := Parameter.requestCount_eq_ok_iff.mp hrequests
  obtain ⟨hcount', hsubtiles⟩ := Parameter.requestCount_eq_ok_iff.mp hsubtiles
  rw [← Word.yields_some_iff.mp hcount'] at hsubtiles
  refine ⟨Nat.lt_of_not_le hshift, ?_, ?_, hsubtiles, ?_, ?_⟩
  · rw [← Word.mul?_eq_some_iff.mp (Parameter.exact_eq_ok_iff.mp hplane)]
    exact plane.toNat_lt
  · rwa [← Word.mul?_eq_some_iff.mp hcount]
  · -- the words of an iteration are multiplied before it is known that there is one
    obtain ⟨a, ha⟩ := hlast .icWiseFirstHalf
    obtain ⟨-, s, hs, -⟩ := StageVariant.of_lastIcAddress_eq_ok ha
    rw [← Word.mul?_eq_some_iff.mp hs]
    exact s.toNat_lt
  · intro variant
    obtain ⟨a, ha⟩ := hlast variant
    rw [show 0 = (0 : UInt64).toNat from rfl, ← StageVariant.exactEnd_of_lastAddress ha]
    exact a.toNat_lt

namespace StageVariant

open Pattern

variable {variant : StageVariant} {start : UInt64} {g : StageGeometry} {p : Nat × Nat}

/-! ### Stages of such a tiling -/

/-- Only the sum with the start and the shift can fail if all the rest of the address fits. -/
theorem lastIcAddress_eq {s : UInt64} (hshift : g.wordShift.toNat < 64)
    (hbase : (g.channels.toNat - 1) * g.channelSpan.toNat < UInt64.size)
    (hoffset : (g.iterations.toNat - 1) * s.toNat < UInt64.size) {word : Nat}
    (hword : (g.channels.toNat - 1) * g.channelSpan.toNat +
      (start.toNat + (g.iterations.toNat - 1) * s.toNat) = word) :
    lastIcAddress start g (some s) =
      if UInt64.size ≤ word then .error ⟨"start", .addressOverflow⟩
      else if UInt64.size ≤ word * 2 ^ g.wordShift.toNat then .error ⟨"word_shift", .addressOverflow⟩
      else .ok (UInt64.ofNat (word * 2 ^ g.wordShift.toNat)) := by
  obtain ⟨base, hbase, hbase'⟩ := Word.yields_mul? (toNat_lastIndex g.channels) rfl hbase
  obtain ⟨offset, hoffset, hoffset'⟩ := Word.yields_mul? (toNat_lastIndex g.iterations) rfl hoffset
  have hsum : base.toNat + start.toNat + offset.toNat = word := by
    rw [← hword, hbase', hoffset', Nat.add_assoc]
  have hsteps : lastIcAddress start g (some s) = (do
      let word ← Parameter.exact "start" (Word.ofNat? word)
      Parameter.exact "word_shift" (Word.scale? word g.wordShift.toNat)) := by
    unfold lastIcAddress
    rw [hbase]
    show (do
      let offset ← Parameter.exact "iterations" (Word.mul? (lastIndex g.iterations) s)
      let word ← Parameter.exact "start" do Word.add? (← Word.add? base start) offset
      Parameter.exact "word_shift" (Word.scale? word g.wordShift.toNat)) = _
    rw [hoffset, ← hsum, ← Word.add?_bind_add?]
    rfl
  rw [hsteps, Parameter.exact_ofNat?]
  split
  · rfl
  · next hfits =>
    show Parameter.exact "word_shift" (Word.scale? (UInt64.ofNat word) g.wordShift.toNat) = _
    rw [Word.scale?_eq hshift, UInt64.toNat_ofNat_of_lt' (Nat.lt_of_not_le hfits),
      Parameter.exact_ofNat?]

/-- Whether the last word of a stage and its address fit decides on the stage; a start that is too
large is to blame first. -/
theorem lastAddress_eq (hg : g.Fits) (variant : StageVariant) (start : UInt64) :
    variant.lastAddress start g =
      if UInt64.size ≤ variant.exactWord start.toNat g (variant.lastPosition g) then
        .error ⟨"start", .addressOverflow⟩
      else if UInt64.size ≤ variant.exactEnd start.toNat g then
        .error ⟨"word_shift", .addressOverflow⟩
      else .ok (UInt64.ofNat (variant.exactEnd start.toNat g)) := by
  have hopening := Nat.lt_of_le_of_lt exactWord_le_exactAddress (hg.reach variant)
  cases variant with
  | icWiseFirstHalf =>
    obtain ⟨step, hstep, hstep'⟩ := Word.yields_mul? rfl rfl hg.step
    dsimp only [exactWord, lastPosition, extent] at hopening
    rw [Nat.mul_assoc, ← hstep'] at hopening
    unfold lastAddress
    dsimp only
    rw [hstep, lastIcAddress_eq hg.shift (by omega) (by omega) rfl, hstep', ← Nat.mul_assoc]
    rfl
  | icWiseSecondHalf =>
    dsimp only [exactWord, lastPosition, extent] at hopening
    exact lastIcAddress_eq hg.shift (by omega) (by omega) rfl
  | irWiseFirstHalf =>
    have hend : irWiseFirstHalf.exactEnd start.toNat g =
        irWiseFirstHalf.exactWord start.toNat g (irWiseFirstHalf.lastPosition g) := Nat.mul_one _
    unfold lastAddress Word.add?
    dsimp only
    rw [Parameter.exact_ofNat?, hend, toNat_lastIndex]
    split
    · next hlarge => exact (if_pos hlarge).symm
    · next hfits => exact ((if_neg hfits).trans (if_neg hfits)).symm
  | irWiseSecondHalf =>
    have hend : irWiseSecondHalf.exactEnd start.toNat g =
        irWiseSecondHalf.exactWord start.toNat g (irWiseSecondHalf.lastPosition g) := Nat.mul_one _
    unfold lastAddress
    dsimp only
    rw [Word.mul?_bind_add?, Parameter.exact_ofNat?, hend, toNat_lastIndex]
    split
    · next hlarge => exact (if_pos hlarge).symm
    · next hfits => exact ((if_neg hfits).trans (if_neg hfits)).symm

/-- An IC-wise address is exact if it fits. -/
theorem icAddress_yields {channel n : Nat} {offset : Checked UInt64}
    (hshift : g.wordShift.toNat < 64) (hchannel : channel < UInt64.size)
    (hoffset : Word.Yields offset n)
    (hfits : (channel * g.channelSpan.toNat + (start.toNat + n)) * 2 ^ g.wordShift.toNat <
      UInt64.size) :
    Word.Yields (icAddress start g channel offset)
      ((channel * g.channelSpan.toNat + (start.toNat + n)) * 2 ^ g.wordShift.toNat) := by
  have hword : channel * g.channelSpan.toNat + (start.toNat + n) < UInt64.size :=
    Nat.lt_of_le_of_lt (Nat.le_mul_of_pos_right _ (Nat.two_pow_pos _)) hfits
  unfold icAddress
  rw [← bind_assoc]
  refine (Word.yields_multiple hchannel rfl (by omega)).bind fun base hbase => ?_
  refine hoffset.bind fun o ho => ?_
  refine (Word.yields_add? rfl ho (by omega)).bind fun slice hslice => ?_
  refine (Word.yields_add? hbase hslice hword).bind fun word hword => ?_
  exact Word.yields_shiftLeft? hshift hword hfits

/-- The rows before an iteration fit even if there are no sub-tiles in them, because the second
IC-wise half has to fit as well. -/
theorem rows_lt (hg : g.Fits) {i : Nat} (hi : i < g.iterations.toNat) :
    i * g.rowElements.toNat < UInt64.size := by
  have hrows := mul_le_mul_last hi g.rowElements.toNat
  have hlast := Nat.lt_of_le_of_lt exactWord_le_exactAddress (hg.reach icWiseSecondHalf)
  dsimp only [exactWord, lastPosition, extent] at hlast
  omega

theorem rows_yield (hg : g.Fits) {i : Nat} (hi : i < g.iterations.toNat) :
    Word.Yields (do Word.mul? (← Word.ofNat? i) g.rowElements) (i * g.rowElements.toNat) :=
  Word.yields_multiple (Nat.lt_trans hi g.iterations.toNat_lt) rfl (rows_lt hg hi)

/-- **The addresses of a stage are exact** where its last address fits. -/
theorem addressAt_yields (hg : g.Fits) (hend : variant.exactEnd start.toNat g < UInt64.size)
    (hp : p ∈ variant.positions g) :
    Word.Yields (variant.addressAt start g p) (variant.exactAddress start.toNat g p) := by
  have hfits := Nat.lt_of_le_of_lt (exactAddress_le_exactEnd hp) hend
  have hword := Nat.lt_of_le_of_lt exactWord_le_exactAddress hfits
  obtain ⟨hi, hj⟩ := mem_positions.mp hp
  obtain ⟨i, j⟩ := p
  unfold addressAt
  cases variant with
  | icWiseFirstHalf =>
    dsimp only [extent, exactWord] at hi hj hword ⊢
    refine icAddress_yields hg.shift (Nat.lt_trans hj g.channels.toNat_lt) ?_ hfits
    rw [← bind_assoc]
    refine (rows_yield hg hi).bind fun rows hrows => ?_
    exact Word.yields_mul? hrows rfl (by omega)
  | icWiseSecondHalf =>
    exact icAddress_yields hg.shift (Nat.lt_trans hj g.channels.toNat_lt) (rows_yield hg hi) hfits
  | irWiseFirstHalf =>
    dsimp only [exactWord, exactAddress, addressShift] at hword ⊢
    rw [Nat.pow_zero, Nat.mul_one]
    refine (Word.yields_ofNat? (by omega)).bind fun w hw => ?_
    exact Word.yields_add? rfl hw hword
  | irWiseSecondHalf =>
    dsimp only [extent, exactWord, exactAddress, addressShift] at hj hword ⊢
    rw [Nat.pow_zero, Nat.mul_one]
    exact linearAddress_yields (Nat.lt_trans hj g.iterations.toNat_lt) hword

/-- The requests of a stage, in the order of its loop. -/
def requests (variant : StageVariant) (start : Nat) (g : StageGeometry) : List Request :=
  (variant.positions g).map fun p => .fresh (UInt64.ofNat (variant.exactAddress start g p)) .read

/-- They are fresh reads at the addresses of the formula, as long as these fit. -/
theorem freshAt_requests {s : Nat} (hend : variant.exactEnd s g < UInt64.size) :
    FreshAt (variant.requests s g) ((variant.positions g).map (variant.exactAddress s g)) .read :=
  freshAt_map fun _ hp => Nat.lt_of_le_of_lt (exactAddress_le_exactEnd hp) hend

theorem length_requests {s : Nat} : (variant.requests s g).length = variant.requestCount g := by
  rw [requests, List.length_map, length_positions]

theorem of_check_eq_ok (h : variant.check start g = .ok ()) :
    g.validate = .ok () ∧ ∃ last, variant.lastAddress start g = .ok last := by
  obtain ⟨_, hvalid, h⟩ := Outcome.bind_eq_ok_iff.mp h
  obtain ⟨last, hlast, -⟩ := Outcome.bind_eq_ok_iff.mp h
  exact ⟨hvalid, last, hlast⟩

theorem check_of_generate {trace : List Request} (h : variant.generate start g = .ok trace) :
    variant.check start g = .ok () := by
  obtain ⟨_, hcheck, -⟩ := Outcome.bind_eq_ok_iff.mp h
  exact Outcome.ofExcept_eq_ok hcheck

/-- **What a stage makes of a tiling that passes the check**: its requests, or the reason why there
are none. -/
theorem generate_eq (hg : g.validate = .ok ()) (variant : StageVariant) (start : UInt64) :
    variant.generate start g =
      if UInt64.size ≤ variant.exactWord start.toNat g (variant.lastPosition g) then
        .error (.reported ⟨"start", .addressOverflow⟩)
      else if UInt64.size ≤ variant.exactEnd start.toNat g then
        .error (.reported ⟨"word_shift", .addressOverflow⟩)
      else if variant.requestCount g ≤ maxKept then .ok (variant.requests start.toNat g)
      else .error .overflow := by
  have hfits := g.fits_of_validate hg
  unfold generate check
  rw [hg, lastAddress_eq hfits]
  by_cases hword : UInt64.size ≤ variant.exactWord start.toNat g (variant.lastPosition g)
  · rw [if_pos hword, if_pos hword]
    rfl
  rw [if_neg hword, if_neg hword]
  by_cases hend : UInt64.size ≤ variant.exactEnd start.toNat g
  · rw [if_pos hend, if_pos hend]
    rfl
  rw [if_neg hend, if_neg hend]
  have hmade : along (variant.positions g) (variant.addressAt start g) .read =
      some (variant.requests start.toNat g) :=
    along_eq_some fun p hp => addressAt_yields hfits (Nat.lt_of_not_le hend) hp
  rw [hmade]
  rfl

section

variable (hg : g.validate = .ok ())

include hg

/-- A stage that fits has its requests, unless there are too many to keep. -/
theorem generate_of_fits (hend : variant.exactEnd start.toNat g < UInt64.size) :
    variant.generate start g =
      if variant.requestCount g ≤ maxKept then .ok (variant.requests start.toNat g)
      else .error .overflow := by
  have hword : variant.exactWord start.toNat g (variant.lastPosition g) ≤
      variant.exactEnd start.toNat g := exactWord_le_exactAddress
  rw [generate_eq hg, if_neg (by omega), if_neg (by omega)]

theorem generate_of_kept (hend : variant.exactEnd start.toNat g < UInt64.size)
    (hkept : variant.requestCount g ≤ maxKept) :
    variant.generate start g = .ok (variant.requests start.toNat g) := by
  rw [generate_of_fits hg hend, if_pos hkept]

/-- A stage that does not fit has its start or its shift to blame. -/
theorem exists_generate_error (hend : UInt64.size ≤ variant.exactEnd start.toNat g) :
    ∃ e, variant.generate start g = .error (.reported e) := by
  by_cases hword : UInt64.size ≤ variant.exactWord start.toNat g (variant.lastPosition g)
  · exact ⟨_, by rw [generate_eq hg, if_pos hword]⟩
  · exact ⟨_, by rw [generate_eq hg, if_neg hword, if_pos hend]⟩

theorem of_generate_reported {e : ParameterError}
    (h : variant.generate start g = .error (.reported e)) :
    UInt64.size ≤ variant.exactEnd start.toNat g ∧
      (e = ⟨"start", .addressOverflow⟩ ∨ e = ⟨"word_shift", .addressOverflow⟩) := by
  rw [generate_eq hg] at h
  split at h
  · next hword =>
    cases h
    exact ⟨Nat.le_trans hword exactWord_le_exactAddress, .inl rfl⟩
  split at h
  · next hend =>
    cases h
    exact ⟨hend, .inr rfl⟩
  split at h <;> cases h

/-- A stage has its requests if the last address fits, and if there are not too many to keep. -/
theorem generate_eq_ok_iff {trace : List Request} : variant.generate start g = .ok trace ↔
    variant.exactEnd start.toNat g < UInt64.size ∧ variant.requestCount g ≤ maxKept ∧
      trace = variant.requests start.toNat g := by
  constructor
  · intro h
    by_cases hend : variant.exactEnd start.toNat g < UInt64.size
    · rw [generate_of_fits hg hend] at h
      split at h
      · next hkept => exact ⟨hend, hkept, (Except.ok.inj h).symm⟩
      · cases h
    · obtain ⟨e, he⟩ := exists_generate_error hg (Nat.le_of_not_lt hend)
      cases he.symm.trans h
  · rintro ⟨hend, hkept, rfl⟩
    exact generate_of_kept hg hend hkept

end

/-! ### How many requests there are -/

/-- The check of a tiling bounds the loops of the stages, but that of the last one only through the
channels, of which there may be none. -/
theorem requestCount_le (hg : g.Fits) (h : variant ≠ irWiseSecondHalf ∨ g.channels ≠ 0) :
    variant.requestCount g ≤ maxRequests := by
  cases variant with
  | icWiseFirstHalf | icWiseSecondHalf => exact hg.requests
  | irWiseFirstHalf => exact hg.subtiles
  | irWiseSecondHalf =>
    have hchannels : g.channels ≠ 0 := h.resolve_left fun hne => hne rfl
    have hpos : 0 < g.channels.toNat := Word.toNat_pos_iff.mpr hchannels
    exact Nat.le_trans (Nat.le_mul_of_pos_right _ hpos) hg.requests

theorem maxRequests_le_maxKept : maxRequests ≤ maxKept := by decide

/-- **A stage that fits has its requests, and no more than the limit**, unless it runs over the
iterations of a tiling without channels. Of such a tiling the check has not bounded the iterations:
the stage has one request for each, up to the number that can be kept. -/
theorem request_bound {last : UInt64} (hg : g.validate = .ok ())
    (hlast : variant.lastAddress start g = .ok last) :
    (variant ≠ irWiseSecondHalf ∨ g.channels ≠ 0 →
      ∃ trace, variant.generate start g = .ok trace ∧ trace.length = variant.requestCount g ∧
        trace.length ≤ maxRequests) ∧
    (variant = irWiseSecondHalf → g.channels = 0 →
      if g.iterations.toNat ≤ maxKept then
        ∃ trace, variant.generate start g = .ok trace ∧ trace.length = g.iterations.toNat
      else variant.generate start g = .error .overflow) := by
  have hend : variant.exactEnd start.toNat g < UInt64.size := by
    rw [← exactEnd_of_lastAddress hlast]
    exact last.toNat_lt
  constructor
  · intro h
    have hcount := requestCount_le (g.fits_of_validate hg) h
    have hkept := Nat.le_trans hcount maxRequests_le_maxKept
    refine ⟨_, generate_of_kept hg hend hkept, length_requests, ?_⟩
    rw [length_requests]
    exact hcount
  · rintro rfl -
    rw [generate_of_fits hg hend]
    show if g.iterations.toNat ≤ maxKept then _ else _
    split
    · next hkept => exact ⟨_, if_pos hkept, length_requests⟩
    · next hkept => exact if_neg hkept

/-- The usual tiling has sixteen channels, so its stages stay below the limit. -/
theorem request_bound_usual : ∃ trace,
    irWiseSecondHalf.generate 0 {} = .ok trace ∧ trace.length = 32 ∧ trace.length ≤ maxRequests := by
  have hvalid : ({} : StageGeometry).validate = .ok () := rfl
  have hlast : irWiseSecondHalf.lastAddress 0 {} = .ok 496 := rfl
  obtain ⟨hbounded, -⟩ := request_bound hvalid hlast
  exact hbounded (.inr (by decide))

/-- A tiling without channels, of `2 ^ 33` iterations. -/
def crowdedStage : StageGeometry where
  channels := 0
  iterations := 0x200000000
  rowElements := 1
  subtiles := 1

/-- It passes the check, and its last stage has twice as many requests as the limit allows. -/
theorem requests_crowdedStage :
    crowdedStage.validate = .ok () ∧
    irWiseSecondHalf.lastAddress 0 crowdedStage = .ok 0x1ffffffff ∧
    ∃ trace, irWiseSecondHalf.generate 0 crowdedStage = .ok trace ∧
      trace.length = 0x200000000 ∧ maxRequests < trace.length := by
  have hvalid : crowdedStage.validate = .ok () := rfl
  have hmade : irWiseSecondHalf.generate 0 crowdedStage =
      .ok (irWiseSecondHalf.requests 0 crowdedStage) :=
    generate_of_kept hvalid (by decide) (by decide)
  have hlength : (irWiseSecondHalf.requests 0 crowdedStage).length = 0x200000000 :=
    length_requests
  refine ⟨hvalid, rfl, _, hmade, hlength, ?_⟩
  rw [hlength]
  decide

end StageVariant

end MemoryReplay
