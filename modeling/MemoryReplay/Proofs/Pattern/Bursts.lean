import Mathlib.Order.Interval.Set.LinearOrder
import Mathlib.Tactic.Ring
import MemoryReplay.Proofs.Pattern.Columnwise

/-!
# Elements and the bursts that move them

A gather of elements that are not larger than a burst makes one request for each row of elements. A
row takes as many elements as start inside its burst, and that is the burst size over the spacing of
the elements, rounded up. The last of them may end behind the burst. It is moved in part only, and no
other request moves the rest: the rows lie at least one burst apart.

- `elementAt`, `Fetched`: where an element lies, and that one request moves all of it.
- `elementAt_eq`: the place of an element in its row. `starts_inside`: every element of a row starts
  inside its burst.
- `fetched_iff`: an element is moved as a whole if and only if it ends inside the burst of its row.
- `elements_in_bursts`: which elements are, and when all of them are.
- `second_element_cut`: a gather of which the second element is not.
-/

namespace MemoryReplay.Pattern

/-- The first byte of element `k` of a gather. -/
def elementAt (start stride elementSize : UInt64) (k : Nat) : Nat :=
  start.toNat + k * stride.toNat * elementSize.toNat

/-- The bytes that a request moves. -/
def burstBytes (burstSize : UInt64) (r : Request) : Set Nat :=
  Set.Ico r.address.toNat (r.address.toNat + burstSize.toNat)

/-- All bytes of an element are moved by one request of the trace. -/
def Fetched (trace : List Request) (elementSize burstSize : UInt64) (element : Nat) : Prop :=
  ∃ r ∈ trace, Set.Ico element (element + elementSize.toNat) ⊆ burstBytes burstSize r

/-! ### Rows of elements -/

theorem lt_ceilDiv_iff {n d j : Nat} (hd : 0 < d) : j < n ⌈/⌉ d ↔ j * d < n := by
  rw [← Nat.not_le, ceilDiv_le_iff_le_mul hd, Nat.not_le, Nat.mul_comm]

section

variable {numElements stride elementSize burstSize : UInt64} {e k row : Nat}

/-- A row takes the elements that start inside its burst, and is not shorter than the burst. -/
theorem starts_inside (hspacing : 0 < stride.toNat * elementSize.toNat)
    (he : burstSize.toNat ⌈/⌉ (stride.toNat * elementSize.toNat) = e) (hpositive : 0 < e) :
    k % e * (stride.toNat * elementSize.toNat) < burstSize.toNat ∧
      burstSize.toNat ≤ stride.toNat * e * elementSize.toNat := by
  constructor
  · rw [← lt_ceilDiv_iff hspacing, he]
    exact Nat.mod_lt k hpositive
  · rw [Nat.mul_right_comm, ← ceilDiv_le_iff_le_mul hspacing, he]

/-- Element `k` is number `k % e` of row `k / e`. -/
theorem elementAt_eq (start : UInt64) : elementAt start stride elementSize k =
    start.toNat + k / e * (stride.toNat * e * elementSize.toNat) +
      k % e * (stride.toNat * elementSize.toNat) := by
  have hk : k = k / e * e + k % e := by rw [Nat.div_add_mod']
  calc elementAt start stride elementSize k
      _ = start.toNat + (k / e * e + k % e) * stride.toNat * elementSize.toNat := by
        rw [← hk]
        rfl
      _ = _ := by ring

/-- The last element of the first row ends last. -/
theorem forall_mod_iff {n size burst spacing : Nat} (hpositive : 0 < e) (hsize : size ≤ burst) :
    (∀ k < n, k % e * spacing + size ≤ burst) ↔ (min n e - 1) * spacing + size ≤ burst := by
  constructor
  · intro hall
    by_cases hnone : n = 0
    · rwa [hnone, Nat.zero_min, Nat.zero_sub, Nat.zero_mul, Nat.zero_add]
    · have hlast := hall (min n e - 1) (by omega)
      rwa [Nat.mod_eq_of_lt (by omega)] at hlast
  · intro hlast k hk
    have hle := Nat.mod_le k e
    have hlt := Nat.mod_lt k hpositive
    exact Nat.le_trans (Nat.add_le_add_right (Nat.mul_le_mul_right _ (by omega)) _) hlast

/-- An element that ends inside the burst of a row is an element of this row. -/
theorem row_eq {pitch burst size offset q : Nat} (hsize : 0 < size) (hinside : offset < burst)
    (hpitch : burst ≤ pitch) (hfirst : row * pitch ≤ q * pitch + offset)
    (hlast : q * pitch + offset + size ≤ row * pitch + burst) : row = q := by
  rcases Nat.lt_trichotomy row q with hlt | heq | hlt
  · have hnext : (row + 1) * pitch ≤ q * pitch := Nat.mul_le_mul_right _ hlt
    rw [Nat.succ_mul] at hnext
    omega
  · exact heq
  · have hnext : (q + 1) * pitch ≤ row * pitch := Nat.mul_le_mul_right _ hlt
    rw [Nat.succ_mul] at hnext
    omega

end

/-! ### Gathers of small elements -/

section

variable {start numElements stride elementSize burstSize : UInt64} {direction : Direction}
  {trace : List Request} {e : Nat}
  (h : columnwise start numElements stride elementSize burstSize direction = .ok trace)
  (hsize : elementSize ≤ burstSize)
  (he : burstSize.toNat ⌈/⌉ (stride.toNat * elementSize.toNat) = e)

include h

theorem positive_of_columnwise : 0 < stride.toNat ∧ 0 < elementSize.toNat ∧ 0 < burstSize.toNat := by
  have hrep := (columnwise_madeWhen rfl rfl rfl rfl).ok_iff.mp ⟨trace, h⟩
  exact ⟨hrep.1, hrep.2.1, hrep.2.2.1⟩

include hsize he

/-- One request for each row. -/
theorem exists_request_iff {a : Nat} : (∃ r ∈ trace, r.address.toNat = a) ↔
    ∃ row < numElements.toNat ⌈/⌉ e,
      start.toNat + row * (stride.toNat * e * elementSize.toNat) = a := by
  obtain ⟨-, helement, hburst⟩ := positive_of_columnwise h
  rw [Nat.mul_comm] at he
  have hmade := (columnwise_madeWhen he rfl rfl rfl).freshAt trace h
  have hone : elementSize.toNat ⌈/⌉ burstSize.toNat = 1 := by
    refine Nat.le_antisymm ?_ (ceilDiv_pos helement hburst)
    rw [ceilDiv_le_iff_le_mul hburst, Nat.mul_one]
    exact UInt64.le_iff_toNat_le.mp hsize
  rw [← hmade.mem_addresses_iff, hone, List.mem_map]
  constructor
  · rintro ⟨⟨row, burst⟩, hmem, rfl⟩
    obtain ⟨hrow, hzero⟩ := mem_grid.mp hmem
    obtain rfl : burst = 0 := Nat.lt_one_iff.mp hzero
    exact ⟨row, hrow, rfl⟩
  · rintro ⟨row, hrow, rfl⟩
    exact ⟨(row, 0), mem_grid.mpr ⟨hrow, Nat.one_pos⟩, rfl⟩

variable {k : Nat} (hk : k < numElements.toNat)

include hk

/-- The row of an element has its request. -/
theorem exists_rowRequest : ∃ r ∈ trace,
    r.address.toNat = start.toNat + k / e * (stride.toNat * e * elementSize.toNat) := by
  obtain ⟨hstride, helement, hburst⟩ := positive_of_columnwise h
  have hpositive : 0 < e := he ▸ ceilDiv_pos hburst (Nat.mul_pos hstride helement)
  rw [exists_request_iff h hsize he]
  refine ⟨k / e, ?_, rfl⟩
  rw [lt_ceilDiv_iff hpositive]
  exact Nat.lt_of_le_of_lt (Nat.div_mul_le_self k e) hk

/-- **An element is moved as a whole if and only if it ends inside the burst of its row.** -/
theorem fetched_iff :
    Fetched trace elementSize burstSize (elementAt start stride elementSize k) ↔
      k % e * (stride.toNat * elementSize.toNat) + elementSize.toNat ≤ burstSize.toNat := by
  obtain ⟨hstride, helement, hburst⟩ := positive_of_columnwise h
  have hspacing := Nat.mul_pos hstride helement
  obtain ⟨hinside, hpitch⟩ :=
    starts_inside (k := k) hspacing he (he ▸ ceilDiv_pos hburst hspacing)
  rw [elementAt_eq (e := e)]
  unfold Fetched burstBytes
  simp only [Set.Ico_subset_Ico_iff (Nat.lt_add_of_pos_right helement)]
  constructor
  · rintro ⟨r, hr, hfirst, hlast⟩
    obtain ⟨row, -, haddress⟩ := (exists_request_iff h hsize he).mp ⟨r, hr, rfl⟩
    obtain rfl : row = k / e := row_eq helement hinside hpitch (by omega) (by omega)
    omega
  · intro hfits
    obtain ⟨r, hr, haddress⟩ := exists_rowRequest h hsize he hk
    exact ⟨r, hr, by omega, by omega⟩

end

/-- **The elements of a gather in its bursts**, where an element is not larger than a burst. Every
element starts in a burst. It is moved as a whole if and only if it ends there too, so all elements
are if the last one of the first row is; and that is so if a burst is a multiple of an element. -/
theorem elements_in_bursts {start numElements stride elementSize burstSize : UInt64}
    {direction : Direction} {trace : List Request}
    (h : columnwise start numElements stride elementSize burstSize direction = .ok trace)
    (hsize : elementSize ≤ burstSize) :
    let spacing := stride.toNat * elementSize.toNat
    let e := burstSize.toNat ⌈/⌉ spacing
    let fetched := fun k => Fetched trace elementSize burstSize (elementAt start stride elementSize k)
    (∀ k < numElements.toNat,
      (∃ r ∈ trace, elementAt start stride elementSize k ∈ burstBytes burstSize r) ∧
      (fetched k ↔ k % e * spacing + elementSize.toNat ≤ burstSize.toNat)) ∧
    ((∀ k < numElements.toNat, fetched k) ↔
      (min numElements.toNat e - 1) * spacing + elementSize.toNat ≤ burstSize.toNat) ∧
    (elementSize.toNat ∣ burstSize.toNat → ∀ k < numElements.toNat, fetched k) := by
  intro spacing e fetched
  obtain ⟨hstride, helement, hburst⟩ := positive_of_columnwise h
  have hspacing : 0 < spacing := Nat.mul_pos hstride helement
  have hpositive : 0 < e := ceilDiv_pos hburst hspacing
  have hinside : ∀ k, k % e * spacing < burstSize.toNat := fun k =>
    (starts_inside hspacing rfl hpositive).1
  have hiff : ∀ k < numElements.toNat,
      (fetched k ↔ k % e * spacing + elementSize.toNat ≤ burstSize.toNat) := fun k hk =>
    fetched_iff h hsize rfl hk
  refine ⟨fun k hk => ⟨?_, hiff k hk⟩, ?_, fun hdvd k hk => (hiff k hk).mpr ?_⟩
  · obtain ⟨r, hr, haddress⟩ := exists_rowRequest h hsize rfl hk
    refine ⟨r, hr, ?_⟩
    rw [elementAt_eq (e := e), burstBytes, haddress]
    exact ⟨Nat.le_add_right _ _, Nat.add_lt_add_left (hinside k) _⟩
  · rw [← forall_mod_iff hpositive (UInt64.le_iff_toNat_le.mp hsize)]
    exact forall₂_congr hiff
  · -- between two multiples of the element size there is room for an element
    have hoffset : elementSize.toNat ∣ k % e * spacing :=
      Nat.dvd_mul_left_of_dvd (Nat.dvd_mul_left _ _) _
    refine Nat.le_of_lt_add_of_dvd ?_ (Nat.dvd_add_self_right.mpr hoffset) hdvd
    exact Nat.add_lt_add_right (hinside k) _

/-- Three elements of 24 bytes start in a burst of 64, and the third one does not end there. -/
theorem elements_in_bursts_threes :
    columnwise 0x1000 5 1 24 64 .read = .ok [.fresh 0x1000 .read, .fresh 0x1048 .read] ∧
    (24 : UInt64) ≤ 64 ∧
    Fetched [.fresh 0x1000 .read, .fresh 0x1048 .read] 24 64 (elementAt 0x1000 1 24 4) ∧
    ¬ Fetched [.fresh 0x1000 .read, .fresh 0x1048 .read] 24 64 (elementAt 0x1000 1 24 2) := by
  have hmade : columnwise 0x1000 5 1 24 64 .read =
      .ok [.fresh 0x1000 .read, .fresh 0x1048 .read] := rfl
  have hsize : (24 : UInt64) ≤ 64 := by decide
  have hfetched := (elements_in_bursts hmade hsize).1
  refine ⟨hmade, hsize, (hfetched 4 (by decide)).2.mpr (by decide), fun hthird => ?_⟩
  exact absurd ((hfetched 2 (by decide)).2.mp hthird) (by decide)

/-- Two elements of 24 bytes are fetched together in a burst of 32, and there is no other request for
what the burst does not hold of the second one. -/
theorem second_element_cut :
    columnwise 0 2 1 24 32 .read = .ok [.fresh 0 .read] ∧ (24 : UInt64) ≤ 32 ∧
    ¬ Fetched [.fresh 0 .read] 24 32 (elementAt 0 1 24 1) := by
  refine ⟨rfl, by decide, ?_⟩
  rintro ⟨r, hr, hbytes⟩
  obtain rfl := List.mem_singleton.mp hr
  have hlast : 47 < 32 := (hbytes (show 47 ∈ Set.Ico 24 48 by simp)).2
  exact absurd hlast (by decide)

end MemoryReplay.Pattern
