import MemoryReplay.Pattern.Linear
import MemoryReplay.Proofs.Checked

/-!
# Linear patterns in exact numbers

A linear pattern checks its last address before it makes the first one. The address grows with the
index, so the last one decides on all the others and on everything that is computed on the way. The
other checks refuse nothing that could be represented: each of them looks at the length of the trace,
or at a part of the last address.

- `FreshAt`: a trace of fresh requests, by its addresses in exact numbers.
- `MadeWhen`: a pattern is made exactly where it can be represented, and leaves 64 bits nowhere.
- `MadeWhen.positive`, `MadeWhen.exact`, `MadeWhen.counted`, `MadeWhen.evaluated`: what a check, or
  a computation without one, contributes to that. `MadeWhen.along`: what the loop contributes.
- `sequential_made`, `strided_made`, `indexedStride_made`: the three patterns.
- `linear_patterns_made`: they are made if and only if they can be represented.
-/

namespace MemoryReplay

namespace Pattern

theorem toNat_lastIndex (n : UInt64) : (lastIndex n).toNat = n.toNat - 1 := by
  unfold lastIndex
  split
  · next h =>
    subst h
    rfl
  · next h =>
    exact UInt64.toNat_sub_of_le n 1 (UInt64.le_iff_toNat_le.mpr (Word.toNat_pos_iff.mpr h))

/-! ### Traces by their exact addresses -/

/-- A trace of fresh requests of one direction, with these addresses in this order. -/
structure FreshAt (trace : List Request) (addresses : List Nat) (direction : Direction) : Prop where
  addresses_eq : trace.map (·.address.toNat) = addresses
  fresh : ∀ r ∈ trace, r = .fresh r.address direction

theorem FreshAt.mem_addresses_iff {trace : List Request} {addresses : List Nat}
    {direction : Direction} (h : FreshAt trace addresses direction) {a : Nat} :
    a ∈ addresses ↔ ∃ r ∈ trace, r.address.toNat = a := by
  rw [← h.addresses_eq, List.mem_map]

section

variable {ι : Type} {indices : List ι} {formula : ι → Checked UInt64} {exact : ι → Nat}
  {direction : Direction}

theorem along_eq_some (h : ∀ i ∈ indices, Word.Yields (formula i) (exact i)) :
    along indices formula direction =
      some (indices.map fun i => .fresh (UInt64.ofNat (exact i)) direction) := by
  refine Checked.mapM_eq_some fun i hi => ?_
  rw [(h i hi).eq_some]
  rfl

theorem freshAt_map (h : ∀ i ∈ indices, exact i < UInt64.size) :
    FreshAt (indices.map fun i => .fresh (UInt64.ofNat (exact i)) direction) (indices.map exact)
      direction where
  addresses_eq := by
    rw [List.map_map]
    exact List.map_congr_left fun i hi => UInt64.toNat_ofNat_of_lt' (h i hi)
  fresh := by
    intro r hr
    obtain ⟨i, -, rfl⟩ := List.mem_map.mp hr
    rfl

end

/-! ### Patterns that are made where they can be represented -/

/-- A pattern has a trace exactly if it can be represented. The trace then has the given addresses,
and if there is none, that is reported: no number leaves 64 bits unnoticed. -/
structure MadeWhen (outcome : Outcome ParameterError (List Request)) (representable : Prop)
    (addresses : List Nat) (direction : Direction) : Prop where
  ok_iff : (∃ trace, outcome = .ok trace) ↔ representable
  freshAt : ∀ trace, outcome = .ok trace → FreshAt trace addresses direction
  ne_overflow : outcome ≠ .error .overflow

namespace MadeWhen

variable {representable : Prop} {addresses : List Nat} {direction : Direction} {name : String}
  {x : Checked UInt64} {n : Nat}

theorem reported {e : ParameterError} (h : ¬ representable) :
    MadeWhen (.error (.reported e)) representable addresses direction where
  ok_iff := ⟨nofun, fun hrep => absurd hrep h⟩
  freshAt := nofun
  ne_overflow := nofun

/-- A pattern may refuse a zero that it cannot be represented with. -/
theorem positive {value : UInt64} {next : Unit → Outcome ParameterError (List Request)}
    (hneeded : representable → 0 < value.toNat)
    (hnext : 0 < value.toNat → MadeWhen (next ()) representable addresses direction) :
    MadeWhen (Outcome.ofExcept (Parameter.positive name value) >>= next) representable addresses
      direction := by
  unfold Parameter.positive
  by_cases hzero : value = 0
  · rw [if_pos hzero]
    exact reported fun hrep => Word.toNat_pos_iff.mp (hneeded hrep) hzero
  · rw [if_neg hzero]
    exact hnext (Word.toNat_pos_iff.mpr hzero)

/-- It may refuse a number that does not fit if it cannot be represented then. -/
theorem exact {next : UInt64 → Outcome ParameterError (List Request)} (hx : x = Word.ofNat? n)
    (hneeded : representable → n < UInt64.size)
    (hnext : ∀ w : UInt64, w.toNat = n → MadeWhen (next w) representable addresses direction) :
    MadeWhen (Outcome.ofExcept (Parameter.exact name x) >>= next) representable addresses
      direction := by
  rw [hx, Parameter.exact_ofNat?]
  by_cases hfits : UInt64.size ≤ n
  · rw [if_pos hfits]
    exact reported fun hrep => Nat.not_le.mpr (hneeded hrep) hfits
  · rw [if_neg hfits]
    exact hnext _ (UInt64.toNat_ofNat_of_lt' (Nat.lt_of_not_le hfits))

/-- It may refuse more requests than are ever generated. -/
theorem counted {next : Nat → Outcome ParameterError (List Request)} (hx : x = Word.ofNat? n)
    (hneeded : representable → n ≤ maxRequests)
    (hnext : n ≤ maxRequests → MadeWhen (next n) representable addresses direction) :
    MadeWhen (Outcome.ofExcept (Parameter.requestCount name x) >>= next) representable addresses
      direction := by
  cases hcount : Parameter.requestCount name x with
  | ok m =>
    obtain ⟨⟨w, hw, hm⟩, hlimit⟩ := Parameter.requestCount_eq_ok_iff.mp hcount
    obtain rfl : m = n := by rw [← hm, Word.ofNat?_eq_some_iff.mp (hx.symm.trans hw)]
    exact hnext hlimit
  | error e =>
    refine reported fun hrep => ?_
    have hlimit := hneeded hrep
    have hn : n < UInt64.size := Nat.lt_of_le_of_lt hlimit (by decide)
    have hok : Parameter.requestCount name x = .ok n :=
      Parameter.requestCount_eq_ok_iff.mpr ⟨hx ▸ Word.yields_ofNat? hn, hlimit⟩
    cases hcount.symm.trans hok

/-- What it computes without a check has to fit. -/
theorem evaluated {next : UInt64 → Outcome ParameterError (List Request)} (hx : Word.Yields x n)
    (hnext : ∀ w : UInt64, w.toNat = n → MadeWhen (next w) representable addresses direction) :
    MadeWhen (Outcome.ofChecked x >>= next) representable addresses direction := by
  obtain ⟨w, rfl, hw⟩ := hx
  exact hnext w hw

/-- After its checks every address has to be exact. -/
theorem along {ι : Type} {indices : List ι} {formula : ι → Checked UInt64} {exact : ι → Nat}
    (hrep : representable) (hexact : ∀ i ∈ indices, Word.Yields (formula i) (exact i)) :
    MadeWhen (Outcome.ofChecked (Pattern.along indices formula direction)) representable
      (indices.map exact) direction := by
  have hfits : ∀ i ∈ indices, exact i < UInt64.size := by
    intro i hi
    obtain ⟨w, -, hw⟩ := hexact i hi
    rw [← hw]
    exact w.toNat_lt
  rw [along_eq_some hexact]
  refine ⟨⟨fun _ => hrep, fun _ => ⟨_, rfl⟩⟩, fun trace htrace => ?_, nofun⟩
  obtain rfl := Except.ok.inj htrace
  exact freshAt_map hfits

end MadeWhen

/-! ### The three patterns -/

variable {start step : UInt64} {i n : Nat} {direction : Direction}

/-- Without requests there is no last address, and the start fits anyway. -/
theorem eq_zero_or_fits_iff (start : UInt64) {reach : Nat} (h : n = 0 → reach = 0) :
    n = 0 ∨ start.toNat + reach < UInt64.size ↔ start.toNat + reach < UInt64.size := by
  constructor
  · rintro (hzero | hfits)
    · rw [h hzero]
      exact start.toNat_lt
    · exact hfits
  · exact .inr

/-- No index of a loop leads further than the last one. -/
theorem mul_le_mul_last (hi : i < n) (step : Nat) : i * step ≤ (n - 1) * step :=
  Nat.mul_le_mul_right _ (Nat.le_sub_one_of_lt hi)

theorem lt_size_of_few (hi : i < n) (hfew : n ≤ maxRequests) : i < UInt64.size :=
  Nat.lt_of_lt_of_le hi (Nat.le_trans hfew (by decide))

theorem linearAddress_yields (hi : i < UInt64.size)
    (hfits : start.toNat + i * step.toNat < UInt64.size) :
    Word.Yields (linearAddress start step i) (start.toNat + i * step.toNat) := by
  unfold linearAddress
  rw [← bind_assoc]
  refine (Word.yields_multiple hi rfl (by omega)).bind fun offset hoffset => ?_
  exact Word.yields_add? rfl hoffset hfits

theorem yields_power {exponent : Nat} (h : exponent < 64) :
    Word.Yields (Word.shiftLeft? 1 exponent) (2 ^ exponent) := by
  have hfits : 1 * 2 ^ exponent < UInt64.size := by
    rw [Nat.one_mul]
    exact Nat.pow_lt_pow_right (by decide) h
  rw [← Nat.one_mul (2 ^ exponent)]
  exact Word.yields_shiftLeft? h rfl hfits

theorem scale?_wordShift (a : UInt64) : Word.scale? a wordShift = Word.ofNat? (32 * a.toNat) := by
  rw [Word.scale?_eq (by decide), Nat.mul_comm]
  rfl

/-- The shift by five bits loses none where the address fits. -/
theorem stridedAddress_yields (hi : i < UInt64.size)
    (hfits : start.toNat + 32 * (i * step.toNat) < UInt64.size) :
    Word.Yields (stridedAddress start step i) (start.toNat + 32 * (i * step.toNat)) := by
  have hscaled : 32 * (i * step.toNat) = i * step.toNat * 2 ^ wordShift := Nat.mul_comm ..
  unfold stridedAddress
  rw [← bind_assoc]
  refine (Word.yields_multiple hi rfl (by omega)).bind fun word hword => ?_
  rw [hscaled] at hfits ⊢
  refine (Word.yields_shiftLeft? (by decide) hword (by omega)).bind fun offset hoffset => ?_
  exact Word.yields_add? rfl hoffset hfits

/-- The index is computed in full before it is multiplied, also by zero. -/
theorem indexedAddress_yields {elementSize : UInt64} (hi : i < UInt64.size)
    (hindex : start.toNat + i * step.toNat < UInt64.size)
    (hfits : (start.toNat + i * step.toNat) * elementSize.toNat < UInt64.size) :
    Word.Yields (indexedAddress start step elementSize i)
      ((start.toNat + i * step.toNat) * elementSize.toNat) := by
  unfold indexedAddress
  rw [← bind_assoc]
  refine (Word.yields_multiple hi rfl (by omega)).bind fun offset hoffset => ?_
  refine (Word.yields_add? rfl hoffset hindex).bind fun index hindex => ?_
  exact Word.yields_mul? hindex rfl hfits

/-- A sweep has as many requests as bursts fit into its bytes, and the last one ends inside them. -/
theorem sequential_made (start numElements elementSize burstSize : UInt64) (direction : Direction)
    (hn : numElements.toNat * elementSize.toNat / burstSize.toNat = n) :
    MadeWhen (sequential start numElements elementSize burstSize direction)
      (0 < burstSize.toNat ∧ numElements.toNat * elementSize.toNat < UInt64.size ∧
        n ≤ maxRequests ∧ (n = 0 ∨ start.toNat + (n - 1) * burstSize.toNat < UInt64.size))
      ((List.range n).map fun i => start.toNat + i * burstSize.toNat) direction := by
  rw [eq_zero_or_fits_iff start (by rintro rfl; exact Nat.zero_mul _)]
  refine .positive (fun h => h.1) fun hburst => ?_
  refine .exact rfl (fun h => h.2.1) fun bytes hbytes => ?_
  have hcount : (bytes / burstSize).toNat = n := by rw [UInt64.toNat_div, hbytes, hn]
  refine .counted (hcount ▸ (Word.ofNat?_toNat _).symm) (fun h => h.2.2.1) fun hfew => ?_
  -- the next product is formed without a check: the last burst starts inside the bytes
  have hinside : (n - 1) * burstSize.toNat < UInt64.size := by
    refine Nat.lt_of_le_of_lt ?_ bytes.toNat_lt
    rw [hbytes, ← Nat.le_div_iff_mul_le hburst, hn]
    exact Nat.sub_le n 1
  refine .evaluated (Word.yields_mul? (hcount ▸ toNat_lastIndex _) rfl hinside) fun reach hreach => ?_
  refine .exact rfl (fun h => hreach ▸ h.2.2.2) fun last hlast => ?_
  have hfits : start.toNat + (n - 1) * burstSize.toNat < UInt64.size := by
    rw [← hreach, ← hlast]
    exact last.toNat_lt
  refine .along ?_ ?_
  · exact ⟨hburst, hbytes ▸ bytes.toNat_lt, hfew, hfits⟩
  · intro i hi
    have hlt : i < n := List.mem_range.mp hi
    have hle := mul_le_mul_last hlt burstSize.toNat
    exact linearAddress_yields (lt_size_of_few hlt hfew) (by omega)

/-- Words have 32 bytes, so a pattern of words reaches 32 times as far as its indices. -/
theorem strided_made (start stride elements : UInt64) (direction : Direction)
    (hn : elements.toNat = n) :
    MadeWhen (strided start stride elements direction)
      (n ≤ maxRequests ∧ (n = 0 ∨ start.toNat + 32 * ((n - 1) * stride.toNat) < UInt64.size))
      ((List.range n).map fun i => start.toNat + 32 * (i * stride.toNat)) direction := by
  rw [eq_zero_or_fits_iff start (by rintro rfl; rw [Nat.zero_mul])]
  have hindex : (lastIndex elements).toNat = n - 1 := hn ▸ toNat_lastIndex elements
  refine .counted (hn ▸ (Word.ofNat?_toNat _).symm) (fun h => h.1) fun hfew => ?_
  refine .exact (n := (n - 1) * stride.toNat) (by rw [← hindex]; rfl) (fun h => by omega)
    fun lastWord hlastWord => ?_
  refine .exact (scale?_wordShift lastWord) (fun h => by omega) fun reach hreach => ?_
  refine .exact rfl (fun h => by omega) fun last hlast => ?_
  have hfits : start.toNat + 32 * ((n - 1) * stride.toNat) < UInt64.size := by
    rw [← hlastWord, ← hreach, ← hlast]
    exact last.toNat_lt
  refine .along ?_ ?_
  · exact ⟨hfew, hfits⟩
  · intro i hi
    have hlt : i < n := List.mem_range.mp hi
    have hle := mul_le_mul_last hlt stride.toNat
    exact stridedAddress_yields (lt_size_of_few hlt hfew) (by omega)

/-- The index has to fit by itself, whatever an element's size is. -/
theorem indexedStride_made (startIndex : UInt64) (strideExp : UInt32) (count elementSize : UInt64)
    (direction : Direction) (hn : count.toNat = n) {x : Nat}
    (hx : startIndex.toNat + (n - 1) * 2 ^ strideExp.toNat = x) :
    MadeWhen (indexedStride startIndex strideExp count elementSize direction)
      (strideExp.toNat < 64 ∧ n ≤ maxRequests ∧ x < UInt64.size ∧
        x * elementSize.toNat < UInt64.size)
      ((List.range n).map fun i =>
        (startIndex.toNat + i * 2 ^ strideExp.toNat) * elementSize.toNat) direction := by
  have hindex : (lastIndex count).toNat = n - 1 := hn ▸ toNat_lastIndex count
  unfold indexedStride
  split
  · next hwide => exact .reported fun h => Nat.not_lt.mpr hwide h.1
  next hwide =>
  have hexp : strideExp.toNat < 64 := Nat.lt_of_not_le hwide
  refine .evaluated (yields_power hexp) fun stride hstride => ?_
  refine .counted (hn ▸ (Word.ofNat?_toNat _).symm) (fun h => h.2.1) fun hfew => ?_
  refine .exact (n := x) (by rw [Word.mul?_bind_add?, hindex, hstride, hx]) (fun h => h.2.2.1)
    fun last hlast => ?_
  refine .exact (n := x * elementSize.toNat) (by rw [← hlast]; rfl) (fun h => h.2.2.2)
    fun top htop => ?_
  have hfits : x < UInt64.size := hlast ▸ last.toNat_lt
  have htop : x * elementSize.toNat < UInt64.size := htop ▸ top.toNat_lt
  rw [← hstride] at hx ⊢
  refine .along ?_ ?_
  · exact ⟨hexp, hfew, hfits, htop⟩
  · intro i hi
    have hlt : i < n := List.mem_range.mp hi
    have hle := mul_le_mul_last hlt stride.toNat
    refine indexedAddress_yields (lt_size_of_few hlt hfew) (by omega) ?_
    exact Nat.lt_of_le_of_lt (Nat.mul_le_mul_right _ (by omega)) htop

/-- **A linear pattern is made if and only if it can be represented**, that is if its size and its
last address fit. It then has the addresses of its formula in exact numbers, in order of the index;
otherwise the parameter to blame is reported, and in no case does a number leave 64 bits unnoticed. -/
theorem linear_patterns_made (direction : Direction) :
    (∀ start numElements elementSize burstSize : UInt64,
      let bytes := numElements.toNat * elementSize.toNat
      let n := bytes / burstSize.toNat
      MadeWhen (sequential start numElements elementSize burstSize direction)
        (0 < burstSize.toNat ∧ bytes < UInt64.size ∧ n ≤ maxRequests ∧
          (n = 0 ∨ start.toNat + (n - 1) * burstSize.toNat < UInt64.size))
        ((List.range n).map fun i => start.toNat + i * burstSize.toNat) direction) ∧
    (∀ start stride elements : UInt64,
      let n := elements.toNat
      MadeWhen (strided start stride elements direction)
        (n ≤ maxRequests ∧ (n = 0 ∨ start.toNat + 32 * ((n - 1) * stride.toNat) < UInt64.size))
        ((List.range n).map fun i => start.toNat + 32 * (i * stride.toNat)) direction) ∧
    ∀ (startIndex : UInt64) (strideExp : UInt32) (count elementSize : UInt64),
      let n := count.toNat
      let x := startIndex.toNat + (max n 1 - 1) * 2 ^ strideExp.toNat
      MadeWhen (indexedStride startIndex strideExp count elementSize direction)
        (strideExp.toNat < 64 ∧ n ≤ maxRequests ∧ x < UInt64.size ∧
          x * elementSize.toNat < UInt64.size)
        ((List.range n).map fun i =>
          (startIndex.toNat + i * 2 ^ strideExp.toNat) * elementSize.toNat) direction := by
  refine ⟨?_, ?_, ?_⟩
  · intro start numElements elementSize burstSize
    exact sequential_made start numElements elementSize burstSize direction rfl
  · intro start stride elements
    exact strided_made start stride elements direction rfl
  · intro startIndex strideExp count elementSize n x
    have hlast : n - 1 = max n 1 - 1 := by omega
    exact indexedStride_made startIndex strideExp count elementSize direction rfl (by rw [hlast])

/-- The last word may be the one whose address is the top bit alone. -/
example : strided 0 0x400000000000000 2 .read =
    .ok [.fresh 0 .read, .fresh 0x8000000000000000 .read] := rfl

end Pattern

end MemoryReplay
