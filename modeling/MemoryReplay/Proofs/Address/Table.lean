import Mathlib.Data.List.Perm.Subperm
import Mathlib.Order.Bounds.Basic
import MemoryReplay.Proofs.Address.Permutation

/-!
# Tables of bit positions

A table is read from left to right, against the entries already read. What is read so far never has
a fault, so the first entry that cannot be read is the first one that is wrong, and a table that is
read to its end is a permutation: sixty-four numbers below 64 with no repetition are all of them.

- `Faulty`: an entry that no permutation has at its place. `PermutationError.Describes`: what a
  reported fault says of the table.
- `perm_range_iff`: a table without a faulty entry is a permutation.
- `not_faulty_of_read`, `describes_of_readOnto`: the table while it is read.
- `ofList?_eq_ok_iff`, `describes_of_ofList?`, `describes_unique`: the two outcomes.
- `first_fault_reported`: tables are accepted exactly if they are permutations, and else refused for
  their first fault.
-/

namespace MemoryReplay

namespace BitPermutation

/-- An entry that names no bit, or a bit that an earlier entry names. -/
def Faulty (entries : List Nat) (position : Nat) : Prop :=
  ∃ entry, entries[position]? = some entry ∧
    (64 ≤ entry ∨ ∃ earlier < position, entries[earlier]? = some entry)

end BitPermutation

open BitPermutation

/-- What a reported fault says of the table: it has the wrong length, or the right one and a faulty
entry, none before it being faulty. An entry named twice is named at one earlier position. -/
def PermutationError.Describes (entries : List Nat) : PermutationError → Prop
  | length found => entries.length = found ∧ found ≠ 64
  | outOfRange position target => entries.length = 64 ∧
      IsLeast {p | Faulty entries p} position ∧ entries[position]? = some target ∧ 64 ≤ target
  | duplicate first second target => entries.length = 64 ∧
      IsLeast {p | Faulty entries p} second ∧ entries[second]? = some target ∧
      ∀ earlier, earlier < second ∧ entries[earlier]? = some target ↔ earlier = first

namespace BitPermutation

variable {entries : List Nat} {seen : List (Fin 64)} {rest : List Nat} {e e' : PermutationError}
  {position : Nat}

/-! ### Permutations are the tables without a faulty entry -/

/-- An entry of a permutation is in range and differs from all others. -/
theorem not_faulty_of_perm (h : entries.Perm (List.range 64)) : ¬ Faulty entries position := by
  have hnodup : entries.Nodup := h.nodup_iff.mpr List.nodup_range
  rintro ⟨entry, hentry, hlarge | ⟨earlier, hlt, hsame⟩⟩
  · have hmem : entry ∈ List.range 64 := h.mem_iff.mp (List.mem_of_getElem? hentry)
    exact absurd (List.mem_range.mp hmem) (Nat.not_lt.mpr hlarge)
  · obtain ⟨hinside, -⟩ := List.getElem?_eq_some_iff.mp hsame
    have heq := (List.getElem?_inj hinside hnodup).mp (hsame.trans hentry.symm)
    exact absurd heq (Nat.ne_of_lt hlt)

/-- Sixty-four entries that are in range and differ from one another are all there are. -/
theorem perm_range_iff (hlong : entries.length = 64) :
    entries.Perm (List.range 64) ↔ ∀ position, ¬ Faulty entries position := by
  refine ⟨fun h _ => not_faulty_of_perm h, fun h => ?_⟩
  have hsubset : entries ⊆ List.range 64 := by
    intro entry hmem
    obtain ⟨position, hentry⟩ := List.mem_iff_getElem?.mp hmem
    by_contra hlarge
    exact h position ⟨entry, hentry, .inl (Nat.le_of_not_lt (mt List.mem_range.mpr hlarge))⟩
  have hnodup : entries.Nodup := by
    refine List.nodup_iff_getElem?_ne_getElem?.mpr fun i j hlt hj hsame => ?_
    have hentry : entries[j]? = some entries[j] := List.getElem?_eq_getElem hj
    exact h j ⟨entries[j], hentry, .inr ⟨i, hlt, hsame.trans hentry⟩⟩
  refine (hnodup.subperm hsubset).perm_of_length_le ?_
  rw [List.length_range, hlong]

/-! ### A table while it is read -/

theorem getElem?_read (hread : position < seen.length) :
    (seen.map Fin.val ++ rest)[position]? = seen[position]?.map Fin.val := by
  rw [List.getElem?_append_left (by rwa [List.length_map]), List.getElem?_map]

theorem getElem?_next {entry : Nat} :
    (seen.map Fin.val ++ entry :: rest)[seen.length]? = some entry := by
  rw [List.getElem?_append_right (by rw [List.length_map]), List.length_map, Nat.sub_self]
  rfl

/-- No entry that has been read is faulty. -/
theorem not_faulty_of_read (hseen : seen.Nodup) (hread : position < seen.length) :
    ¬ Faulty (seen.map Fin.val ++ rest) position := by
  rintro ⟨entry, hentry, h⟩
  rw [getElem?_read hread] at hentry
  obtain ⟨bit, hbit, rfl⟩ := Option.map_eq_some_iff.mp hentry
  rcases h with hlarge | ⟨earlier, hlt, hsame⟩
  · exact absurd bit.isLt (Nat.not_lt.mpr hlarge)
  · rw [getElem?_read (Nat.lt_trans hlt hread)] at hsame
    obtain ⟨other, hother, hval⟩ := Option.map_eq_some_iff.mp hsame
    obtain rfl : other = bit := Fin.ext hval
    have heq := (List.getElem?_inj hread hseen).mp (hbit.trans hother.symm)
    exact absurd heq (Nat.ne_of_gt hlt)

/-- So if the next entry is faulty, it is the first such entry. -/
theorem isLeast_of_read (hseen : seen.Nodup)
    (h : Faulty (seen.map Fin.val ++ rest) seen.length) :
    IsLeast {p | Faulty (seen.map Fin.val ++ rest) p} seen.length :=
  ⟨h, fun _ hfaulty => Nat.le_of_not_lt fun hlt => not_faulty_of_read hseen hlt hfaulty⟩

/-- A bit that has been read was named at one position. -/
theorem named_iff {bit : Fin 64} {first : Nat} (hseen : seen.Nodup)
    (hfirst : seen.idxOf? bit = some first) (earlier : Nat) :
    earlier < seen.length ∧ (seen.map Fin.val ++ rest)[earlier]? = some bit.val ↔
      earlier = first := by
  obtain ⟨hlt, hbit, -⟩ := List.idxOf?_eq_some_iff.mp hfirst
  have hnamed : (seen.map Fin.val ++ rest)[first]? = some bit.val := by
    rw [getElem?_read hlt, List.getElem?_eq_getElem hlt, hbit]
    rfl
  constructor
  · rintro ⟨hread, hsame⟩
    rw [getElem?_read hread] at hsame
    obtain ⟨other, hother, hval⟩ := Option.map_eq_some_iff.mp hsame
    obtain rfl : other = bit := Fin.ext hval
    refine (List.getElem?_inj hread hseen).mp (hother.trans ?_)
    rw [List.getElem?_eq_getElem hlt, hbit]
  · rintro rfl
    exact ⟨hlt, hnamed⟩

/-- What is read are the entries. -/
theorem of_readOnto_eq_ok {result : List (Fin 64)} (h : readOnto seen rest = .ok result) :
    result.map Fin.val = seen.map Fin.val ++ rest := by
  induction rest generalizing seen with
  | nil =>
    obtain rfl := Except.ok.inj h
    exact (List.append_nil _).symm
  | cons entry rest ih =>
    unfold readOnto at h
    split at h
    · split at h
      · cases h
      · rw [ih h, List.map_append, List.append_assoc]
        rfl
    · cases h

/-- What stops the reading is the first fault of the table. -/
theorem describes_of_readOnto (hseen : seen.Nodup) (hlong : seen.length + rest.length = 64)
    (h : readOnto seen rest = .error e) : e.Describes (seen.map Fin.val ++ rest) := by
  induction rest generalizing seen with
  | nil => cases h
  | cons entry rest ih =>
    have hlength : (seen.map Fin.val ++ entry :: rest).length = 64 := by
      rw [List.length_append, List.length_map, hlong]
    unfold readOnto at h
    split at h
    · next inside =>
      split at h
      · next first hfirst =>
        -- the bit has been named before
        cases h
        have hnamed : ∀ earlier, earlier < seen.length ∧
            (seen.map Fin.val ++ entry :: rest)[earlier]? = some entry ↔ earlier = first :=
          named_iff hseen hfirst
        have hfaulty : Faulty (seen.map Fin.val ++ entry :: rest) seen.length :=
          ⟨entry, getElem?_next, .inr ⟨first, (hnamed first).mpr rfl⟩⟩
        exact ⟨hlength, isLeast_of_read hseen hfaulty, getElem?_next, hnamed⟩
      · next hfree =>
        have hfresh : (⟨entry, inside⟩ : Fin 64) ∉ seen := List.idxOf?_eq_none_iff.mp hfree
        have hnodup : (seen ++ [(⟨entry, inside⟩ : Fin 64)]).Nodup := by
          rw [← List.concat_eq_append]
          exact hseen.concat hfresh
        have hlong : (seen ++ [(⟨entry, inside⟩ : Fin 64)]).length + rest.length = 64 := by
          rw [List.length_append, List.length_singleton, Nat.add_assoc, Nat.add_comm 1]
          exact hlong
        have hnext := ih hnodup hlong h
        rwa [List.map_append, List.append_assoc] at hnext
    · next houtside =>
      cases h
      have hlarge : 64 ≤ entry := Nat.le_of_not_lt houtside
      have hfaulty : Faulty (seen.map Fin.val ++ entry :: rest) seen.length :=
        ⟨entry, getElem?_next, .inl hlarge⟩
      exact ⟨hlength, isLeast_of_read hseen hfaulty, getElem?_next, hlarge⟩

/-! ### The two outcomes -/

/-- A permutation is read from its own table and from no other. -/
theorem ofList?_eq_ok_iff {p : BitPermutation} : ofList? entries = .ok p ↔ p.toList = entries := by
  constructor
  · intro h
    unfold ofList? at h
    split at h
    · split at h
      · cases h
      · next targets hread =>
        obtain rfl := Except.ok.inj h
        exact of_readOnto_eq_ok hread
    · cases h
  · rintro rfl
    exact p.ofList?_toList

theorem length_toList (p : BitPermutation) : p.toList.length = 64 := by
  simp [toList]

/-- The table of a permutation is one of the numbers below 64. -/
theorem toList_perm (p : BitPermutation) : p.toList.Perm (List.range 64) := by
  refine (perm_range_iff p.length_toList).mpr fun position hfaulty => ?_
  have hinside : position < p.targets.toList.length := by
    obtain ⟨_, hentry, -⟩ := hfaulty
    obtain ⟨hlt, -⟩ := List.getElem?_eq_some_iff.mp hentry
    simpa [toList] using hlt
  have hread : Faulty (p.targets.toList.map Fin.val ++ []) position := by rwa [List.append_nil]
  exact not_faulty_of_read p.nodup hinside hread

theorem getElem?_toList (p : BitPermutation) (i : Fin 64) :
    p.toList[i.val]? = some (p.target i).val := by
  simp [toList, target]

/-- A table that is refused has the fault that is reported. -/
theorem describes_of_ofList? (h : ofList? entries = .error e) : e.Describes entries := by
  unfold ofList? at h
  split at h
  · next hlong =>
    split at h
    · next hread =>
      obtain rfl := Except.error.inj h
      exact describes_of_readOnto List.nodup_nil (by simpa using hlong) hread
    · cases h
  · next hlong =>
    obtain rfl := Except.error.inj h
    exact ⟨rfl, hlong⟩

/-- No fault describes a permutation. -/
theorem not_describes_of_perm (hlong : entries.length = 64) (h : entries.Perm (List.range 64)) :
    ¬ e.Describes entries := by
  intro he
  cases e with
  | length found => exact he.2 (he.1.symm.trans hlong)
  | outOfRange position target => exact not_faulty_of_perm h he.2.1.1
  | duplicate first second target => exact not_faulty_of_perm h he.2.1.1

/-- The first faulty entry has one fault only: if it is out of range and an earlier one is the same,
then that one is faulty before it. -/
theorem not_outOfRange_and_duplicate {first second target target' : Nat}
    (h : (PermutationError.outOfRange position target).Describes entries)
    (h' : (PermutationError.duplicate first second target').Describes entries) : False := by
  obtain ⟨-, hleast, hentry, hlarge⟩ := h
  obtain ⟨-, hleast', hentry', hnamed⟩ := h'
  obtain rfl := hleast.unique hleast'
  obtain rfl := Option.some.inj (hentry.symm.trans hentry')
  obtain ⟨hlt, hfirst⟩ := (hnamed first).mpr rfl
  exact absurd (hleast.2 ⟨target, hfirst, .inl hlarge⟩) (Nat.not_le.mpr hlt)

/-- One fault at most describes a table. -/
theorem describes_unique (he : e.Describes entries) (he' : e'.Describes entries) : e = e' := by
  cases e with
  | length found =>
    obtain ⟨rfl, hne⟩ := he
    cases e' with
    | length found' => rw [he'.1]
    | outOfRange position target => exact absurd he'.1 hne
    | duplicate first second target => exact absurd he'.1 hne
  | outOfRange position target =>
    cases e' with
    | length found' => exact absurd (he'.1.symm.trans he.1) he'.2
    | outOfRange position' target' =>
      obtain ⟨-, hleast, hentry, -⟩ := he
      obtain ⟨-, hleast', hentry', -⟩ := he'
      obtain rfl := hleast.unique hleast'
      rw [Option.some.inj (hentry.symm.trans hentry')]
    | duplicate first second target' => exact (not_outOfRange_and_duplicate he he').elim
  | duplicate first second target =>
    cases e' with
    | length found' => exact absurd (he'.1.symm.trans he.1) he'.2
    | outOfRange position target' => exact (not_outOfRange_and_duplicate he' he).elim
    | duplicate first' second' target' =>
      obtain ⟨-, hleast, hentry, hnamed⟩ := he
      obtain ⟨-, hleast', hentry', hnamed'⟩ := he'
      obtain rfl := hleast.unique hleast'
      obtain rfl := Option.some.inj (hentry.symm.trans hentry')
      rw [(hnamed' first).mp ((hnamed first).mpr rfl)]

/-- **A table is accepted exactly if it is a permutation of the sixty-four bits**, and each bit
then moves to the place that its entry names. Any other table is refused, for its length or else
for the first entry that names no bit or one that is taken; the one position that took it is told
as well. -/
theorem first_fault_reported (entries : List Nat) :
    ((∃ p, ofList? entries = .ok p) ↔ entries.length = 64 ∧ entries.Perm (List.range 64)) ∧
    (∀ p, ofList? entries = .ok p ↔
      entries.length = 64 ∧ ∀ i : Fin 64, entries[i.val]? = some (p.target i).val) ∧
    (∀ e, ofList? entries = .error e ↔ e.Describes entries) := by
  refine ⟨⟨?_, ?_⟩, fun p => ?_, fun e => ⟨describes_of_ofList?, fun he => ?_⟩⟩
  · rintro ⟨p, h⟩
    obtain rfl := ofList?_eq_ok_iff.mp h
    exact ⟨p.length_toList, p.toList_perm⟩
  · rintro ⟨hlong, hperm⟩
    cases hread : ofList? entries with
    | ok p => exact ⟨p, rfl⟩
    | error e =>
      exact absurd (describes_of_ofList? hread) (not_describes_of_perm hlong hperm)
  · rw [ofList?_eq_ok_iff]
    constructor
    · rintro rfl
      exact ⟨p.length_toList, p.getElem?_toList⟩
    · rintro ⟨hlong, htarget⟩
      refine List.ext_getElem? fun i => ?_
      by_cases hi : i < 64
      · rw [htarget ⟨i, hi⟩]
        exact p.getElem?_toList ⟨i, hi⟩
      · rw [List.getElem?_eq_none (p.length_toList.trans_le (Nat.le_of_not_lt hi)),
          List.getElem?_eq_none (hlong.trans_le (Nat.le_of_not_lt hi))]
  · cases hread : ofList? entries with
    | ok p =>
      obtain rfl := ofList?_eq_ok_iff.mp hread
      exact absurd he (not_describes_of_perm p.length_toList p.toList_perm)
    | error e' => rw [describes_unique (describes_of_ofList? hread) he]

/-- A repetition is reported before a later entry that is out of range. -/
example : ofList? (0 :: 0 :: List.replicate 62 64) = .error (.duplicate 0 1 0) := by decide

end BitPermutation

end MemoryReplay
