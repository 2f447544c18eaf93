import MemoryReplay.Request

/-!
# Bit permutations of addresses

A permutation of the 64 bit positions moves each bit of an address to another place, so that
channel, bank and row fields can be laid over other bits without changing which data is meant.

- `BitPermutation`: where each bit goes; no two bits go to one place.
- `BitPermutation.ofList?`: reads a table and reports the first entry that is wrong.
- `BitPermutation.inverse`: the way back.
- `BitPermutation.apply`: the permuted address. `BitPermutation.scatter` moves one set bit after the
  other; it ends because `clearLowest` makes a word smaller.
- `BitPermutation.mem_targets`: every place is reached.
-/

namespace MemoryReplay

/-- What is wrong with a table of bit positions. -/
inductive PermutationError where
  /-- The table does not have one entry for each bit. -/
  | length (found : Nat)
  /-- The entry at `position` names no bit. -/
  | outOfRange (position target : Nat)
  /-- Two entries name one bit. -/
  | duplicate (first second target : Nat)
  deriving Repr, DecidableEq

/-- The wording of a table's first fault. -/
def PermutationError.message : PermutationError → String
  | length found => s!"bit map has {found} entries, expected 64"
  | outOfRange position target =>
    s!"bit map entry {position} maps to bit {target}, which is out of range"
  | duplicate first second target =>
    s!"bit map entries {first} and {second} both map to bit {target}"

/-- A permutation of the bits of an address. -/
structure BitPermutation where
  /-- The place each bit moves to, lowest bit first. -/
  targets : Vector (Fin 64) 64
  /-- No two bits move to one place. -/
  nodup : targets.toList.Nodup
  deriving DecidableEq

namespace BitPermutation

/-- Reads the entries of a table from left to right onto those already read, up to the first one
that is out of range or taken. -/
def readOnto (seen : List (Fin 64)) : List Nat → Except PermutationError (List (Fin 64))
  | [] => .ok seen
  | entry :: rest =>
    if inside : entry < 64 then
      match seen.idxOf? ⟨entry, inside⟩ with
      | some first => .error (.duplicate first seen.length entry)
      | none => readOnto (seen ++ [⟨entry, inside⟩]) rest
    else .error (.outOfRange seen.length entry)

theorem readOnto_nodup {seen : List (Fin 64)} {entries : List Nat} {result : List (Fin 64)}
    (distinct : seen.Nodup) (h : readOnto seen entries = .ok result) :
    result.Nodup ∧ result.length = seen.length + entries.length := by
  induction entries generalizing seen with
  | nil => cases h; simp [distinct]
  | cons entry rest ih =>
    unfold readOnto at h
    split at h
    · next inside =>
      split at h
      · cases h
      · next free =>
        have fresh : (⟨entry, inside⟩ : Fin 64) ∉ seen := by simpa using free
        have := ih (by simp [List.nodup_append, distinct]; rintro a ha rfl; exact fresh ha) h
        simp only [List.length_append, List.length_cons, List.length_nil] at this ⊢
        exact ⟨this.1, by omega⟩
    · cases h

/-- The permutation a table describes, or the first fault in it. The number of entries is looked
at before any entry. -/
def ofList? (entries : List Nat) : Except PermutationError BitPermutation :=
  if long : entries.length = 64 then
    match read : readOnto [] entries with
    | .error e => .error e
    | .ok targets =>
      have good := readOnto_nodup List.nodup_nil read
      .ok ⟨⟨targets.toArray, by simpa [long] using good.2⟩, by simpa using good.1⟩
  else .error (.length entries.length)

/-- The place that bit `bit` moves to. -/
def target (p : BitPermutation) (bit : Fin 64) : Fin 64 := p.targets[bit]

/-- The places in order of the bits that move to them, as plain numbers. -/
def toList (p : BitPermutation) : List Nat := p.targets.toList.map Fin.val

theorem target_injective (p : BitPermutation) {i j : Fin 64} (h : p.target i = p.target j) :
    i = j := by
  have hi : i.val < p.targets.toList.length := by simp
  have hj : j.val < p.targets.toList.length := by simp
  have same : p.targets.toList[i.val] = p.targets.toList[j.val] := by
    simpa [target] using h
  exact Fin.ext ((List.getElem_inj p.nodup).1 same)

/-- A list without repetition of numbers below `n` has at most `n` entries. -/
theorem length_le_of_nodup {n : Nat} {l : List Nat} (nodup : l.Nodup) (small : ∀ x ∈ l, x < n) :
    l.length ≤ n := by
  induction n generalizing l with
  | zero =>
    cases l with
    | nil => simp
    | cons x l => exact absurd (small x (by simp)) (by omega)
  | succ n ih =>
    have rest := ih (l := l.erase n) (nodup.erase n) (by
      intro x hx
      have := small x (List.mem_of_mem_erase hx)
      have : x ≠ n := fun e => nodup.not_mem_erase (e ▸ hx)
      omega)
    rw [List.length_erase] at rest
    split at rest <;> omega

/-- Every place is reached: sixty-four bits that share no place fill all sixty-four. -/
theorem mem_targets (p : BitPermutation) (place : Fin 64) : place ∈ p.targets.toList := by
  rcases Decidable.em (place ∈ p.targets.toList) with h | h
  · exact h
  · have nodup : ((place :: p.targets.toList).map Fin.val).Nodup := by
      refine List.Pairwise.map _ ?_ (List.nodup_cons.2 ⟨h, p.nodup⟩)
      intro a b hab e
      exact hab (Fin.ext e)
    have := length_le_of_nodup nodup (n := 64) (by
      intro x hx
      obtain ⟨y, -, rfl⟩ := List.mem_map.1 hx
      exact y.isLt)
    simp at this

theorem idxOf_lt (p : BitPermutation) (place : Fin 64) : p.targets.toList.idxOf place < 64 := by
  simpa using List.idxOf_lt_length_of_mem (p.mem_targets place)

/-- The bit that moves to `place`. -/
def source (p : BitPermutation) (place : Fin 64) : Fin 64 :=
  ⟨p.targets.toList.idxOf place, p.idxOf_lt place⟩

@[simp] theorem target_source (p : BitPermutation) (place : Fin 64) :
    p.target (p.source place) = place := by
  have inside : p.targets.toList.idxOf place < p.targets.toList.length := by
    simpa using p.idxOf_lt place
  have found : p.targets.toList[p.targets.toList.idxOf place] = place := List.getElem_idxOf inside
  rw [Vector.getElem_toList] at found
  exact found

@[simp] theorem source_target (p : BitPermutation) (bit : Fin 64) : p.source (p.target bit) = bit :=
  p.target_injective (p.target_source _)

/-- The permutation that moves every bit back. -/
def inverse (p : BitPermutation) : BitPermutation where
  targets := Vector.ofFn p.source
  nodup := by
    rw [Vector.toList_ofFn, List.nodup_iff_pairwise_ne, List.pairwise_iff_getElem]
    intro i j hi hj lt e
    simp only [List.length_ofFn] at hi hj
    simp only [List.getElem_ofFn] at e
    have := congrArg p.target e
    simp only [target_source, Fin.mk.injEq] at this
    omega

/-- Every bit stays in its place. -/
def identity : BitPermutation where
  targets := Vector.ofFn id
  nodup := by decide

/-- Whether every bit stays in its place. -/
def isIdentity (p : BitPermutation) : Bool :=
  (List.finRange 64).all fun bit => p.target bit == bit

/-- The word with the one bit `bit` set. -/
def bitAt (bit : Fin 64) : UInt64 := 1 <<< UInt64.ofNat bit

/-- The word without its lowest set bit. -/
def clearLowest (a : UInt64) : UInt64 := a &&& (a - 1)

/-- The lowest set bit of a word that is not zero: the only one that `clearLowest` changes. -/
def lowest (a : UInt64) : Fin 64 :=
  ⟨(a ^^^ clearLowest a).toNat.log2 % 64, Nat.mod_lt _ (by decide)⟩

theorem clearLowest_lt {a : UInt64} (h : a ≠ 0) : (clearLowest a).toNat < a.toNat := by
  have hpos : 0 < a.toNat := Nat.pos_of_ne_zero fun e => h (UInt64.toNat_inj.mp e)
  have hone : (1 : UInt64) ≤ a := UInt64.le_iff_toNat_le.mpr hpos
  calc (clearLowest a).toNat
      _ = a.toNat &&& (a.toNat - 1) := by
        rw [clearLowest, UInt64.toNat_and, UInt64.toNat_sub_of_le _ _ hone]
        rfl
      _ ≤ a.toNat - 1 := Nat.and_le_right
      _ < a.toNat := Nat.sub_one_lt_of_lt hpos

/-- The set bits of `rest`, from the lowest up, each put into its new place in `out`. -/
def scatter (p : BitPermutation) (rest out : UInt64) : UInt64 :=
  if rest = 0 then out
  else p.scatter (clearLowest rest) (out ||| bitAt (p.target (lowest rest)))
termination_by rest.toNat
decreasing_by exact clearLowest_lt ‹¬rest = 0›

/-- The address whose bits are those of `a`, each in its new place. -/
def apply (p : BitPermutation) (a : UInt64) : UInt64 := p.scatter a 0

/-- The requests at their permuted addresses, as fresh requests. -/
def applyAll (p : BitPermutation) (trace : List Request) : List Request :=
  trace.map fun r => .fresh (p.apply r.address) r.direction

end BitPermutation

end MemoryReplay
