import Mathlib.Data.List.Perm.Basic
import MemoryReplay.Distribution.Bucket

/-!
# Interleaving loses nothing

Every way of making one queue of several gives the same requests in another order.

- `mergePair_perm`, `roundRobin_perm`: the two interleavings.
- `keysOf_pairwise`, `mem_keysOf`: the keys of a list, each once.
- `groupByKey_perm`: the groups of a list are the list.
- `interleaveBanked_perm`: so is a bucket with its banks in turn.
-/

namespace MemoryReplay.Distribution

variable {α : Type}

theorem mergePair_perm (first second : List α) :
    (mergePair first second).Perm (first ++ second) := by
  fun_induction mergePair first second with
  | case1 second => exact .refl _
  | case2 a first => simp
  | case3 a first b second ih =>
    refine .cons a ?_
    exact (ih.cons b).trans List.perm_middle.symm

/-! ### Rounds -/

theorem longest_le_iff {queues : List (List α)} {n : Nat} :
    longest queues ≤ n ↔ ∀ q ∈ queues, q.length ≤ n := by
  induction queues with
  | nil => simp [longest]
  | cons q rest ih =>
    show max q.length (longest rest) ≤ n ↔ _
    rw [Nat.max_le, ih, List.forall_mem_cons]

theorem length_le_longest {queues : List (List α)} {q : List α} (hq : q ∈ queues) :
    q.length ≤ longest queues :=
  longest_le_iff.mp (Nat.le_refl _) q hq

/-- Heads and tails are all there is. -/
theorem heads_append_tails_perm (queues : List (List α)) :
    (queues.filterMap List.head? ++ (queues.map List.tail).flatten).Perm queues.flatten := by
  induction queues with
  | nil => exact .refl _
  | cons q rest ih =>
    cases q with
    | nil =>
      rw [List.filterMap_cons_none List.head?_nil]
      exact ih
    | cons a q =>
      simp only [List.filterMap_cons, List.head?_cons, List.map_cons, List.tail_cons,
        List.flatten_cons, List.cons_append]
      refine .cons a ?_
      calc rest.filterMap List.head? ++ (q ++ (rest.map List.tail).flatten)
          _ |>.Perm (q ++ (rest.filterMap List.head? ++ (rest.map List.tail).flatten)) :=
            List.perm_append_comm_assoc ..
          _ |>.Perm (q ++ rest.flatten) := ih.append_left q

theorem flatten_eq_nil_of_longest {queues : List (List α)} (h : longest queues ≤ 0) :
    queues.flatten = [] := by
  rw [List.flatten_eq_nil_iff]
  intro q hq
  exact List.eq_nil_of_length_eq_zero (Nat.le_zero.mp (longest_le_iff.mp h q hq))

theorem longest_tails_le {count : Nat} {queues : List (List α)} (h : longest queues ≤ count + 1) :
    longest (queues.map List.tail) ≤ count := by
  rw [longest_le_iff]
  intro q hq
  obtain ⟨p, hp, rfl⟩ := List.mem_map.mp hq
  have := longest_le_iff.mp h p hp
  rw [List.length_tail]
  omega

theorem rounds_perm {count : Nat} {queues : List (List α)} (h : longest queues ≤ count) :
    (rounds count queues).Perm queues.flatten := by
  induction count generalizing queues with
  | zero =>
    -- no rounds are needed only if every queue is empty
    rw [flatten_eq_nil_of_longest h]
    exact .refl _
  | succ count ih =>
    exact ((ih (longest_tails_le h)).append_left _).trans (heads_append_tails_perm queues)

theorem roundRobin_perm (queues : List (List α)) : (roundRobin queues).Perm queues.flatten :=
  rounds_perm (Nat.le_refl _)

/-! ### Groups -/

theorem mem_insertKey {key x : Nat} {keys : List Nat} :
    x ∈ insertKey key keys ↔ x = key ∨ x ∈ keys := by
  induction keys with
  | nil => simp [insertKey]
  | cons k rest ih =>
    unfold insertKey
    split
    · simp
    · split
      · next heq => simp [heq]
      · simp only [List.mem_cons, ih]
        tauto

theorem insertKey_pairwise {key : Nat} {keys : List Nat} (h : keys.Pairwise (· < ·)) :
    (insertKey key keys).Pairwise (· < ·) := by
  induction keys with
  | nil => exact List.pairwise_singleton ..
  | cons k rest ih =>
    obtain ⟨hk, hrest⟩ := List.pairwise_cons.mp h
    unfold insertKey
    split
    · next hlt =>
      refine List.pairwise_cons.mpr ⟨fun x hx => ?_, h⟩
      rcases List.mem_cons.mp hx with rfl | hx
      · exact hlt
      · exact Nat.lt_trans hlt (hk x hx)
    · split
      · exact h
      · refine List.pairwise_cons.mpr ⟨fun x hx => ?_, ih hrest⟩
        rcases mem_insertKey.mp hx with rfl | hx
        · omega
        · exact hk x hx

theorem mem_keysOf {x : Nat} {keys : List Nat} : x ∈ keysOf keys ↔ x ∈ keys := by
  induction keys with
  | nil => simp [keysOf]
  | cons k rest ih =>
    show x ∈ insertKey k (keysOf rest) ↔ _
    rw [mem_insertKey, ih, List.mem_cons]

theorem keysOf_pairwise (keys : List Nat) : (keysOf keys).Pairwise (· < ·) := by
  induction keys with
  | nil => exact .nil
  | cons k rest ih => exact insertKey_pairwise ih

/-- The items under some keys, each key once, are the items. -/
theorem withKey_flatten_perm {keys : List Nat} (hnodup : keys.Nodup) :
    ∀ {items : List (Nat × α)}, (∀ p ∈ items, p.1 ∈ keys) →
      ((keys.map fun key => withKey key items).flatten).Perm (items.map Prod.snd) := by
  induction keys with
  | nil =>
    intro items hall
    have hnil : items = [] := List.eq_nil_iff_forall_not_mem.mpr fun p hp => by
      simpa using hall p hp
    rw [hnil]
    exact .refl _
  | cons key rest ih =>
    intro items hall
    obtain ⟨hkey, hrest⟩ := List.nodup_cons.mp hnodup
    let others := items.filter fun p => !(p.1 == key)
    have hothers : ∀ p ∈ others, p.1 ∈ rest := by
      intro p hp
      obtain ⟨hp, hne⟩ := List.mem_filter.mp hp
      rcases List.mem_cons.mp (hall p hp) with heq | hmem
      · simp [heq] at hne
      · exact hmem
    -- the other keys find among the others what they find among all
    have hsame : (rest.map fun k => withKey k items) = rest.map fun k => withKey k others := by
      refine List.map_congr_left fun k hk => ?_
      have hne : k ≠ key := fun e => hkey (e ▸ hk)
      show (items.filter _).map _ = ((items.filter _).filter _).map _
      rw [List.filter_filter]
      congr 1
      refine List.filter_congr fun p _ => ?_
      by_cases hp : p.1 = k <;> simp [hp, hne]
    have hsplit := (List.filter_append_perm (fun p : Nat × α => p.1 == key) items).map Prod.snd
    rw [List.map_append] at hsplit
    rw [List.map_cons, List.flatten_cons, hsame]
    exact ((ih hrest hothers).append_left _).trans hsplit

theorem groupByKey_perm (items : List (Nat × α)) :
    (((groupByKey items).map Prod.snd).flatten).Perm (items.map Prod.snd) := by
  unfold groupByKey
  rw [List.map_map]
  refine withKey_flatten_perm ((keysOf_pairwise _).imp fun h => Nat.ne_of_lt h) fun p hp => ?_
  exact mem_keysOf.mpr (List.mem_map_of_mem hp)

theorem sortByAddress_perm (bucket : List Request) : (sortByAddress bucket).Perm bucket :=
  List.mergeSort_perm ..

theorem interleaveBanked_perm (banked : List (Nat × Request)) :
    (interleaveBanked banked).Perm (banked.map Prod.snd) := by
  let banks := (groupByKey banked).map fun p => (p.1 / banksPerGroup, sortByAddress p.2)
  -- inside each group the banks are interleaved, and inside each bank the requests are sorted
  have hgroups : ((groupByKey banks).map fun p => roundRobin p.2).flatten.Perm
      ((groupByKey banks).map Prod.snd).flatten.flatten := by
    rw [← List.flatMap_def, List.flatten_flatten, List.map_map, ← List.flatMap_def]
    exact List.Perm.flatMap_left _ fun p _ => roundRobin_perm p.2
  have hbuckets : (banks.map Prod.snd).flatten.Perm ((groupByKey banked).map Prod.snd).flatten := by
    rw [List.map_map, ← List.flatMap_def, ← List.flatMap_def]
    exact List.Perm.flatMap_left _ fun p _ => sortByAddress_perm p.2
  calc interleaveBanked banked
      _ = roundRobin ((groupByKey banks).map fun p => roundRobin p.2) := rfl
      _ |>.Perm ((groupByKey banks).map fun p => roundRobin p.2).flatten := roundRobin_perm _
      _ |>.Perm ((groupByKey banks).map Prod.snd).flatten.flatten := hgroups
      _ |>.Perm (banks.map Prod.snd).flatten := (groupByKey_perm banks).flatten
      _ |>.Perm ((groupByKey banked).map Prod.snd).flatten := hbuckets
      _ |>.Perm (banked.map Prod.snd) := groupByKey_perm banked

end MemoryReplay.Distribution
