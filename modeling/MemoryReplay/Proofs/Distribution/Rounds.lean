import Mathlib.Data.List.Sort
import MemoryReplay.Proofs.Distribution.Stability

/-!
# Rounds over queues

An interleaving goes over its queues round by round, and in every round each queue that still holds
something gives its head. Items whose label is the key of their queue show the rounds: in round `i`
come the keys of the queues with more than `i` items, in the order of the queues.

- `roundRobin_eq`: a round, and the rounds over what it leaves. `roundRobin_skip`,
  `roundRobin_singleton`: queues that are empty, and a queue alone.
- `mergePair_eq_roundRobin`: two queues in turn are the rounds over these two.
- `filter_roundRobin`: the items of one queue come in its order.
- `InRounds`: labels that come round by round, in each round in ascending order.
  `inRounds_roundRobin`: so do those of an interleaving.
- `Switching`: labels that change as long as they can. `InRounds.switching`: labels in rounds do.
-/

namespace MemoryReplay.Distribution

section

variable {α : Type} {queues : List (List α)} {count count' : Nat}

/-! ### The loop over the rounds -/

theorem rounds_of_empty (h : longest queues ≤ 0) : rounds count queues = [] := by
  have hnone := rounds_perm (Nat.le_trans h (Nat.zero_le count))
  rw [flatten_eq_nil_of_longest h] at hnone
  exact hnone.eq_nil

/-- Rounds after the last item give nothing. -/
theorem rounds_congr (h : longest queues ≤ count) (h' : longest queues ≤ count') :
    rounds count queues = rounds count' queues := by
  induction count generalizing queues count' with
  | zero => rw [rounds_of_empty h, rounds_of_empty h]
  | succ count ih =>
    cases count' with
    | zero => rw [rounds_of_empty h', rounds_of_empty h']
    | succ count' => exact congrArg _ (ih (longest_tails_le h) (longest_tails_le h'))

theorem rounds_eq_roundRobin (h : longest queues ≤ count) : rounds count queues = roundRobin queues :=
  rounds_congr h (Nat.le_refl _)

/-- One round, and then the rounds over what it leaves. -/
theorem roundRobin_eq (queues : List (List α)) :
    roundRobin queues = queues.filterMap List.head? ++ roundRobin (queues.map List.tail) := by
  rw [← rounds_eq_roundRobin (Nat.le_succ (longest queues)), rounds,
    rounds_eq_roundRobin (longest_tails_le (Nat.le_succ _))]

/-- A queue that is empty takes no part. -/
theorem rounds_skip (before after : List (List α)) :
    rounds count (before ++ [] :: after) = rounds count (before ++ after) := by
  induction count generalizing before after with
  | zero => rfl
  | succ count ih =>
    simp only [rounds, List.filterMap_append, List.filterMap_cons, List.head?_nil,
      List.map_append, List.map_cons, List.tail_nil, ih]

theorem roundRobin_skip (before after : List (List α)) :
    roundRobin (before ++ [] :: after) = roundRobin (before ++ after) := by
  have hlongest : longest (before ++ after) ≤ longest (before ++ [] :: after) := by
    rw [longest_le_iff]
    intro q hq
    refine length_le_longest (List.mem_append.mpr ?_)
    exact (List.mem_append.mp hq).imp_right (List.mem_cons_of_mem _)
  exact (rounds_skip before after).trans (rounds_eq_roundRobin hlongest)

theorem roundRobin_singleton (q : List α) : roundRobin [q] = q := by
  induction q with
  | nil => rfl
  | cons a rest ih =>
    rw [roundRobin_eq]
    exact congrArg _ ih

/-- Two queues in turn are the rounds over these two queues. -/
theorem mergePair_eq_roundRobin (first second : List α) :
    mergePair first second = roundRobin [first, second] := by
  fun_induction mergePair first second with
  | case1 second => exact ((roundRobin_skip [] [second]).trans (roundRobin_singleton second)).symm
  | case2 a first => exact ((roundRobin_skip [a :: first] []).trans (roundRobin_singleton _)).symm
  | case3 a first b second ih =>
    rw [roundRobin_eq, ih]
    rfl

end

/-! ### Items with the key of their queue -/

section

variable {α : Type} {keys : List Nat} {queue : Nat → List α} {label : α → Nat} {count key : Nat}

theorem filter_rounds {p : α → Bool} {keep : Nat → Bool}
    (h : ∀ key ∈ keys, ∀ a ∈ queue key, p a = keep key) :
    (rounds count (keys.map queue)).filter p = rounds count ((keys.filter keep).map queue) := by
  induction count generalizing queue with
  | zero => rfl
  | succ count ih =>
    have hheads : ((keys.map queue).filterMap List.head?).filter p =
        ((keys.filter keep).map queue).filterMap List.head? := by
      rw [List.filterMap_map, List.filterMap_map, List.filter_filterMap, List.filterMap_filter]
      refine List.filterMap_congr fun key hkey => ?_
      cases hqueue : queue key with
      | nil => simp [hqueue]
      | cons a rest =>
        have ha := h key hkey a (hqueue ▸ List.mem_cons_self)
        simp [hqueue, Option.filter, ha]
    have htails : (rounds count (keys.map fun key => (queue key).tail)).filter p =
        rounds count ((keys.filter keep).map fun key => (queue key).tail) :=
      ih fun key hkey a ha => h key hkey a (List.mem_of_mem_tail ha)
    rw [rounds, rounds, List.filter_append, hheads, List.map_map, List.map_map]
    exact congrArg _ htails

variable (hlabel : ∀ key ∈ keys, ∀ a ∈ queue key, label a = key)

include hlabel

/-- The items of one queue come in its order. -/
theorem filter_roundRobin (hkeys : keys.Nodup) (hkey : key ∈ keys) :
    (roundRobin (keys.map queue)).filter (fun a => label a = key) = queue key := by
  have hone : keys.filter (fun k => k = key) = [key] := by
    rw [List.filter_eq, List.count_eq_one_of_mem hkeys hkey]
    rfl
  have hkept : (roundRobin (keys.map queue)).filter (fun a => label a = key) =
      rounds (longest (keys.map queue)) ((keys.filter fun k => k = key).map queue) :=
    filter_rounds fun k hk a ha => by rw [hlabel k hk a ha]
  rw [hkept, hone]
  refine (rounds_eq_roundRobin ?_).trans (roundRobin_singleton _)
  rw [longest_le_iff]
  intro q hq
  obtain rfl := List.mem_singleton.mp hq
  exact length_le_longest (List.mem_map_of_mem hkey)

/-- In round `i` come the keys of the queues with more than `i` items. -/
theorem map_rounds : (rounds count (keys.map queue)).map label =
    (List.range count).flatMap fun i => keys.filter fun key => i < (queue key).length := by
  induction count generalizing queue with
  | zero => rfl
  | succ count ih =>
    have hheads : ((keys.map queue).filterMap List.head?).map label =
        keys.filter fun key => 0 < (queue key).length := by
      rw [List.filterMap_map, List.map_filterMap, ← List.filterMap_eq_filter]
      refine List.filterMap_congr fun key hkey => ?_
      cases hqueue : queue key with
      | nil => simp [hqueue, Option.guard]
      | cons a rest =>
        have ha := hlabel key hkey a (hqueue ▸ List.mem_cons_self)
        simp [hqueue, Option.guard, ha]
    have htails : (rounds count (keys.map fun key => (queue key).tail)).map label =
        (List.range count).flatMap fun i => keys.filter fun key => i < (queue key).tail.length :=
      ih fun key hkey a ha => hlabel key hkey a (List.mem_of_mem_tail ha)
    simp only [List.length_tail, Nat.lt_sub_iff_add_lt] at htails
    rw [rounds, List.map_append, hheads, List.map_map, List.range_succ_eq_map, List.flatMap_cons,
      List.flatMap_map]
    exact congrArg _ htails

end

/-! ### Labels in rounds -/

/-- The rounds of some labels: round `i` has all that come more than `i` times, in ascending order. -/
def roundsOf (labels : List Nat) : List (List Nat) :=
  (List.range labels.length).map fun i => (keysOf labels).filter fun key => i < labels.count key

/-- The labels come round by round. -/
def InRounds (labels : List Nat) : Prop := (roundsOf labels).flatten = labels

instance (labels : List Nat) : Decidable (InRounds labels) :=
  inferInstanceAs (Decidable ((roundsOf labels).flatten = labels))

/-- **An interleaving goes round by round**, if the labels of its queues ascend. -/
theorem inRounds_roundRobin {α : Type} {keys : List Nat} {queue : Nat → List α} {label : α → Nat}
    (hlabel : ∀ key ∈ keys, ∀ a ∈ queue key, label a = key) (hkeys : keys.Pairwise (· < ·))
    (hsome : ∀ key ∈ keys, queue key ≠ []) :
    InRounds ((roundRobin (keys.map queue)).map label) := by
  let labels := (roundRobin (keys.map queue)).map label
  have hnodup : keys.Nodup := hkeys.imp fun h => Nat.ne_of_lt h
  have hcount : ∀ key ∈ keys, labels.count key = (queue key).length := by
    intro key hkey
    rw [← filter_roundRobin hlabel hnodup hkey, ← List.countP_eq_length_filter, List.count,
      List.countP_map]
    rfl
  have hkeysOf : keysOf labels = keys := by
    refine (keysOf_pairwise labels).eq_of_mem_iff hkeys fun key => mem_keysOf.trans ⟨?_, ?_⟩
    · intro hkey
      obtain ⟨a, ha, rfl⟩ := List.mem_map.mp hkey
      obtain ⟨q, hq, ha⟩ := mem_roundRobin ha
      obtain ⟨key, hkey, rfl⟩ := List.mem_map.mp hq
      rwa [hlabel key hkey a ha]
    · intro hkey
      rw [← List.count_pos_iff, hcount key hkey]
      exact List.length_pos_of_ne_nil (hsome key hkey)
  have hlongest : longest (keys.map queue) ≤ labels.length := by
    rw [longest_le_iff, List.length_map]
    exact fun q hq => (sublist_roundRobin hq).length_le
  calc (roundsOf labels).flatten
      _ = (List.range labels.length).flatMap fun i =>
            keys.filter fun key => i < (queue key).length := by
        rw [roundsOf, hkeysOf, ← List.flatMap_def]
        refine List.flatMap_congr fun i _ => List.filter_congr fun key hkey => ?_
        rw [hcount key hkey]
      _ = (rounds labels.length (keys.map queue)).map label := (map_rounds hlabel).symm
      _ = labels := by rw [rounds_eq_roundRobin hlongest]

/-- A label comes twice in a row only if no other label is left. -/
def Switching (labels : List Nat) : Prop :=
  ∀ before label after, labels = before ++ label :: label :: after → ∀ other ∈ after, other = label

section

variable {rounds : List (List Nat)} {first : Nat} {after : List Nat}
  (hascending : ∀ round ∈ rounds, round.Pairwise (· < ·))
  (hfewer : rounds.Pairwise fun earlier later => later ⊆ earlier)

include hascending hfewer

/-- The first label of all rounds is the least one. -/
theorem first_le_of_rounds (h : rounds.flatten = first :: after) : ∀ other ∈ after, first ≤ other := by
  induction rounds with
  | nil => cases h
  | cons round rest ih =>
    obtain ⟨hround, hrest⟩ := List.forall_mem_cons.mp hascending
    obtain ⟨hsubset, hfewerLater⟩ := List.pairwise_cons.mp hfewer
    cases round with
    | nil => exact ih hrest hfewerLater h
    | cons label round =>
      obtain ⟨rfl, rfl⟩ := List.cons.inj h
      have hle : ∀ other ∈ label :: round, label ≤ other := by
        intro other hother
        rcases List.mem_cons.mp hother with rfl | hother
        · exact Nat.le_refl _
        · exact Nat.le_of_lt ((List.pairwise_cons.mp hround).1 other hother)
      intro other hother
      rcases List.mem_append.mp hother with hother | hother
      · exact hle other (List.mem_cons_of_mem _ hother)
      · obtain ⟨later, hlater, hother⟩ := List.mem_flatten.mp hother
        exact hle other (hsubset later hlater hother)

/-- A label that ends a round and starts the next one is the only one that is left. -/
theorem switching_of_rounds : Switching rounds.flatten := by
  induction rounds with
  | nil =>
    intro before label after h
    simp at h
  | cons round rest ih =>
    obtain ⟨hround, hrest⟩ := List.forall_mem_cons.mp hascending
    obtain ⟨hsubset, hfewerLater⟩ := List.pairwise_cons.mp hfewer
    intro before label after h
    rcases List.append_eq_append_iff.mp h with ⟨middle, -, hlater⟩ | ⟨middle, rfl, hlater⟩
    · exact ih hrest hfewerLater middle label after hlater
    · match middle, hlater with
      | [], hlater => exact ih hrest hfewerLater [] label after hlater.symm
      | [_], hlater =>
        obtain ⟨rfl, hnext⟩ := List.cons.inj hlater
        intro other hother
        have hge := first_le_of_rounds hrest hfewerLater hnext.symm other hother
        obtain ⟨later, hmem, hother⟩ := List.mem_flatten.mp (hnext ▸ List.mem_cons_of_mem _ hother)
        -- the label is the last one of the round, and all others have been in this round
        rcases List.mem_append.mp (hsubset later hmem hother) with hother | hother
        · have hlt := (List.pairwise_append.mp hround).2.2 other hother label List.mem_cons_self
          omega
        · exact List.mem_singleton.mp hother
      | _ :: _ :: _, hlater =>
        obtain ⟨rfl, hnext⟩ := List.cons.inj hlater
        obtain ⟨rfl, -⟩ := List.cons.inj hnext
        obtain ⟨-, htwice, -⟩ := List.pairwise_append.mp hround
        exact absurd ((List.pairwise_cons.mp htwice).1 label List.mem_cons_self) (Nat.lt_irrefl _)

end

/-- **Labels in rounds change as long as they can.** -/
theorem InRounds.switching {labels : List Nat} (h : InRounds labels) : Switching labels := by
  rw [← h]
  refine switching_of_rounds ?_ ?_
  · intro round hround
    obtain ⟨i, -, rfl⟩ := List.mem_map.mp hround
    exact (keysOf_pairwise labels).filter _
  · refine List.pairwise_map.mpr (List.pairwise_lt_range.imp fun {i j} hij key hkey => ?_)
    simp only [List.mem_filter, decide_eq_true_eq] at hkey ⊢
    exact ⟨hkey.1, Nat.lt_trans hij hkey.2⟩

/-- The third queue is served three times, the second one once. -/
example : InRounds [0, 1, 3, 0, 3, 3] ∧ ¬ InRounds [0, 1, 0, 3, 3, 3] := by decide

end MemoryReplay.Distribution
