import MemoryReplay.PendingIndex

/-!
# The pending index as a family of queues

`PendingIndex.waiting` is all that the rest of the theory sees of an index: for every completion,
the slots that wait for it.

- `waiting_insert`, `waiting_complete`: what the two operations do to every queue.
- `complete_fst`: the slot taken is the head of the queue asked.
- `size_complete`: the number kept beside the queues.
- `keys`, `count_keys`: the completions that slots wait for, each as often as slots wait for it.
-/

namespace MemoryReplay

namespace PendingIndex

@[simp] theorem waiting_empty (key : Completion) : empty.waiting key = [] := by
  simp [empty, waiting]

theorem waiting_insert (index : PendingIndex) (key key' : Completion) (slot : Nat) :
    (index.insert key slot).waiting key' =
      if key = key' then index.waiting key' ++ [slot] else index.waiting key' := by
  unfold waiting insert
  rw [Std.HashMap.getElem?_insert]
  by_cases h : key = key'
  · subst h
    simp [waiting]
  · simp [h]

/-- With no slot waiting, the index stays as it is. -/
theorem complete_of_nil {index : PendingIndex} {key : Completion}
    (h : index.waiting key = []) : index.complete key = (none, index) := by
  simp [complete, h]

theorem complete_fst (index : PendingIndex) (key : Completion) :
    (index.complete key).1 = (index.waiting key).head? := by
  unfold complete
  split <;> simp [*]

theorem waiting_complete (index : PendingIndex) (key key' : Completion) :
    (index.complete key).2.waiting key' =
      if key = key' then (index.waiting key').tail else index.waiting key' := by
  unfold complete
  split
  · next h =>
    by_cases hk : key = key'
    · subst hk
      simp [h]
    · simp [hk]
  · next slot h =>
    -- the last slot of a queue goes with the queue
    show (index.queues.erase key)[key']?.getD [] = _
    rw [Std.HashMap.getElem?_erase]
    by_cases hk : key = key'
    · subst hk
      simp [h]
    · simp [hk, waiting]
  · next slot rest _ h =>
    show (index.queues.insert key rest)[key']?.getD [] = _
    rw [Std.HashMap.getElem?_insert]
    by_cases hk : key = key'
    · subst hk
      simp [h]
    · simp [hk, waiting]

theorem size_complete {index : PendingIndex} {key : Completion}
    (h : index.waiting key ≠ []) : (index.complete key).2.size = index.size - 1 := by
  unfold complete
  split
  · next hnil => exact absurd hnil h
  · rfl
  · rfl

/-! ### All queues together -/

/-- The completions that slots wait for, each as often as slots wait for it. -/
def keys (index : PendingIndex) : List Completion :=
  index.queues.toList.flatMap fun (key, slots) => List.replicate slots.length key

/-- Among queues of which no two are for one completion, the queue of a completion counts it. -/
theorem count_flatMap_replicate {queues : List (Completion × List Nat)} {key : Completion}
    {slots : List Nat} (hdistinct : queues.Pairwise fun p q => (p.1 == q.1) = false)
    (hmem : (key, slots) ∈ queues) :
    (queues.flatMap fun (key, slots) => List.replicate slots.length key).count key =
      slots.length := by
  induction queues with
  | nil => exact absurd hmem List.not_mem_nil
  | cons p rest ih =>
    obtain ⟨hp, hrest⟩ := List.pairwise_cons.mp hdistinct
    rw [List.flatMap_cons, List.count_append]
    rcases List.mem_cons.mp hmem with rfl | hmem
    · -- no other queue is for the completion
      have hothers : (rest.flatMap fun (key, slots) => List.replicate slots.length key).count key =
          0 := by
        refine List.count_eq_zero.mpr fun hother => ?_
        obtain ⟨q, hq, hkey⟩ := List.mem_flatMap.mp hother
        have hsame : key = q.1 := List.eq_of_mem_replicate hkey
        simpa [hsame] using hp q hq
      rw [hothers, List.count_replicate_self, Nat.add_zero]
    · have hne := hp (key, slots) hmem
      rw [List.count_replicate, if_neg (by simpa using hne), ih hrest hmem, Nat.zero_add]

theorem count_keys (index : PendingIndex) (key : Completion) :
    index.keys.count key = (index.waiting key).length := by
  unfold keys waiting
  cases h : index.queues[key]? with
  | none =>
    refine List.count_eq_zero.mpr fun hmem => ?_
    obtain ⟨q, hq, hkey⟩ := List.mem_flatMap.mp hmem
    rw [List.eq_of_mem_replicate hkey, Std.HashMap.mem_toList_iff_getElem?_eq_some.mp hq] at h
    cases h
  | some slots =>
    exact count_flatMap_replicate Std.HashMap.distinct_keys_toList
      (Std.HashMap.mem_toList_iff_getElem?_eq_some.mpr h)

end PendingIndex

end MemoryReplay
