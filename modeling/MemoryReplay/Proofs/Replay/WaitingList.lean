import Mathlib.Data.List.Induction
import MemoryReplay.Proofs.Replay.Waiting

/-!
# The pending index as one waiting list

The index keeps a queue for each completion, and beside the queues how many slots there are in them.
One list of all that waits, in order of insertion, would do the same: a completion takes the first
entry for it. Whatever the calls are, the index gives what the list gives.

- `PendingCall`: a call of the index. `PendingIndex.perform`, `PendingIndex.after`: what it does.
- `WaitingList.perform`, `WaitingList.after`: what one list does instead.
- `PendingIndex.Keeps`: an index that keeps the entries of a list. `Keeps.insert`, `Keeps.complete`:
  one call. `keeps_after`: any number of them.
- `index_acts_as_list`: the index and the list after the same calls.
-/

namespace MemoryReplay

/-- A call of a pending index. -/
inductive PendingCall where
  /-- A slot starts to wait for a completion. -/
  | insert (key : Completion) (slot : Nat)
  /-- A completion takes the slot that has waited longest for it. -/
  | complete (key : Completion)
  deriving Repr, DecidableEq

/-- Slots with the completions they wait for, in order of insertion. -/
abbrev WaitingList := List (Completion × Nat)

namespace WaitingList

/-- The first entry for a completion is given and removed, if there is one. -/
def complete (entries : WaitingList) (key : Completion) : Option Nat × WaitingList :=
  ((entries.find? (·.1 == key)).map Prod.snd, entries.eraseP (·.1 == key))

/-- What a call gives, and the entries after it. -/
def perform (entries : WaitingList) : PendingCall → Option Nat × WaitingList
  | .insert key slot => (none, entries ++ [(key, slot)])
  | .complete key => complete entries key

/-- The entries after some calls, with none at first. -/
def after (calls : List PendingCall) : WaitingList :=
  calls.foldl (fun entries call => (perform entries call).2) []

/-- The slots that wait for a completion. -/
def slots (entries : WaitingList) (key : Completion) : List Nat :=
  (entries.filter (·.1 == key)).map Prod.snd

variable {entries : WaitingList} {key key' : Completion} {slot : Nat}

theorem slots_append (entries later : WaitingList) (key : Completion) :
    slots (entries ++ later) key = slots entries key ++ slots later key := by
  unfold slots
  rw [List.filter_append, List.map_append]

theorem slots_cons (key : Completion) (slot : Nat) (later : WaitingList) (key' : Completion) :
    slots ((key, slot) :: later) key' =
      if key = key' then slot :: slots later key' else slots later key' := by
  by_cases h : key = key' <;> simp [slots, h]

theorem slots_eq_nil_iff :
    slots entries key = [] ↔ ∀ entry ∈ entries, ¬ (entry.1 == key) = true := by
  rw [slots, List.map_eq_nil_iff, List.filter_eq_nil_iff]

/-- With no entry for a completion, the list stays as it is. -/
theorem complete_of_nil (h : slots entries key = []) : complete entries key = (none, entries) := by
  have hnone := slots_eq_nil_iff.mp h
  unfold complete
  rw [List.find?_eq_none.mpr hnone, List.eraseP_of_forall_not hnone]
  rfl

theorem complete_of_split {before later : WaitingList} (h : slots before key = []) :
    complete (before ++ (key, slot) :: later) key = (some slot, before ++ later) := by
  have hnone := slots_eq_nil_iff.mp h
  unfold complete
  rw [List.find?_append, List.find?_eq_none.mpr hnone, List.eraseP_append_right _ hnone,
    List.find?_cons_of_pos (by simp), List.eraseP_cons_of_pos (by simp)]
  rfl

/-- What waits for a completion has a first entry. -/
theorem exists_split (h : slots entries key ≠ []) : ∃ before slot later,
    entries = before ++ (key, slot) :: later ∧ slots before key = [] := by
  cases hfind : entries.find? (·.1 == key) with
  | none => exact absurd (slots_eq_nil_iff.mpr (List.find?_eq_none.mp hfind)) h
  | some entry =>
    obtain ⟨hkey, before, later, rfl, hbefore⟩ := List.find?_eq_some_iff_append.mp hfind
    obtain ⟨_, slot⟩ := entry
    obtain rfl := beq_iff_eq.mp hkey
    exact ⟨before, slot, later, rfl, slots_eq_nil_iff.mpr (by simpa using hbefore)⟩

/-- The slot that is given has waited longest. -/
theorem complete_fst (entries : WaitingList) (key : Completion) :
    (complete entries key).1 = (slots entries key).head? := by
  unfold complete slots
  rw [List.head?_map, List.head?_filter]

theorem slots_complete (entries : WaitingList) (key key' : Completion) :
    slots (complete entries key).2 key' =
      if key = key' then (slots entries key').tail else slots entries key' := by
  by_cases hnone : slots entries key = []
  · rw [complete_of_nil hnone]
    split
    · next h => rw [← h, hnone, List.tail_nil]
    · rfl
  · obtain ⟨before, slot, later, rfl, hbefore⟩ := exists_split hnone
    rw [complete_of_split hbefore, slots_append, slots_append, slots_cons]
    split
    · next h => rw [← h, hbefore, List.nil_append, List.nil_append, List.tail_cons]
    · rfl

theorem length_complete (h : slots entries key ≠ []) :
    (complete entries key).2.length = entries.length - 1 := by
  obtain ⟨before, slot, later, rfl, hbefore⟩ := exists_split h
  rw [complete_of_split hbefore, List.length_append, List.length_append, List.length_cons]
  rfl

theorem after_concat (calls : List PendingCall) (call : PendingCall) :
    after (calls ++ [call]) = (perform (after calls) call).2 := by
  rw [after, List.foldl_append]
  rfl

end WaitingList

namespace PendingIndex

/-- What a call gives, and the index after it. -/
def perform (index : PendingIndex) : PendingCall → Option Nat × PendingIndex
  | .insert key slot => (none, index.insert key slot)
  | .complete key => index.complete key

/-- The index after some calls, with no slot at first. -/
def after (calls : List PendingCall) : PendingIndex :=
  calls.foldl (fun index call => (index.perform call).2) empty

/-- No queue is kept that is empty. -/
def Pruned (index : PendingIndex) : Prop := ∀ key : Completion, index.queues[key]? ≠ some []

/-- An index that keeps the entries of a list. -/
structure Keeps (index : PendingIndex) (entries : WaitingList) : Prop where
  waiting : ∀ key, index.waiting key = WaitingList.slots entries key
  size : index.size = entries.length
  pruned : index.Pruned

variable {index : PendingIndex} {entries : WaitingList} {key : Completion} {slot : Nat}

/-! ### No queue is empty -/

theorem Pruned.empty : empty.Pruned := by
  intro key
  simp [PendingIndex.empty]

theorem Pruned.insert (h : index.Pruned) (key : Completion) (slot : Nat) :
    (index.insert key slot).Pruned := by
  intro key'
  unfold PendingIndex.insert
  rw [Std.HashMap.getElem?_insert]
  split
  · simp
  · exact h key'

/-- A queue that becomes empty goes. -/
theorem Pruned.complete (h : index.Pruned) (key : Completion) :
    (index.complete key).2.Pruned := by
  intro key'
  unfold PendingIndex.complete
  split
  · exact h key'
  · show (index.queues.erase key)[key']? ≠ some []
    rw [Std.HashMap.getElem?_erase]
    split
    · exact nofun
    · exact h key'
  · next slot rest hmore _ =>
    show (index.queues.insert key rest)[key']? ≠ some []
    rw [Std.HashMap.getElem?_insert]
    split
    · intro hnil
      exact hmore (by rw [Option.some.inj hnil])
    · exact h key'

/-! ### One call, and any number of them -/

namespace Keeps

theorem empty : PendingIndex.empty.Keeps [] where
  waiting := waiting_empty
  size := rfl
  pruned := .empty

theorem insert (h : index.Keeps entries) (key : Completion) (slot : Nat) :
    (index.insert key slot).Keeps (entries ++ [(key, slot)]) where
  waiting key' := by
    rw [waiting_insert, WaitingList.slots_append, WaitingList.slots_cons, h.waiting]
    split
    · rfl
    · exact (List.append_nil _).symm
  size := by
    rw [List.length_append, ← h.size]
    rfl
  pruned := h.pruned.insert key slot

theorem complete (h : index.Keeps entries) (key : Completion) :
    (index.complete key).2.Keeps (WaitingList.complete entries key).2 where
  waiting key' := by rw [waiting_complete, WaitingList.slots_complete, h.waiting]
  size := by
    by_cases hnone : index.waiting key = []
    · rw [complete_of_nil hnone, WaitingList.complete_of_nil (h.waiting key ▸ hnone)]
      exact h.size
    · rw [size_complete hnone, WaitingList.length_complete (h.waiting key ▸ hnone), h.size]
  pruned := h.pruned.complete key

theorem perform (h : index.Keeps entries) (call : PendingCall) :
    (index.perform call).2.Keeps (WaitingList.perform entries call).2 := by
  cases call with
  | insert key slot => exact h.insert key slot
  | complete key => exact h.complete key

/-- A call gives what it gives on the list. -/
theorem given (h : index.Keeps entries) (call : PendingCall) :
    (index.perform call).1 = (WaitingList.perform entries call).1 := by
  cases call with
  | insert key slot => rfl
  | complete key =>
    show (index.complete key).1 = (WaitingList.complete entries key).1
    rw [complete_fst, WaitingList.complete_fst, h.waiting]

theorem size_pos (h : index.Keeps entries) (hsome : index.waiting key ≠ []) : 0 < index.size := by
  obtain ⟨before, slot, later, rfl, -⟩ := WaitingList.exists_split (h.waiting key ▸ hsome)
  rw [h.size]
  exact List.length_pos_of_mem (List.mem_append_right before List.mem_cons_self)

/-- The counter is not zero when it is counted down. -/
theorem counts (h : index.Keeps entries) (key : Completion) :
    match index.complete key with
    | (none, next) => next = index
    | (some _, next) => next.size + 1 = index.size := by
  by_cases hnone : index.waiting key = []
  · rw [complete_of_nil hnone]
  · have hpos := h.size_pos hnone
    have hsize := size_complete hnone
    have hgiven := complete_fst index key
    split
    · next next hcomplete =>
      rw [hcomplete] at hgiven
      exact absurd (List.head?_eq_none_iff.mp hgiven.symm) hnone
    · next slot next hcomplete =>
      rw [hcomplete] at hsize
      show next.size + 1 = index.size
      rw [hsize, Nat.sub_add_cancel hpos]

end Keeps

theorem after_concat (calls : List PendingCall) (call : PendingCall) :
    after (calls ++ [call]) = ((after calls).perform call).2 := by
  rw [after, List.foldl_append]
  rfl

/-- An index and a list with the same calls behind them. -/
theorem keeps_after (calls : List PendingCall) : (after calls).Keeps (WaitingList.after calls) := by
  induction calls using List.reverseRecOn with
  | nil => exact .empty
  | append_singleton calls call ih =>
    rw [after_concat, WaitingList.after_concat]
    exact ih.perform call

/-- **An index acts as one list of all that waits, in order of insertion.** After the same calls the
next one gives the same slot, or none, and as many slots wait. A completion for which nothing waits
leaves the index as it is; any other takes one off a counter that is not zero. No queue is kept that
is empty. -/
theorem index_acts_as_list (calls : List PendingCall) :
    (∀ call, ((after calls).perform call).1 =
      (WaitingList.perform (WaitingList.after calls) call).1) ∧
    (after calls).size = (WaitingList.after calls).length ∧
    (after calls).isEmpty = (WaitingList.after calls).isEmpty ∧
    (∀ key, match (after calls).complete key with
      | (none, index) => index = after calls
      | (some _, index) => index.size + 1 = (after calls).size) ∧
    (after calls).Pruned := by
  have h := keeps_after calls
  refine ⟨h.given, h.size, ?_, h.counts, h.pruned⟩
  unfold isEmpty
  rw [h.size]
  cases WaitingList.after calls <;> rfl

end PendingIndex

end MemoryReplay
