/-!
# Interleaving of queues

Ways to make one queue of several, taking from their heads in turn.

- `mergePair`: one from each of two queues, until one is used up.
- `roundRobin`: one from each of any number of queues, round by round.
-/

namespace MemoryReplay.Distribution

variable {α : Type}

/-- One item of `first`, one of `second`, and so on; when one queue is used up the other follows
as it is. -/
def mergePair : List α → List α → List α
  | [], second => second
  | a :: first, [] => a :: first
  | a :: first, b :: second => a :: b :: mergePair first second

/-- Length of the longest queue. -/
def longest (queues : List (List α)) : Nat :=
  queues.foldr (fun q n => max q.length n) 0

/-- The first `count` rounds over the queues. In a round every queue that still holds something
gives its head. -/
def rounds : Nat → List (List α) → List α
  | 0, _ => []
  | count + 1, queues => queues.filterMap List.head? ++ rounds count (queues.map List.tail)

/-- One item from each queue in turn until all are used up. -/
def roundRobin (queues : List (List α)) : List α :=
  rounds (longest queues) queues

@[simp] theorem mergePair_nil_right (first : List α) : mergePair first [] = first := by
  cases first <;> rfl

theorem length_mergePair (first second : List α) :
    (mergePair first second).length = first.length + second.length := by
  fun_induction mergePair first second with
  | case1 second => simp
  | case2 a first => simp
  | case3 a first b second ih =>
    simp only [List.length_cons, ih]
    omega

end MemoryReplay.Distribution
