import MemoryReplay.Proofs.Distribution.Rounds

/-!
# Positions in an interleaving

The loop over the queues knows nothing of their lengths. It makes pass after pass, each of which
takes the heads, and stops after one that has taken nothing. As many passes take something as the
longest queue has items, and the output of the loop is the rounds over the queues.

An item is known by its place, which is its queue and its index there. The places come in the order
of a grid that has a line for each round and a column for each queue, without the cells where a
queue has run dry. Whatever the lengths, an item stands behind the items of earlier rounds, and
behind those of its round that are in a queue before its own.

- `Pass`, `pass`, `Drains`: the loop. `pass_eq`: what a pass does. `drains_iff`: where the loop ends.
- `Place`, `Place.Earlier`, `itemAt`: places, their order, and what is there.
- `Served`: an output that has the items of all places in this order. `served`: an interleaving does.
- `position`: how many items come before one. `interleaving_positions`: where every item stands.
-/

namespace MemoryReplay.Distribution

variable {α : Type}

/-! ### The loop over the queues -/

/-- What a pass over the queues has done so far. -/
structure Pass (α : Type) where
  /-- The output of the loop. -/
  out : List α
  /-- The queues that the pass has been at, without what it has taken. -/
  left : List (List α)
  /-- Whether it has taken anything. -/
  progress : Bool

/-- The pass comes to a queue, and takes its head if there is one. -/
def Pass.take (p : Pass α) : List α → Pass α
  | [] => { p with left := p.left ++ [[]] }
  | a :: q => { out := p.out ++ [a], left := p.left ++ [q], progress := true }

/-- A pass over all queues. -/
def pass (out : List α) (queues : List (List α)) : Pass α :=
  queues.foldl Pass.take { out := out, left := [], progress := false }

/-- Passes over the queues until one has taken nothing. `Drains count out queues final` says that
`count` passes take something, and that the loop ends with the output `final`. -/
inductive Drains : Nat → List α → List (List α) → List α → Prop where
  /-- A pass that has taken nothing is the last one. -/
  | last {out : List α} {queues : List (List α)} (h : (pass out queues).progress = false) :
      Drains 0 out queues (pass out queues).out
  /-- After any other pass the loop goes on with what it has left. -/
  | again {count : Nat} {out final : List α} {queues : List (List α)}
      (h : (pass out queues).progress = true)
      (rest : Drains count (pass out queues).out (pass out queues).left final) :
      Drains (count + 1) out queues final

variable {queues : List (List α)} {out final : List α} {count : Nat}

theorem longest_cons (q : List α) (queues : List (List α)) :
    longest (q :: queues) = max q.length (longest queues) := rfl

theorem foldl_take (p : Pass α) (queues : List (List α)) :
    queues.foldl Pass.take p =
      { out := p.out ++ queues.filterMap List.head?
        left := p.left ++ queues.map List.tail
        progress := p.progress || decide (0 < longest queues) } := by
  induction queues generalizing p with
  | nil => simp [longest]
  | cons q queues ih =>
    rw [List.foldl_cons, ih, longest_cons]
    cases q with
    | nil =>
      rw [List.filterMap_cons_none List.head?_nil]
      simp [Pass.take]
    | cons a q => simp [Pass.take]

/-- A pass takes the heads, and it takes something if some queue is not empty. -/
theorem pass_eq (out : List α) (queues : List (List α)) :
    pass out queues =
      { out := out ++ queues.filterMap List.head?
        left := queues.map List.tail
        progress := decide (0 < longest queues) } :=
  (foldl_take _ queues).trans (by simp)

/-- The longest queue is in every round. -/
theorem longest_tails (queues : List (List α)) :
    longest (queues.map List.tail) = longest queues - 1 := by
  induction queues with
  | nil => rfl
  | cons q queues ih =>
    rw [List.map_cons, longest_cons, longest_cons, ih, List.length_tail]
    omega

/-- The loop cannot end in another way: every pass is a round. -/
theorem Drains.eq (h : Drains count out queues final) :
    count = longest queues ∧ final = out ++ roundRobin queues := by
  induction h with
  | @last out queues h =>
    rw [pass_eq, decide_eq_false_iff_not, Nat.not_lt] at h
    have hheads := roundRobin_eq queues
    rw [roundRobin, rounds_of_empty h] at hheads
    have hnone := (List.append_eq_nil_iff.mp hheads.symm).1
    rw [pass_eq, hnone, roundRobin, rounds_of_empty h]
    exact ⟨(Nat.le_zero.mp h).symm, rfl⟩
  | @again count out final queues h rest ih =>
    rw [pass_eq, decide_eq_true_eq] at h
    rw [pass_eq, longest_tails] at ih
    obtain ⟨hcount, hfinal⟩ := ih
    refine ⟨by omega, ?_⟩
    rw [hfinal, roundRobin_eq queues, List.append_assoc]

/-- **The loop ends**, when as many passes have taken something as the longest queue has items. -/
theorem drains (out : List α) (queues : List (List α)) :
    Drains (longest queues) out queues (out ++ roundRobin queues) := by
  -- every pass that takes something leaves a longest queue that is shorter by one
  induction hcount : longest queues generalizing out queues with
  | zero =>
    have hlast : (pass out queues).progress = false := by
      rw [pass_eq, hcount]
      rfl
    have hdrains := Drains.last hlast
    rwa [hdrains.eq.2] at hdrains
  | succ count ih =>
    have hagain : (pass out queues).progress = true := by
      rw [pass_eq, hcount]
      rfl
    refine .again hagain ?_
    rw [pass_eq, roundRobin_eq queues, ← List.append_assoc]
    exact ih _ _ (by rw [longest_tails, hcount, Nat.add_sub_cancel])

theorem drains_iff :
    Drains count out queues final ↔ count = longest queues ∧ final = out ++ roundRobin queues := by
  constructor
  · exact Drains.eq
  · rintro ⟨rfl, rfl⟩
    exact drains out queues

/-! ### Places -/

/-- The place of an item. -/
structure Place where
  /-- The queue of the item. -/
  queue : Nat
  /-- Its index in this queue, which is also its round. -/
  index : Nat
  deriving Repr, DecidableEq

/-- An earlier place: one of an earlier round, or of the same round in a queue before. -/
def Place.Earlier (p p' : Place) : Prop :=
  p.index < p'.index ∨ p.index = p'.index ∧ p.queue < p'.queue

theorem Place.Earlier.ne {p p' : Place} (h : p.Earlier p') : p ≠ p' := by
  rintro rfl
  unfold Place.Earlier at h
  omega

theorem Place.Earlier.asymm {p p' : Place} (h : p.Earlier p') : ¬ p'.Earlier p := by
  unfold Place.Earlier at h ⊢
  omega

/-- The item at a place, if its queue is that long. -/
def itemAt (queues : List (List α)) (p : Place) : Option α :=
  queues[p.queue]?.bind fun items => items[p.index]?

/-- How many items come before a round. -/
def itemsBelow (round : Nat) (queues : List (List α)) : Nat :=
  (queues.map fun items => min round items.length).sum

/-- How many items come before a place: the queues before its own have been through its round, and the
others have not. -/
def position (queues : List (List α)) (p : Place) : Nat :=
  itemsBelow (p.index + 1) (queues.take p.queue) + itemsBelow p.index (queues.drop p.queue)

/-- An output that has the items of the queues by rounds, and in each round by queues. -/
structure Served (queues : List (List α)) (order : List Place) (out : List α) : Prop where
  /-- The output has the items of these places. -/
  items : order.map (itemAt queues) = out.map some
  /-- Every item is among them, -/
  mem_iff : ∀ p, p ∈ order ↔ (itemAt queues p).isSome
  /-- and none comes twice. -/
  nodup : order.Nodup
  /-- What stands before a place is exactly what is earlier. -/
  before_iff : ∀ before p after, order = before ++ p :: after →
    before.length = position queues p ∧ ∀ p', p' ∈ before ↔ p' ∈ order ∧ p'.Earlier p

/-! ### The grid of rounds and queues -/

/-- The places of a round, whether or not there is an item. -/
def line (width round : Nat) : List Place := (List.range width).map fun q => ⟨q, round⟩

/-- The places of the first rounds. -/
def grid (width height : Nat) : List Place := (List.range height).flatMap (line width)

theorem mem_grid {width height : Nat} {p : Place} :
    p ∈ grid width height ↔ p.queue < width ∧ p.index < height := by
  simp only [grid, line, List.mem_flatMap, List.mem_map, List.mem_range]
  constructor
  · rintro ⟨round, hround, q, hq, rfl⟩
    exact ⟨hq, hround⟩
  · rintro ⟨hqueue, hindex⟩
    exact ⟨p.index, hindex, p.queue, hqueue, rfl⟩

theorem grid_pairwise (width height : Nat) : (grid width height).Pairwise Place.Earlier := by
  refine List.pairwise_flatMap.mpr ⟨fun round _ => ?_, ?_⟩
  · exact List.pairwise_map.mpr (List.pairwise_lt_range.imp fun h => .inr ⟨rfl, h⟩)
  · refine List.pairwise_lt_range.imp fun {round later} hlt p hp p' hp' => ?_
    obtain ⟨q, -, rfl⟩ := List.mem_map.mp hp
    obtain ⟨q', -, rfl⟩ := List.mem_map.mp hp'
    exact .inl hlt

theorem exists_range_eq {n i : Nat} (h : i < n) :
    ∃ rest, List.range n = List.range i ++ i :: rest := by
  obtain ⟨k, rfl⟩ := Nat.exists_eq_add_of_lt h
  rw [Nat.add_assoc, List.range_add, List.range_succ_eq_map]
  exact ⟨_, by rw [List.map_cons, Nat.add_zero]⟩

/-- The grid, cut at a place. -/
theorem exists_grid_eq {width height : Nat} {p : Place} (h : p ∈ grid width height) :
    ∃ after, grid width height = (grid width p.index ++ line p.queue p.index) ++ p :: after := by
  obtain ⟨hqueue, hindex⟩ := mem_grid.mp h
  obtain ⟨lines, hlines⟩ := exists_range_eq hindex
  obtain ⟨columns, hcolumns⟩ := exists_range_eq hqueue
  have hline : line width p.index =
      line p.queue p.index ++ p :: columns.map fun q => ⟨q, p.index⟩ := by
    unfold line
    rw [hcolumns, List.map_append, List.map_cons]
  refine ⟨(columns.map fun q => ⟨q, p.index⟩) ++ lines.flatMap (line width), ?_⟩
  rw [grid, hlines, List.flatMap_append, List.flatMap_cons, hline, grid]
  simp only [List.append_assoc, List.cons_append]

/-! ### What stands in the grid -/

/-- The rounds, each by itself. -/
theorem rounds_eq_flatMap (count : Nat) (queues : List (List α)) :
    rounds count queues =
      (List.range count).flatMap fun round => queues.filterMap fun items => items[round]? := by
  induction count generalizing queues with
  | zero => rfl
  | succ count ih =>
    rw [rounds, ih, List.range_succ_eq_map, List.flatMap_cons, List.flatMap_map]
    simp only [List.filterMap_map, Function.comp_def, List.head?_eq_getElem?, List.getElem?_tail,
      Nat.succ_eq_add_one]

/-- On a line stand the items that the queues have for its round. -/
theorem filterMap_line (queues : List (List α)) (width round : Nat) :
    (line width round).filterMap (itemAt queues) =
      (queues.take width).filterMap fun items => items[round]? := by
  induction width with
  | zero => rfl
  | succ width ih =>
    unfold line at ih ⊢
    rw [List.range_succ, List.map_append, List.filterMap_append, ih, List.take_add_one,
      List.filterMap_append]
    refine congrArg _ ?_
    -- the next column is the next queue, if there is one
    cases hitems : queues[width]? with
    | none => simp [itemAt, hitems]
    | some items => simp [itemAt, hitems, List.filterMap_cons]

theorem filterMap_grid (queues : List (List α)) (count : Nat) :
    (grid queues.length count).filterMap (itemAt queues) = rounds count queues := by
  rw [grid, List.filterMap_flatMap, rounds_eq_flatMap]
  refine List.flatMap_congr fun round _ => ?_
  rw [filterMap_line, List.take_length]

theorem itemsBelow_append (round : Nat) (queues queues' : List (List α)) :
    itemsBelow round (queues ++ queues') = itemsBelow round queues + itemsBelow round queues' := by
  rw [itemsBelow, List.map_append, List.sum_append]
  rfl

/-- With one more round, the queues that are long enough give one more item each. -/
theorem itemsBelow_succ (round : Nat) (queues : List (List α)) :
    itemsBelow (round + 1) queues =
      itemsBelow round queues + (queues.filterMap fun items => items[round]?).length := by
  unfold itemsBelow
  induction queues with
  | nil => rfl
  | cons items queues ih =>
    rw [List.map_cons, List.map_cons, List.sum_cons, List.sum_cons, ih]
    by_cases hround : round < items.length
    · have hsome : items[round]? = some items[round] := List.getElem?_eq_getElem hround
      simp only [List.filterMap_cons, hsome, List.length_cons]
      omega
    · have hnone : items[round]? = none := List.getElem?_eq_none (Nat.not_lt.mp hround)
      simp only [List.filterMap_cons, hnone]
      omega

theorem length_rounds (count : Nat) (queues : List (List α)) :
    (rounds count queues).length = itemsBelow count queues := by
  induction count with
  | zero => simp [rounds, itemsBelow]
  | succ count ih =>
    rw [itemsBelow_succ, ← ih, rounds_eq_flatMap, rounds_eq_flatMap, List.range_succ,
      List.flatMap_append, List.length_append, List.flatMap_singleton]

/-! ### The places of all items, in their order -/

/-- The places of all items, by rounds, and in each round by queues. -/
def turns (queues : List (List α)) : List Place :=
  (grid queues.length (longest queues)).filter fun p => (itemAt queues p).isSome

theorem map_turns (queues : List (List α)) :
    (turns queues).map (itemAt queues) = (roundRobin queues).map some := by
  rw [roundRobin, ← filterMap_grid, List.map_filterMap_some_eq_filter_map_isSome, turns,
    List.filter_map]
  rfl

theorem mem_grid_of_isSome {p : Place} (h : (itemAt queues p).isSome) :
    p ∈ grid queues.length (longest queues) := by
  obtain ⟨a, ha⟩ := Option.isSome_iff_exists.mp h
  obtain ⟨items, hitems, hitem⟩ := Option.bind_eq_some_iff.mp ha
  obtain ⟨hqueue, rfl⟩ := List.getElem?_eq_some_iff.mp hitems
  obtain ⟨hindex, -⟩ := List.getElem?_eq_some_iff.mp hitem
  have hlongest := length_le_longest (List.getElem_mem hqueue)
  exact mem_grid.mpr ⟨hqueue, Nat.lt_of_lt_of_le hindex hlongest⟩

theorem mem_turns {p : Place} : p ∈ turns queues ↔ (itemAt queues p).isSome := by
  rw [turns, List.mem_filter]
  exact and_iff_right_of_imp mem_grid_of_isSome

theorem turns_pairwise (queues : List (List α)) : (turns queues).Pairwise Place.Earlier :=
  (grid_pairwise _ _).filter _

theorem turns_nodup (queues : List (List α)) : (turns queues).Nodup :=
  (turns_pairwise queues).imp Place.Earlier.ne

/-- A position counts the items that stand in the grid before a place. -/
theorem length_filterMap_before (queues : List (List α)) (p : Place) :
    ((grid queues.length p.index ++ line p.queue p.index).filterMap (itemAt queues)).length =
      position queues p := by
  calc ((grid queues.length p.index ++ line p.queue p.index).filterMap (itemAt queues)).length
      _ = itemsBelow p.index queues +
          ((queues.take p.queue).filterMap fun items => items[p.index]?).length := by
        rw [List.filterMap_append, filterMap_grid, filterMap_line, List.length_append, length_rounds]
      _ = itemsBelow p.index (queues.take p.queue) + itemsBelow p.index (queues.drop p.queue) +
          ((queues.take p.queue).filterMap fun items => items[p.index]?).length := by
        rw [← itemsBelow_append, List.take_append_drop]
      _ = position queues p := by
        rw [position, itemsBelow_succ, Nat.add_right_comm]

/-- Every place comes after as many others as its position says. -/
theorem getElem?_turns {p : Place} (hp : p ∈ turns queues) :
    (turns queues)[position queues p]? = some p := by
  have hitem := mem_turns.mp hp
  obtain ⟨after, hgrid⟩ := exists_grid_eq (mem_grid_of_isSome hitem)
  let holds := fun p => (itemAt queues p).isSome
  let before := (grid queues.length p.index ++ line p.queue p.index).filter holds
  have hlength : before.length = position queues p := by
    rw [← List.countP_eq_length_filter, ← List.length_filterMap_eq_countP, length_filterMap_before]
  have hturns : turns queues = before ++ p :: after.filter holds := by
    rw [turns, hgrid, List.filter_append, List.filter_cons_of_pos (p := holds) hitem]
  rw [hturns, ← hlength]
  simp

/-- In the order of places, what stands before a place is what is earlier. -/
theorem mem_before_iff {before after : List Place} {p p' : Place}
    (h : (before ++ p :: after).Pairwise Place.Earlier) :
    p' ∈ before ↔ p' ∈ before ++ p :: after ∧ p'.Earlier p := by
  obtain ⟨-, hafter, hbefore⟩ := List.pairwise_append.mp h
  constructor
  · intro hp'
    exact ⟨List.mem_append_left _ hp', hbefore p' hp' p List.mem_cons_self⟩
  · rintro ⟨hp', hearlier⟩
    rcases List.mem_append.mp hp' with hp' | hp'
    · exact hp'
    · -- neither the place itself nor one behind it is earlier
      rcases List.mem_cons.mp hp' with rfl | hp'
      · exact absurd rfl hearlier.ne
      · exact absurd hearlier ((List.pairwise_cons.mp hafter).1 p' hp').asymm

/-- **An interleaving serves its queues by rounds**, and in each round by queues. -/
theorem served (queues : List (List α)) : Served queues (turns queues) (roundRobin queues) where
  items := map_turns queues
  mem_iff _ := mem_turns
  nodup := turns_nodup queues
  before_iff before p after h := by
    have hp : p ∈ turns queues := h ▸ List.mem_append_right _ List.mem_cons_self
    have hat : (turns queues)[before.length]? = some p := by simp [h]
    have hlt : before.length < (turns queues).length := (List.getElem?_eq_some_iff.mp hat).1
    refine ⟨?_, fun p' => ?_⟩
    · exact (List.getElem?_inj hlt (turns_nodup queues)).mp (hat.trans (getElem?_turns hp).symm)
    · rw [h]
      exact mem_before_iff (h ▸ turns_pairwise queues)

/-! ### Positions -/

theorem getElem?_roundRobin (queues : List (List α)) (q : Fin queues.length)
    (r : Fin queues[q].length) :
    (roundRobin queues)[position queues ⟨q, r⟩]? = some queues[q][r] := by
  have hitem : itemAt queues ⟨q, r⟩ = some queues[q][r] := by simp [itemAt]
  have hturn := getElem?_turns (mem_turns.mpr (Option.isSome_of_eq_some hitem))
  have hout := congrArg (·[position queues ⟨q, r⟩]?) (map_turns queues)
  simp only [List.getElem?_map, hturn, Option.map_some, hitem] at hout
  simpa using hout.symm

theorem length_roundRobin (queues : List (List α)) :
    (roundRobin queues).length = (queues.map List.length).sum :=
  (roundRobin_perm queues).length_eq.trans List.length_flatten

theorem getElem?_mergePair_left (first second : List α) (i : Fin first.length) :
    (mergePair first second)[i + min i.val second.length]? = some first[i] := by
  have hposition : position [first, second] ⟨0, i⟩ = i + min i.val second.length := by
    have hlt := i.isLt
    show 0 + (min i.val first.length + (min i.val second.length + 0)) = _
    omega
  rw [mergePair_eq_roundRobin, ← hposition]
  exact getElem?_roundRobin [first, second] ⟨0, by simp⟩ i

theorem getElem?_mergePair_right (first second : List α) (j : Fin second.length) :
    (mergePair first second)[j + min (j.val + 1) first.length]? = some second[j] := by
  have hposition : position [first, second] ⟨1, j⟩ = j + min (j.val + 1) first.length := by
    have hlt := j.isLt
    show (min (j.val + 1) first.length + 0) + (min j.val second.length + 0) = _
    omega
  rw [mergePair_eq_roundRobin, ← hposition]
  exact getElem?_roundRobin [first, second] ⟨1, by simp⟩ j

/-- **Where every item stands.** The loop over the queues ends when as many passes have taken something
as the longest queue has items, and its output is the interleaving. An item stands there behind
exactly the items of earlier rounds, and those of its round that are in a queue before its own; so
its position can be told from the lengths. Of two queues, the first one leads in every round. -/
theorem interleaving_positions (queues : List (List α)) (first second : List α) :
    (∀ count final, Drains count [] queues final ↔
      count = longest queues ∧ final = roundRobin queues) ∧
    (∃ order, Served queues order (roundRobin queues)) ∧
    (∀ (q : Fin queues.length) (r : Fin queues[q].length),
      (roundRobin queues)[position queues ⟨q, r⟩]? = some queues[q][r]) ∧
    (roundRobin queues).length = (queues.map List.length).sum ∧
    (∀ i : Fin first.length,
      (mergePair first second)[i + min i.val second.length]? = some first[i]) ∧
    (∀ j : Fin second.length,
      (mergePair first second)[j + min (j.val + 1) first.length]? = some second[j]) ∧
    (mergePair first second).length = first.length + second.length := by
  refine ⟨fun count final => drains_iff, ⟨turns queues, served queues⟩, getElem?_roundRobin queues,
    length_roundRobin queues, ?_, ?_, length_mergePair first second⟩
  · exact getElem?_mergePair_left first second
  · exact getElem?_mergePair_right first second

/-- The second item of the fourth queue comes behind the whole first round and the second item of the
first queue. -/
example : roundRobin [[1, 2, 3], [], [4], [5, 6]] = [1, 4, 5, 2, 6, 3] ∧
    position [[1, 2, 3], [], [4], [5, 6]] ⟨3, 1⟩ = 4 := by decide

end MemoryReplay.Distribution
