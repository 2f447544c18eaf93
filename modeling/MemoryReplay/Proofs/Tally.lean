import Mathlib.Algebra.BigOperators.Fin
import Mathlib.Data.Finset.Lattice.Fold
import Mathlib.Order.Lattice.Nat
import MemoryReplay.Request

/-!
# Tables, sums and maxima over channels

Queues and counters are kept in vectors with one entry for each channel. These are the equations
by which the theory reads such a vector, entry by entry, and adds its entries up.

- `get_set`, `get_ofFn`, `get_replicate`: an entry of a table.
- `toList_eq_ofFn`: a table as the list of its entries.
- `sum_countP`, `max?_eq_sup`: items counted by a label, and their maxima, over all labels.
- `perm_of_filter`, `pairwise_of_filter`: lists compared and ordered label by label.
-/

namespace MemoryReplay

namespace Tally

variable {α β : Type} {n : Nat}

theorem get_set (v : Vector α n) (i j : Fin n) (a : α) :
    (v.set i a).get j = if i = j then a else v.get j := by
  show (v.set i a)[j.val] = if i = j then a else v[j.val]
  rw [Vector.getElem_set]
  simp [Fin.ext_iff]

@[simp] theorem get_set_self (v : Vector α n) (i : Fin n) (a : α) : (v.set i a).get i = a := by
  simp [get_set]

@[simp] theorem get_ofFn (f : Fin n → α) (i : Fin n) : (Vector.ofFn f).get i = f i := by
  show (Vector.ofFn f)[i.val] = f i
  simp

@[simp] theorem get_replicate (a : α) (i : Fin n) : (Vector.replicate n a).get i = a := by
  show (Vector.replicate n a)[i.val] = a
  simp

theorem toList_eq_ofFn (v : Vector α n) : v.toList = List.ofFn v.get :=
  List.ext_getElem (by simp) fun i _ _ => by simp [Vector.get]

/-- The lengths of the lists of a table add up to the length of all of them together. -/
theorem length_flatten_toList (v : Vector (List α) n) :
    v.toList.flatten.length = ∑ k, (v.get k).length := by
  rw [List.length_flatten, toList_eq_ofFn, List.map_ofFn, List.sum_ofFn]
  rfl

/-- Every item has one label. -/
theorem sum_countP (label : α → Fin n) (items : List α) :
    ∑ k, items.countP (fun a => decide (label a = k)) = items.length := by
  induction items with
  | nil => simp
  | cons a rest ih =>
    simp only [List.countP_cons, Finset.sum_add_distrib, ih, decide_eq_true_eq,
      Finset.sum_ite_eq, Finset.mem_univ, if_true, List.length_cons]

/-- Lists that agree under every label agree. -/
theorem perm_of_filter [DecidableEq α] (label : α → Fin n) {items items' : List α}
    (h : ∀ k, (items.filter fun a => label a = k).Perm (items'.filter fun a => label a = k)) :
    items.Perm items' := by
  refine List.perm_iff_count.mpr fun a => ?_
  have hcount := (h (label a)).count_eq a
  rwa [List.count_filter (by simp), List.count_filter (by simp)] at hcount

/-- What holds among the items under every label holds among all items of one label. -/
theorem pairwise_of_filter (label : α → Fin n) {R : α → α → Prop} {items : List α}
    (h : ∀ k, (items.filter fun a => label a = k).Pairwise R) :
    items.Pairwise fun a b => label a = label b → R a b := by
  rw [List.pairwise_iff_getElem]
  intro i j hi hj hlt hlabel
  have hpair := List.pairwise_iff_getElem.mp (List.pairwise_filter.mp (h (label items[j]))) i j hi hj hlt
  exact hpair (by simpa using hlabel) (by simp)

theorem max?_getD_le_iff {l : List Nat} {b : Nat} : l.max?.getD 0 ≤ b ↔ ∀ n ∈ l, n ≤ b := by
  cases h : l.max? with
  | none =>
    rw [List.max?_eq_none_iff.mp h]
    simp
  | some m =>
    obtain ⟨hm, hle⟩ := List.max?_eq_some_iff.mp h
    exact ⟨fun hb n hn => Nat.le_trans (hle n hn) hb, fun hb => hb m hm⟩

theorem min?_getD_le {l : List Nat} {n : Nat} (hn : n ∈ l) : l.min?.getD 0 ≤ n := by
  cases h : l.min? with
  | none =>
    rw [List.min?_eq_none_iff.mp h] at hn
    cases hn
  | some m => exact (List.min?_eq_some_iff.mp h).2 n hn

theorem le_min?_getD {l : List Nat} {b : Nat} (hne : l ≠ []) (h : ∀ n ∈ l, b ≤ n) :
    b ≤ l.min?.getD 0 := by
  cases hmin : l.min? with
  | none => exact absurd (List.min?_eq_none_iff.mp hmin) hne
  | some m => exact h m (List.min?_eq_some_iff.mp hmin).1

/-- The largest number of all items is the largest that some label has. -/
theorem max?_eq_sup (label : α → Fin n) (f : α → Nat) (items : List α) :
    (items.map f).max?.getD 0 =
      Finset.univ.sup fun k => ((items.filter fun a => label a = k).map f).max?.getD 0 := by
  refine eq_of_forall_ge_iff fun b => ?_
  simp only [max?_getD_le_iff, Finset.sup_le_iff, Finset.mem_univ, true_implies, List.forall_mem_map,
    List.mem_filter, decide_eq_true_eq]
  exact ⟨fun h k a ha => h a ha.1, fun h a ha => h (label a) a ⟨ha, rfl⟩⟩

end Tally

end MemoryReplay
