import Mathlib.Data.Finset.Card
import Mathlib.Data.Finset.Dedup
import MemoryReplay.Proofs.Memory.Service

/-!
# Rows by what was accessed before

The table of open rows forgets nothing that matters: how an access finds the row of its bank
depends only on the latest access to that bank.

- `History.pasts`: the items of a list, each with those before it.
- `AddressFields.place`: the bank of an address among all banks.
- `AddressFields.found`: how an access finds the row of its bank, told from the accesses before it.
- `card_places`, `card_rows_le`, `card_rows`: colds are the distinct banks of a list of accesses;
  colds and conflicts are at least its distinct rows, and exactly these if every bank sees its
  rows in ascending order.
- `RowBuffer.Recalls`: a table of open rows after some accesses.
-/

namespace MemoryReplay

namespace History

variable {α β : Type} {before earlier : List α} {items : List α} {a : α}

/-- The items of a list, each with those before it, the latest first. The items `before` come
before all of them. -/
def pasts (before : List α) : List α → List (List α × α)
  | [] => []
  | a :: rest => (before, a) :: pasts (a :: before) rest

theorem pasts_cons (before : List α) (a : α) (rest : List α) :
    pasts before (a :: rest) = (before, a) :: pasts (a :: before) rest := rfl

@[simp] theorem map_snd_pasts (before items : List α) : (pasts before items).map Prod.snd = items := by
  induction items generalizing before with
  | nil => rfl
  | cons a rest ih => rw [pasts_cons, List.map_cons, ih]

@[simp] theorem length_pasts (before items : List α) : (pasts before items).length = items.length := by
  rw [← List.length_map (f := Prod.snd), map_snd_pasts]

/-- The past of one more item is all that was there before. -/
theorem pasts_concat (before items : List α) (a : α) :
    pasts before (items ++ [a]) = pasts before items ++ [(items.reverse ++ before, a)] := by
  induction items generalizing before with
  | nil => rfl
  | cons b rest ih =>
    rw [List.cons_append, pasts_cons, ih, pasts_cons, List.reverse_cons, List.append_assoc]
    rfl

theorem mem_pasts (h : (earlier, a) ∈ pasts before items) :
    ∃ done rest, items = done ++ a :: rest ∧ earlier = done.reverse ++ before := by
  induction items generalizing before with
  | nil => cases h
  | cons b rest ih =>
    rcases List.mem_cons.mp h with heq | hrest
    · obtain ⟨rfl, rfl⟩ := Prod.mk.inj heq
      exact ⟨[], rest, rfl, rfl⟩
    · obtain ⟨done, later, rfl, rfl⟩ := ih hrest
      exact ⟨b :: done, later, rfl, by simp⟩

/-- In a list where earlier and later items are related, so are an item and its past. -/
theorem pairwise_of_mem_pasts {R : α → α → Prop} (hitems : items.Pairwise R)
    (h : (earlier, a) ∈ pasts [] items) :
    earlier.Pairwise (fun x y => R y x) ∧ ∀ b ∈ earlier, R b a := by
  obtain ⟨done, rest, rfl, rfl⟩ := mem_pasts h
  obtain ⟨hdone, -, hcross⟩ := List.pairwise_append.mp hitems
  rw [List.append_nil]
  refine ⟨List.pairwise_reverse.mpr hdone, fun b hb => ?_⟩
  exact hcross b (List.mem_reverse.mp hb) a List.mem_cons_self

/-- Some of the items have as their pasts what these items leave of the pasts. -/
theorem pasts_filter (p : α → Bool) (before items : List α) :
    pasts (before.filter p) (items.filter p) =
      ((pasts before items).filter fun past => p past.2).map fun past =>
        (past.1.filter p, past.2) := by
  induction items generalizing before with
  | nil => rfl
  | cons a rest ih =>
    have hrest := ih (a :: before)
    rw [pasts_cons, List.filter_cons, List.filter_cons]
    by_cases ha : p a = true
    · rw [List.filter_cons_of_pos ha] at hrest
      simp only [ha, if_true]
      rw [pasts_cons, hrest, List.map_cons]
    · rw [List.filter_cons_of_neg ha] at hrest
      simp only [ha]
      exact hrest

/-- The distinct values of a list are as many as its items of which the past has no equal. -/
theorem card_toFinset [DecidableEq β] (f : α → β) (before items : List α) :
    ((items.map f).toFinset ∪ (before.map f).toFinset).card =
      (pasts before items).countP (fun past => decide (f past.2 ∉ past.1.map f)) +
        (before.map f).toFinset.card := by
  induction items generalizing before with
  | nil => simp [pasts]
  | cons a rest ih =>
    have hrest := ih (a :: before)
    rw [List.map_cons, List.toFinset_cons, Finset.union_insert] at hrest
    rw [pasts_cons, List.map_cons, List.toFinset_cons, Finset.insert_union, hrest, List.countP_cons]
    by_cases ha : f a ∈ before.map f
    · have hmem : f a ∈ (before.map f).toFinset := List.mem_toFinset.mpr ha
      rw [Finset.insert_eq_of_mem hmem]
      simp [ha]
    · have hmem : f a ∉ (before.map f).toFinset := fun h => ha (List.mem_toFinset.mp h)
      rw [Finset.card_insert_of_notMem hmem]
      simp [ha]
      omega

end History

namespace AddressFields

open History

variable (fields : AddressFields) {before : List Completion} {key : Completion}
  {keys : List Completion}

/-- The bank of an address among all banks. -/
def place (a : UInt64) : Fin pseudoChannels × Nat := (fields.channel a, fields.bank a)

/-- The row of an address among the rows of all banks. -/
def rowPlace (a : UInt64) : (Fin pseudoChannels × Nat) × Nat := (fields.place a, fields.row a)

theorem slot_eq_iff {a b : UInt64} :
    fields.slot a = fields.slot b ↔ fields.place a = fields.place b := by
  constructor
  · intro h
    have hchannel := fields.channel_eq_of_slot_eq h
    unfold slot at h
    rw [hchannel] at h
    exact Prod.ext hchannel (Nat.add_left_cancel h)
  · intro h
    obtain ⟨hchannel, hbank⟩ := Prod.mk.inj h
    unfold slot
    rw [hchannel, hbank]

/-- Higher addresses lie in higher rows. -/
theorem row_mono {a b : UInt64} (h : a ≤ b) : fields.row a ≤ fields.row b := by
  unfold row
  rw [Nat.shiftRight_eq_div_pow, Nat.shiftRight_eq_div_pow]
  exact Nat.div_le_div_right (UInt64.le_iff_toNat_le.mp h)

/-- How an access finds the row of its bank after the accesses `before`, the latest first: as the
latest of them to this bank has left it. -/
def found (before : List Completion) (key : Completion) : RowState :=
  RowBuffer.classify (fields.row key.address)
    ((before.find? fun b => fields.place b.address = fields.place key.address).map
      fun b => fields.row b.address)

/-- How each access of a list finds the row of its bank. -/
def founds (keys : List Completion) : List RowState :=
  (pasts [] keys).map fun past => fields.found past.1 past.2

theorem found_eq_cold_iff : fields.found before key = .cold ↔
    fields.place key.address ∉ before.map fun b => fields.place b.address := by
  unfold found
  cases hfind : before.find? fun b => fields.place b.address = fields.place key.address with
  | none =>
    have hnone := List.find?_eq_none.mp hfind
    simpa [RowBuffer.classify] using hnone
  | some b =>
    have hmem := List.mem_of_find?_eq_some hfind
    have hplace : fields.place b.address = fields.place key.address := by
      simpa using List.find?_some hfind
    have hin : fields.place key.address ∈ before.map fun b => fields.place b.address :=
      hplace ▸ List.mem_map_of_mem (f := fun b : Completion => fields.place b.address) hmem
    simp only [Option.map_some, RowBuffer.classify, hin, not_true_eq_false, iff_false]
    split <;> nofun

/-- An open row has been accessed before. -/
theorem mem_of_found_eq_hit (h : fields.found before key = .hit) :
    fields.rowPlace key.address ∈ before.map fun b => fields.rowPlace b.address := by
  unfold found at h
  cases hfind : before.find? fun b => fields.place b.address = fields.place key.address with
  | none =>
    rw [hfind] at h
    cases h
  | some b =>
    rw [hfind, Option.map_some] at h
    have hplace : fields.place b.address = fields.place key.address := by
      simpa using List.find?_some hfind
    have hrow : fields.row b.address = fields.row key.address := by
      by_contra hne
      simp [RowBuffer.classify, hne] at h
    refine List.mem_map.mpr ⟨b, List.mem_of_find?_eq_some hfind, ?_⟩
    exact Prod.ext hplace hrow

/-- Accesses that see the rows of each bank in ascending order, the latest first. -/
def Ascending (a b : Completion) : Prop :=
  fields.place a.address = fields.place b.address → fields.row a.address ≤ fields.row b.address

/-- If every bank has seen its rows in ascending order, a row that has been accessed is open. -/
theorem found_eq_hit (hbefore : before.Pairwise fun x y => fields.Ascending y x)
    (hkey : ∀ b ∈ before, fields.Ascending b key)
    (h : fields.rowPlace key.address ∈ before.map fun b => fields.rowPlace b.address) :
    fields.found before key = .hit := by
  obtain ⟨b, hb, heq⟩ := List.mem_map.mp h
  obtain ⟨hplace, hrow⟩ := Prod.mk.inj heq
  obtain ⟨latest, hfind⟩ : ∃ latest, (before.find? fun b =>
      fields.place b.address = fields.place key.address) = some latest := by
    refine Option.isSome_iff_exists.mp (List.find?_isSome.mpr ⟨b, hb, ?_⟩)
    simpa using hplace
  obtain ⟨hlatest, newer, older, rfl, hnewer⟩ := List.find?_eq_some_iff_append.mp hfind
  simp only [decide_eq_true_eq] at hlatest
  have hle := hkey latest (by simp) hlatest
  -- the latest access to the bank is `b` or came after it
  have hge : fields.row b.address ≤ fields.row latest.address := by
    rcases List.mem_append.mp hb with hb | hb
    · have hne := hnewer b hb
      simp [hplace] at hne
    · rcases List.mem_cons.mp hb with rfl | hb
      · exact Nat.le_refl _
      · have hpast := (List.pairwise_append.mp hbefore).2.1
        exact (List.pairwise_cons.mp hpast).1 b hb (hplace.trans hlatest.symm)
  have hopen : fields.row latest.address = fields.row key.address := by omega
  unfold found
  rw [hfind, Option.map_some]
  simp [RowBuffer.classify, hopen]

/-! ### Distinct banks and rows -/

theorem length_founds (keys : List Completion) : (fields.founds keys).length = keys.length := by
  rw [founds, List.length_map, length_pasts]

/-- Each access is a hit, a conflict or cold. -/
theorem count_founds_add (keys : List Completion) : (fields.founds keys).count .hit +
    (fields.founds keys).count .conflict + (fields.founds keys).count .cold = keys.length := by
  rw [← fields.length_founds keys]
  induction fields.founds keys with
  | nil => rfl
  | cons state rest ih =>
    simp only [List.count_cons, List.length_cons]
    cases state <;> simp <;> omega

theorem count_founds (state : RowState) (keys : List Completion) :
    (fields.founds keys).count state =
      (pasts [] keys).countP fun past => decide (fields.found past.1 past.2 = state) := by
  rw [founds, List.count, List.countP_map]
  exact List.countP_congr fun past _ => by simp

/-- A list of accesses finds as many banks cold as it has banks. -/
theorem card_places (keys : List Completion) : (fields.founds keys).count .cold =
    (keys.map fun key => fields.place key.address).toFinset.card := by
  have hcard := card_toFinset (fun key : Completion => fields.place key.address) [] keys
  rw [List.map_nil, List.toFinset_nil, Finset.union_empty, Finset.card_empty, Nat.add_zero] at hcard
  rw [hcard, fields.count_founds]
  exact List.countP_congr fun past _ => by simp [found_eq_cold_iff]

/-- The accesses that miss the open row of their bank. -/
def missed (keys : List Completion) : Nat :=
  (pasts [] keys).countP fun past => decide (fields.found past.1 past.2 ≠ .hit)

theorem missed_eq (keys : List Completion) : fields.missed keys =
    (fields.founds keys).count .cold + (fields.founds keys).count .conflict := by
  have hsum := fields.count_founds_add keys
  have hsplit := List.length_eq_countP_add_countP
    (fun past : List Completion × Completion => decide (fields.found past.1 past.2 = .hit))
    (l := pasts [] keys)
  rw [length_pasts, ← fields.count_founds .hit keys] at hsplit
  have hmissed : fields.missed keys = (pasts [] keys).countP fun past =>
      decide (¬ (decide (fields.found past.1 past.2 = .hit)) = true) :=
    List.countP_congr fun past _ => by simp
  omega

/-- Every distinct row has to be opened once. -/
theorem card_rows_le (keys : List Completion) :
    (keys.map fun key => fields.rowPlace key.address).toFinset.card ≤ fields.missed keys := by
  have hcard := card_toFinset (fun key : Completion => fields.rowPlace key.address) [] keys
  rw [List.map_nil, List.toFinset_nil, Finset.union_empty, Finset.card_empty, Nat.add_zero] at hcard
  rw [hcard]
  refine List.countP_mono_left fun past _ hnew => ?_
  simp only [decide_eq_true_eq] at hnew ⊢
  exact fun hhit => hnew (fields.mem_of_found_eq_hit hhit)

/-- Accesses that see the rows of each bank in ascending order open every row only once. -/
theorem card_rows (h : keys.Pairwise fields.Ascending) :
    fields.missed keys = (keys.map fun key => fields.rowPlace key.address).toFinset.card := by
  have hcard := card_toFinset (fun key : Completion => fields.rowPlace key.address) [] keys
  rw [List.map_nil, List.toFinset_nil, Finset.union_empty, Finset.card_empty, Nat.add_zero] at hcard
  rw [hcard]
  refine List.countP_congr fun past hpast => ?_
  obtain ⟨hbefore, hkey⟩ := pairwise_of_mem_pasts h hpast
  simp only [decide_eq_true_eq]
  exact ⟨fun hmiss hold => hmiss (fields.found_eq_hit hbefore hkey hold),
    fun hnew hhit => hnew (fields.mem_of_found_eq_hit hhit)⟩

end AddressFields

/-! ### The table of open rows -/

namespace RowBuffer

variable {model : RowBuffer} {before : List Completion} {key : Completion}

/-- The accesses counted of one kind. -/
def counted (model : RowBuffer) : RowState → Nat
  | .hit => model.hits
  | .conflict => model.conflicts
  | .cold => model.colds

theorem counted_after (model : RowBuffer) (a : UInt64) (state kind : RowState) :
    (model.after a state).counted kind = model.counted kind + if state = kind then 1 else 0 := by
  cases state <;> cases kind <;> rfl

/-- The open rows are those that the accesses `before`, the latest first, have left open. -/
def Recalls (model : RowBuffer) (before : List Completion) : Prop :=
  ∀ a, model.openRows[model.fields.slot a]? =
    some ((before.find? fun b => model.fields.place b.address = model.fields.place a).map
      fun b => model.fields.row b.address)

theorem recalls_nil {timing : RowTiming} {fields : AddressFields} :
    Recalls { timing, fields, openRows := Array.replicate (pseudoChannels * fields.banks) none } [] := by
  intro a
  have hslot : fields.slot a < pseudoChannels * fields.banks := fields.slot_lt a
  simp [hslot]

/-- An access leaves its own row open. -/
theorem Recalls.after (h : model.Recalls before) (state : RowState) :
    (model.after key.address state).Recalls (key :: before) := by
  intro a
  rw [fields_after, openRows_after, List.find?_cons]
  by_cases hslot : model.fields.slot key.address = model.fields.slot a
  · have hplace := (model.fields.slot_eq_iff).mp hslot
    rw [if_pos hslot, h a]
    simp [hplace]
  · have hplace : model.fields.place key.address ≠ model.fields.place a :=
      fun heq => hslot ((model.fields.slot_eq_iff).mpr heq)
    rw [if_neg hslot, h a]
    simp [hplace]

end RowBuffer

end MemoryReplay
