import MemoryReplay.Proofs.Memory.Assigned

/-!
# Rows by the last access to their bank

A model with open rows keeps a table with a place for every bank of every pseudo-channel. What it
answers can be told without the table: by the latest access before to the same bank, and by nothing
else.

- `AddressFields.SameBank`, `AddressFields.SameRow`: addresses compared by their fields.
- `AddressFields.Finds`: how an access finds its row after the accesses before it. `finds_iff`: this
  is what `AddressFields.found` computes.
- `AddressFields.visits`: the rows that were accessed in one bank. `found_congr`: nothing else matters.
- `MemoryConfig.exists_serve_iff`: accesses are served if and only if their latencies fit.
- `rows_by_last_access`: latencies and counters of accesses from the first one on.
-/

namespace MemoryReplay

namespace AddressFields

variable (fields : AddressFields)

/-- Two addresses lie in one bank of one pseudo-channel. -/
def SameBank (a b : UInt64) : Prop :=
  fields.channelOf? a = fields.channelOf? b ∧ fields.bankOf? a = fields.bankOf? b

/-- Two addresses have the same row number. -/
def SameRow (a b : UInt64) : Prop := fields.rowOf? a = fields.rowOf? b

instance (a b : UInt64) : Decidable (fields.SameBank a b) := inferInstanceAs (Decidable (_ ∧ _))

/-- How an access finds the row of its bank after the accesses `before`, in their order. -/
inductive Finds (before : List Completion) (a : UInt64) : RowState → Prop
  /-- The bank has not been accessed. -/
  | cold (hnone : ∀ b ∈ before, ¬ fields.SameBank b.address a) : Finds before a .cold
  /-- The latest access to the bank was one to this row. -/
  | hit {older newer : List Completion} {b : Completion} (hbefore : before = older ++ b :: newer)
      (hbank : fields.SameBank b.address a) (hlatest : ∀ x ∈ newer, ¬ fields.SameBank x.address a)
      (hrow : fields.SameRow b.address a) : Finds before a .hit
  /-- The latest access to the bank was one to another row. -/
  | conflict {older newer : List Completion} {b : Completion} (hbefore : before = older ++ b :: newer)
      (hbank : fields.SameBank b.address a) (hlatest : ∀ x ∈ newer, ¬ fields.SameBank x.address a)
      (hrow : ¬ fields.SameRow b.address a) : Finds before a .conflict

/-- The rows accessed in the bank of an address, in the order of the accesses. -/
def visits (before : List Completion) (a : UInt64) : List (Checked Nat) :=
  (before.filter fun b => fields.SameBank b.address a).map fun b => fields.rowOf? b.address

variable {fields} {before before' : List Completion} {key key' : Completion} {a b : UInt64}
  {state : RowState}

namespace Inside

theorem sameBank_iff (h : fields.Inside) : fields.SameBank a b ↔ fields.place a = fields.place b := by
  unfold SameBank place
  rw [h.channelOf?_eq, h.channelOf?_eq, h.bankOf?_eq, h.bankOf?_eq, Option.some_inj, Option.some_inj,
    Prod.mk.injEq]

theorem sameRow_iff (h : fields.Inside) : fields.SameRow a b ↔ fields.row a = fields.row b := by
  unfold SameRow
  rw [h.rowOf?_eq, h.rowOf?_eq, Option.some_inj]

/-- The latest access to a bank, found from the latest access on. -/
theorem find?_reverse_eq_some_iff (h : fields.Inside) {b : Completion} :
    (before.reverse.find? fun b => fields.place b.address = fields.place a) = some b ↔
      fields.SameBank b.address a ∧ ∃ older newer, before = older ++ b :: newer ∧
        ∀ x ∈ newer, ¬ fields.SameBank x.address a := by
  rw [List.find?_eq_some_iff_append]
  simp only [decide_eq_true_eq, h.sameBank_iff, Bool.not_eq_true', decide_eq_false_iff_not]
  refine and_congr_right fun _ => ?_
  constructor
  · rintro ⟨newer, older, hbefore, hlatest⟩
    refine ⟨older.reverse, newer.reverse, ?_, fun x hx => hlatest x (List.mem_reverse.mp hx)⟩
    rw [← List.reverse_reverse before, hbefore]
    simp
  · rintro ⟨older, newer, rfl, hlatest⟩
    exact ⟨newer.reverse, older.reverse, by simp, fun x hx => hlatest x (List.mem_reverse.mp hx)⟩

/-- **What the model finds** is told by the latest access to the bank. -/
theorem finds_iff (h : fields.Inside) :
    fields.Finds before key.address state ↔ fields.found before.reverse key = state := by
  constructor
  · rintro (hnone | ⟨hbefore, hbank, hlatest, hrow⟩ | ⟨hbefore, hbank, hlatest, hrow⟩)
    · rw [found_eq_cold_iff, List.map_reverse, List.mem_reverse]
      intro hmem
      obtain ⟨b, hb, hplace⟩ := List.mem_map.mp hmem
      exact hnone b hb (h.sameBank_iff.mpr hplace)
    · have hfind := h.find?_reverse_eq_some_iff.mpr ⟨hbank, _, _, hbefore, hlatest⟩
      unfold found
      rw [hfind]
      exact if_pos (h.sameRow_iff.mp hrow)
    · have hfind := h.find?_reverse_eq_some_iff.mpr ⟨hbank, _, _, hbefore, hlatest⟩
      unfold found
      rw [hfind]
      exact if_neg (mt h.sameRow_iff.mpr hrow)
  · rintro rfl
    cases hfind : before.reverse.find? fun b => fields.place b.address = fields.place key.address with
    | none =>
      have hnone := List.find?_eq_none.mp hfind
      have hcold : fields.found before.reverse key = .cold := by
        unfold found
        rw [hfind]
        rfl
      rw [hcold]
      refine .cold fun b hb hbank => hnone b (List.mem_reverse.mpr hb) ?_
      simpa using h.sameBank_iff.mp hbank
    | some b =>
      obtain ⟨hbank, older, newer, hbefore, hlatest⟩ := h.find?_reverse_eq_some_iff.mp hfind
      unfold found
      rw [hfind]
      by_cases hrow : fields.SameRow b.address key.address
      · rw [Option.map_some, RowBuffer.classify, if_pos (h.sameRow_iff.mp hrow)]
        exact .hit hbefore hbank hlatest hrow
      · rw [Option.map_some, RowBuffer.classify, if_neg (mt h.sameRow_iff.mpr hrow)]
        exact .conflict hbefore hbank hlatest hrow

/-- The rows accessed in a bank are all that matters to an access to this bank. -/
theorem found_congr (h : fields.Inside) (hrow : fields.SameRow key.address key'.address)
    (hvisits : fields.visits before key.address = fields.visits before' key'.address) :
    fields.found before.reverse key = fields.found before'.reverse key' := by
  -- the latest access to the bank is the last of the visits
  have hlast : ∀ (before : List Completion) (a : UInt64),
      (before.reverse.find? fun b => fields.place b.address = fields.place a).map
        (fun b => some (fields.row b.address)) = (fields.visits before a).getLast? := by
    intro before a
    unfold visits
    rw [← List.head?_filter, List.filter_reverse, List.head?_reverse, List.getLast?_map]
    simp only [h.sameBank_iff, h.rowOf?_eq]
  have hfound : ∀ (before : List Completion) (key : Completion), fields.found before.reverse key =
      RowBuffer.classify (fields.row key.address)
        ((fields.visits before key.address).getLast?.bind id) := by
    intro before key
    unfold found
    rw [← hlast]
    cases before.reverse.find? fun b => fields.place b.address = fields.place key.address <;> rfl
  rw [hfound, hfound, hvisits, h.sameRow_iff.mp hrow]

end Inside

end AddressFields

/-- Items that come later have all earlier ones in their pasts. -/
theorem History.pasts_append {α : Type} (before first later : List α) :
    pasts before (first ++ later) = pasts before first ++ pasts (first.reverse ++ before) later := by
  induction first generalizing before with
  | nil => rfl
  | cons a rest ih =>
    rw [List.cons_append, pasts_cons, ih, pasts_cons, List.cons_append, List.reverse_cons,
      List.append_assoc]
    rfl

theorem AddressFields.getElem?_founds (fields : AddressFields) (before : List Completion)
    (key : Completion) (after : List Completion) :
    (fields.founds (before ++ key :: after))[before.length]? =
      some (fields.found before.reverse key) := by
  unfold founds
  have hlength : before.length = (History.pasts [] before).length := (History.length_pasts _ _).symm
  rw [History.pasts_append, History.pasts_cons, List.append_nil, List.getElem?_map, hlength,
    List.getElem?_append_right (Nat.le_refl _), Nat.sub_self]
  rfl

/-! ### Accesses that are served -/

theorem RowTiming.latency_eq (t : RowTiming) (state : RowState) :
    t.latency state = Word.fits (t.cycles state) := by
  cases state with
  | hit => exact (Word.fits_eq_some_iff.mpr ⟨rfl, t.cas.toNat_lt⟩).symm
  | conflict => rfl
  | cold => rfl

namespace RowBuffer

variable {model : RowBuffer} {before : List Completion} {key : Completion}

/-- An access has a latency if and only if the sum of its parts is a 64-bit number. -/
theorem Recalls.exists_access_iff (hfields : model.fields.Inside) (h : model.Recalls before) :
    (∃ found, model.access key.address = some found) ↔
      model.timing.cycles (model.fields.found before key) < UInt64.size := by
  rw [access_eq hfields, h]
  show (∃ found, (model.timing.latency (model.fields.found before key)).map _ = some found) ↔ _
  rw [RowTiming.latency_eq]
  by_cases hfits : model.timing.cycles (model.fields.found before key) < UInt64.size
  · rw [Word.fits_eq_some_iff.mpr ⟨rfl, hfits⟩]
    exact ⟨fun _ => hfits, fun _ => ⟨_, rfl⟩⟩
  · have hnone : Word.fits (model.timing.cycles (model.fields.found before key)) = none :=
      if_neg hfits
    rw [hnone]
    exact ⟨nofun, fun hlt => absurd hlt hfits⟩

/-- Every bank has its place in the table. -/
theorem Recalls.exists_slotOf (hfields : model.fields.Inside) (h : model.Recalls before) (a : UInt64) :
    ∃ slot, slotOf model.fields a = some slot ∧ slot < model.openRows.size := by
  refine ⟨_, hfields.slotOf_eq a, ?_⟩
  obtain ⟨hlt, -⟩ := Array.getElem?_eq_some_iff.mp (h a)
  exact hlt

end RowBuffer

namespace MemoryConfig

open History

variable {c : MemoryConfig} {before keys : List Completion} {s : Service}

/-- Accesses are served if and only if none of their latencies leaves 64 bits. -/
theorem exists_serve_iff (hc : c.Usable) (hmodel : c.model = .rowBuffer) (h : c.Recalls before s) :
    (∃ served, s.serve keys = some served) ↔
      ∀ past ∈ pasts before keys, c.rows.cycles (c.fields.found past.1 past.2) < UInt64.size := by
  induction keys generalizing before s with
  | nil => exact ⟨fun _ _ hpast => absurd hpast List.not_mem_nil, fun _ => ⟨_, rfl⟩⟩
  | cons key rest ih =>
    have haccess : (∃ found, s.access key.address key.direction = some found) ↔
        c.rows.cycles (c.fields.found before key) < UInt64.size := by
      match s with
      | .fixed _ => exact nomatch hmodel.symm.trans h.1
      | .rows model =>
        obtain ⟨-, htiming, hfields, hrecalls⟩ := h
        rw [← htiming, ← hfields, ← hrecalls.exists_access_iff (hfields ▸ hc.fields)]
        simp [Service.access, LatencyModel.access]
    rw [pasts_cons, List.forall_mem_cons, ← haccess]
    constructor
    · rintro ⟨⟨answers, t⟩, hserve⟩
      obtain ⟨n, u, later, hacc, hrest, rfl⟩ := Service.serve_cons_eq_some.mp hserve
      exact ⟨⟨_, hacc⟩, (ih (h.access hc hacc).2.1).mp ⟨_, hrest⟩⟩
    · rintro ⟨⟨⟨n, u⟩, hacc⟩, hfits⟩
      obtain ⟨⟨later, t⟩, hrest⟩ := (ih (h.access hc hacc).2.1).mpr hfits
      exact ⟨_, Service.serve_cons_eq_some.mpr ⟨n, u, later, hacc, hrest, rfl⟩⟩

theorem latencies_rows (h : c.model = .rowBuffer) (keys : List Completion) :
    c.latencies keys = (c.fields.founds keys).map c.rows.cycles := by
  unfold latencies outcomes AddressFields.founds outcome
  rw [h, List.map_map, List.map_map]
  rfl

end MemoryConfig

/-- **Rows are found by the last access to their bank.** Take the fields of a configuration that passes
its check, and any accesses to a model with open rows that has not been accessed before. How an access
finds its row depends on the latest access before to the same bank of the same pseudo-channel: it is
cold if there is none, a hit if that was an access to the same row, and a conflict if not. The accesses
are served if and only if none of their latencies leaves 64 bits; they have the latencies of what
they find, the counters tell how often each was found, and every bank has its place in the table
at any time. So accesses to other banks make no difference to an access, nor do the directions. -/
theorem rows_by_last_access {c : MemoryConfig} (hvalid : c.validate = .ok ()) :
    ∃ fresh, RowBuffer.create c.rows c.fields = some fresh ∧
    (∀ keys : List Completion,
      (c.fields.founds keys).length = keys.length ∧
      (∀ before key after, keys = before ++ key :: after → ∀ state,
        (c.fields.founds keys)[before.length]? = some state ↔
          c.fields.Finds before key.address state) ∧
      ((∃ served, (Service.rows fresh).serve keys = some served) ↔
        ∀ state ∈ c.fields.founds keys, c.rows.cycles state < UInt64.size) ∧
      ∀ answers last, (Service.rows fresh).serve keys = some (answers, last) →
        answers = (c.fields.founds keys).map c.rows.cycles ∧
        ∃ model : RowBuffer, last = .rows model ∧
          model.hits = (c.fields.founds keys).count .hit ∧
          model.conflicts = (c.fields.founds keys).count .conflict ∧
          model.colds = (c.fields.founds keys).count .cold ∧
          model.hits + model.conflicts + model.colds = keys.length ∧
          ∀ a, ∃ slot, RowBuffer.slotOf c.fields a = some slot ∧ slot < model.openRows.size) ∧
    ∀ before before' key key' answers answers' last last',
      (Service.rows fresh).serve (before ++ [key]) = some (answers, last) →
      (Service.rows fresh).serve (before' ++ [key']) = some (answers', last') →
      c.fields.SameRow key.address key'.address →
      c.fields.visits before key.address = c.fields.visits before' key'.address →
      answers.getLast? = answers'.getLast? := by
  -- the check does not look at the choice of the model
  let c' : MemoryConfig := { c with model := .rowBuffer }
  have hc : c'.Usable := MemoryConfig.usable_of_validate (c := c') hvalid
  obtain ⟨s, hservice, -⟩ := MemoryConfig.exists_service hc
  obtain ⟨fresh, hcreate, rfl⟩ := Option.map_eq_some_iff.mp hservice
  obtain ⟨hrecalls, -⟩ := MemoryConfig.recalls_of_service hc hservice
  have hanswers : ∀ {keys answers last},
      (Service.rows fresh).serve keys = some (answers, last) →
      answers = (c.fields.founds keys).map c.rows.cycles := fun hserve =>
    (MemoryConfig.serve_eq hc hservice hserve).1.trans (c'.latencies_rows rfl _)
  refine ⟨fresh, hcreate, fun keys => ⟨c.fields.length_founds keys, ?_, ?_, ?_⟩, ?_⟩
  · rintro before key after rfl state
    rw [c.fields.getElem?_founds, Option.some_inj, hc.fields.finds_iff]
  · rw [MemoryConfig.exists_serve_iff hc rfl hrecalls]
    exact (List.forall_mem_map (P := fun state => c.rows.cycles state < UInt64.size)).symm
  · intro answers last hserve
    obtain ⟨-, hlast, hcounted⟩ := MemoryConfig.serve_eq hc hservice hserve
    have hcount : ∀ state, last.counted state = (c.fields.founds keys).count state := by
      intro state
      rw [hcounted, c'.outcomes_rows rfl, List.count_map_of_injective _ _ (Option.some_injective _)]
    match last with
    | .fixed _ => exact nomatch hlast.1
    | .rows model =>
      obtain ⟨-, -, hfields, hmodel⟩ := hlast
      have hhits : model.hits = _ := hcount .hit
      have hconflicts : model.conflicts = _ := hcount .conflict
      have hcolds : model.colds = _ := hcount .cold
      refine ⟨hanswers hserve, model, rfl, hhits, hconflicts, hcolds, ?_, fun a => ?_⟩
      · rw [hhits, hconflicts, hcolds, c.fields.count_founds_add]
      · obtain ⟨slot, hslot, hlt⟩ := hmodel.exists_slotOf (hfields ▸ hc.fields) a
        exact ⟨slot, hfields ▸ hslot, hlt⟩
  · intro before before' key key' answers answers' last last' hserve hserve' hrow hvisits
    have hlast : ∀ (before : List Completion) (key : Completion),
        ((c.fields.founds (before ++ [key])).map c.rows.cycles).getLast? =
          some (c.rows.cycles (c.fields.found before.reverse key)) := by
      intro before key
      rw [List.getLast?_map, List.getLast?_eq_getElem?, c.fields.length_founds, List.length_append]
      show Option.map _ (c.fields.founds (before ++ key :: []))[before.length]? = _
      rw [c.fields.getElem?_founds]
      rfl
    rw [hanswers hserve, hanswers hserve', hlast, hlast, hc.fields.found_congr hrow hvisits]

/-- Fields of which two bits belong to the pseudo-channel and to the bank. -/
def sharedBits : MemoryConfig := { fields := ⟨10, 12, 2, 14⟩ }

/-- A read, a write to another row of its bank, a read of another bank, and a read of the second row. -/
def rowAccesses : List Completion :=
  [⟨0, .read⟩, ⟨0x4000, .write⟩, ⟨0x1000, .read⟩, ⟨0x4040, .read⟩]

/-- The access to the other bank does not close the row. -/
theorem rows_by_last_access_sharedBits : sharedBits.validate = .ok () ∧
    sharedBits.fields.Finds (rowAccesses.take 3) 0x4040 .hit ∧
    ∃ fresh model, RowBuffer.create sharedBits.rows sharedBits.fields = some fresh ∧
      (Service.rows fresh).serve rowAccesses = some ([28, 42, 28, 14], .rows model) ∧
      model.hits = 1 ∧ model.conflicts = 1 ∧ model.colds = 2 := by
  have hvalid : sharedBits.validate = .ok () := rfl
  obtain ⟨fresh, hcreate, hserves, -⟩ := rows_by_last_access hvalid
  obtain ⟨-, hfinds, hserved, hlast⟩ := hserves rowAccesses
  obtain ⟨⟨answers, last⟩, hserve⟩ := hserved.mpr (by decide)
  obtain ⟨rfl, model, rfl, hhits, hconflicts, hcolds, -⟩ := hlast answers last hserve
  refine ⟨hvalid, (hfinds _ ⟨0x4040, .read⟩ [] rfl _).mp (by decide), fresh, model, hcreate, ?_, ?_⟩
  · rw [hserve]
    rfl
  · rw [hhits, hconflicts, hcolds]
    decide

end MemoryReplay
