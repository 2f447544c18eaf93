import MemoryReplay.Proofs.Memory.RowHistory

/-!
# The latencies that a model assigns

A latency model is asked once for every admission, in the order of the admissions. What it answers
then has a closed form in the accesses it was asked for before.

- `Service.serve`: a model asked for one access after the other.
- `MemoryConfig.outcomes`: the accesses of a list, each with how it finds its row.
- `MemoryConfig.latencies`: their latencies. `serve_eq`: these are what the model answers.
- `outcomes_filter`: what becomes of the accesses of one channel depends on no others.
- `sum_latencies`: the latencies of a model with open rows add up by hits, conflicts and colds.
-/

namespace MemoryReplay

/-- The latency of a row in a given state, as an exact number. -/
def RowTiming.cycles (t : RowTiming) : RowState → Nat
  | .hit => t.cas.toNat
  | .conflict => t.pre.toNat + t.ras.toNat + t.cas.toNat
  | .cold => t.ras.toNat + t.cas.toNat

namespace RowTiming

variable {t : RowTiming} {state : RowState} {n : Nat}

theorem eq_cycles (h : t.latency state = some n) : n = t.cycles state := by
  cases state with
  | hit => exact (Option.some.inj h).symm
  | conflict => exact (Word.fits_eq_some_iff.mp h).1
  | cold => exact (Word.fits_eq_some_iff.mp h).1

theorem cas_le_cycles (t : RowTiming) (state : RowState) : t.cas.toNat ≤ t.cycles state := by
  cases state <;> simp only [cycles] <;> omega

theorem cycles_le (t : RowTiming) (state : RowState) :
    t.cycles state ≤ t.pre.toNat + t.ras.toNat + t.cas.toNat := by
  cases state <;> simp only [cycles] <;> omega

/-- Latencies by how many accesses miss their row, and how many of these have to close another. -/
theorem sum_cycles (t : RowTiming) (states : List RowState) : (states.map t.cycles).sum =
    states.length * t.cas.toNat + (states.count .cold + states.count .conflict) * t.ras.toNat +
      states.count .conflict * t.pre.toNat := by
  induction states with
  | nil => simp
  | cons state rest ih =>
    rw [List.map_cons, List.sum_cons, ih]
    cases state <;> simp [cycles, Nat.add_mul] <;> omega

end RowTiming

namespace Service

/-- Asks a model for the latencies of accesses one after the other: the latencies, and the model
after all of them. -/
def serve : Service → List Completion → Checked (List Nat × Service)
  | s, [] => some ([], s)
  | s, key :: rest => do
    let (latency, s) ← s.access key.address key.direction
    let (latencies, s) ← serve s rest
    return (latency :: latencies, s)

variable {s t u : Service} {key : Completion} {keys : List Completion} {latency : Nat}
  {latencies : List Nat}

theorem serve_cons_eq_some : s.serve (key :: keys) = some (latencies, u) ↔
    ∃ latency t rest, s.access key.address key.direction = some (latency, t) ∧
      t.serve keys = some (rest, u) ∧ latencies = latency :: rest := by
  show (s.access key.address key.direction >>= _) = _ ↔ _
  cases s.access key.address key.direction with
  | none => simp
  | some served =>
    obtain ⟨latency, t⟩ := served
    show (t.serve keys >>= _) = _ ↔ _
    cases hserve : t.serve keys with
    | none => simp [hserve]
    | some later =>
      obtain ⟨rest, v⟩ := later
      show some (latency :: rest, v) = _ ↔ _
      constructor
      · intro h
        obtain ⟨rfl, rfl⟩ := Prod.mk.inj (Option.some.inj h)
        exact ⟨latency, t, rest, rfl, hserve, rfl⟩
      · rintro ⟨_, _, rest', hacc, hserve', rfl⟩
        obtain ⟨rfl, rfl⟩ := Prod.mk.inj (Option.some.inj hacc)
        obtain ⟨rfl, rfl⟩ := Prod.mk.inj (Option.some.inj (hserve.symm.trans hserve'))
        rfl

/-- One more access comes after those served before. -/
theorem serve_concat (h : s.serve keys = some (latencies, t))
    (hacc : t.access key.address key.direction = some (latency, u)) :
    s.serve (keys ++ [key]) = some (latencies ++ [latency], u) := by
  induction keys generalizing s latencies with
  | nil =>
    obtain ⟨rfl, rfl⟩ := Prod.mk.inj (Option.some.inj h)
    exact serve_cons_eq_some.mpr ⟨latency, u, [], hacc, rfl, rfl⟩
  | cons first rest ih =>
    obtain ⟨n, v, later, hfirst, hrest, rfl⟩ := serve_cons_eq_some.mp h
    exact serve_cons_eq_some.mpr ⟨n, v, later ++ [latency], hfirst, ih hrest, rfl⟩

/-- The accesses counted of one kind; a model without rows counts none. -/
def counted : Service → RowState → Nat
  | fixed _, _ => 0
  | rows model, state => model.counted state

end Service

namespace MemoryConfig

open History

variable {c : MemoryConfig} {before keys : List Completion} {key : Completion}
  {answers : List Nat} {s t : Service}

/-- How an access finds its row after the accesses `before`, the latest first. In a model without
rows there is nothing to find. -/
def outcome (c : MemoryConfig) (before : List Completion) (key : Completion) : Option RowState :=
  match c.model with
  | .fixed => none
  | .rowBuffer => some (c.fields.found before key)

/-- The accesses of a list, each with how it finds its row. -/
def outcomes (c : MemoryConfig) (keys : List Completion) : List (Completion × Option RowState) :=
  (pasts [] keys).map fun past => (past.2, c.outcome past.1 past.2)

/-- The latency of an access that finds its row in the given state. -/
def cyclesOf (c : MemoryConfig) : Completion × Option RowState → Nat
  | (key, none) => (c.fixed.of key.direction).toNat
  | (_, some state) => c.rows.cycles state

/-- The latencies of the accesses of a list. -/
def latencies (c : MemoryConfig) (keys : List Completion) : List Nat :=
  (c.outcomes keys).map c.cyclesOf

/-- A model that began as a configuration says and has been asked for the accesses `before`, the
latest first. -/
def Recalls (c : MemoryConfig) (before : List Completion) : Service → Prop
  | .fixed model => c.model = .fixed ∧ model = c.fixed
  | .rows model => c.model = .rowBuffer ∧ model.timing = c.rows ∧ model.fields = c.fields ∧
      model.Recalls before

/-- A model as it was built recalls nothing, and has counted nothing. -/
theorem recalls_of_service (hc : c.Usable) (h : c.service = some s) :
    c.Recalls [] s ∧ ∀ state, s.counted state = 0 := by
  unfold service at h
  cases hmodel : c.model with
  | fixed =>
    rw [hmodel] at h
    obtain rfl := Option.some.inj h
    exact ⟨⟨hmodel, rfl⟩, fun _ => rfl⟩
  | rowBuffer =>
    rw [hmodel] at h
    obtain ⟨model, hcreate, rfl⟩ := Option.map_eq_some_iff.mp h
    unfold RowBuffer.create at hcreate
    rw [hc.fields.banks?_eq] at hcreate
    simp only [Option.bind_eq_bind, Option.bind_some, hc.fields.banks_le_maxBanks, if_true] at hcreate
    obtain rfl := Option.some.inj hcreate
    exact ⟨⟨hmodel, rfl, rfl, RowBuffer.recalls_nil⟩, fun state => by cases state <;> rfl⟩

/-- An access has the latency that its past says, and is counted as its past says. -/
theorem Recalls.access (hc : c.Usable) (h : c.Recalls before s) {n : Nat}
    (hacc : s.access key.address key.direction = some (n, t)) :
    n = c.cyclesOf (key, c.outcome before key) ∧ c.Recalls (key :: before) t ∧
      ∀ state, t.counted state =
        s.counted state + if c.outcome before key = some state then 1 else 0 := by
  cases s with
  | fixed model =>
    obtain ⟨hmodel, rfl⟩ := h
    obtain ⟨rfl, rfl⟩ := Service.access_fixed hacc
    unfold outcome
    rw [hmodel]
    exact ⟨rfl, ⟨hmodel, rfl⟩, fun _ => rfl⟩
  | rows model =>
    obtain ⟨hmodel, htiming, hfields, hrecalls⟩ := h
    obtain ⟨opened, hopened, hlatency, rfl⟩ := Service.access_rows (hfields ▸ hc.fields) hacc
    -- the row found open is the one that the latest access to this bank has left open
    have hfound : RowBuffer.classify (model.fields.row key.address) opened =
        c.fields.found before key := by
      rw [hrecalls] at hopened
      rw [← Option.some.inj hopened, hfields]
      rfl
    rw [hfound] at hlatency ⊢
    unfold outcome
    rw [hmodel]
    refine ⟨?_, ⟨hmodel, ?_, ?_, hrecalls.after _⟩, fun state => ?_⟩
    · rw [RowTiming.eq_cycles hlatency, htiming]
      rfl
    · rw [RowBuffer.timing_after, htiming]
    · rw [RowBuffer.fields_after, hfields]
    · simp only [Option.some.injEq]
      exact model.counted_after key.address _ state

theorem Recalls.serve (hc : c.Usable) (h : c.Recalls before s)
    (hserve : s.serve keys = some (answers, t)) :
    answers = (pasts before keys).map (fun past => c.cyclesOf (past.2, c.outcome past.1 past.2)) ∧
      c.Recalls (keys.reverse ++ before) t ∧ ∀ state, t.counted state = s.counted state +
        ((pasts before keys).map fun past => c.outcome past.1 past.2).count (some state) := by
  induction keys generalizing before s answers with
  | nil =>
    obtain ⟨rfl, rfl⟩ := Prod.mk.inj (Option.some.inj hserve)
    exact ⟨rfl, h, fun _ => rfl⟩
  | cons key rest ih =>
    obtain ⟨n, u, later, hacc, hrest, rfl⟩ := Service.serve_cons_eq_some.mp hserve
    obtain ⟨rfl, hu, hcounted⟩ := h.access hc hacc
    obtain ⟨rfl, ht, hcounted'⟩ := ih hu hrest
    refine ⟨rfl, ?_, fun state => ?_⟩
    · rw [List.reverse_cons, List.append_assoc]
      exact ht
    · rw [hcounted', hcounted, pasts_cons, List.map_cons, List.count_cons]
      simp only [beq_iff_eq]
      omega

/-- **What a model as it was built answers** to accesses is a function of these accesses alone, and
so is what it counts. -/
theorem serve_eq (hc : c.Usable) (hservice : c.service = some s)
    (hserve : s.serve keys = some (answers, t)) :
    answers = c.latencies keys ∧ c.Recalls keys.reverse t ∧
      ∀ state, t.counted state = ((c.outcomes keys).map Prod.snd).count (some state) := by
  obtain ⟨hrecalls, hzero⟩ := recalls_of_service hc hservice
  obtain ⟨hanswers, ht, hcounted⟩ := hrecalls.serve hc hserve
  refine ⟨?_, List.append_nil keys.reverse ▸ ht, fun state => ?_⟩
  · rw [hanswers, MemoryConfig.latencies, outcomes, List.map_map]
    rfl
  · rw [hcounted, hzero, Nat.zero_add, outcomes, List.map_map]
    rfl

/-- Two models of one configuration that have counted the same tell the same. -/
theorem counters_eq {before' : List Completion} (hs : c.Recalls before s) (ht : c.Recalls before' t)
    (h : ∀ state, s.counted state = t.counted state) :
    LatencyModel.counters s = LatencyModel.counters t := by
  match s, t with
  | .fixed _, .fixed _ => rfl
  | .rows model, .rows model' =>
    have hhits : model.hits = model'.hits := h .hit
    have hconflicts : model.conflicts = model'.conflicts := h .conflict
    have hcolds : model.colds = model'.colds := h .cold
    show [_, _, _] = [_, _, _]
    rw [hhits, hconflicts, hcolds]
  | .fixed _, .rows _ =>
    have hmodel := hs.1.symm.trans ht.1
    cases hmodel
  | .rows _, .fixed _ =>
    have hmodel := hs.1.symm.trans ht.1
    cases hmodel

/-! ### One channel -/

@[simp] theorem map_fst_outcomes (c : MemoryConfig) (keys : List Completion) :
    (c.outcomes keys).map Prod.fst = keys := by
  rw [outcomes, List.map_map]
  exact map_snd_pasts [] keys

/-- Accesses of other channels make no difference to an access. -/
theorem outcome_filter (c : MemoryConfig) {k : Fin channels} (before : List Completion)
    (h : half (c.fields.channel key.address) = k) :
    c.outcome (before.filter fun b => half (c.fields.channel b.address) = k) key =
      c.outcome before key := by
  have hfind : (before.filter fun b => half (c.fields.channel b.address) = k).find?
      (fun b => c.fields.place b.address = c.fields.place key.address) =
      before.find? fun b => c.fields.place b.address = c.fields.place key.address := by
    rw [List.find?_filter]
    congr 1
    funext b
    -- a bank belongs to one channel
    have hplace : c.fields.place b.address = c.fields.place key.address →
        half (c.fields.channel b.address) = k := fun heq => by
      rw [← h, show c.fields.channel b.address = c.fields.channel key.address from
        congrArg Prod.fst heq]
    by_cases hb : c.fields.place b.address = c.fields.place key.address
    · simp [hb, hplace hb]
    · simp [hb]
  unfold outcome AddressFields.found
  rw [hfind]

/-- What becomes of the accesses of a channel is what becomes of them alone. -/
theorem outcomes_filter (c : MemoryConfig) (k : Fin channels) (keys : List Completion) :
    (c.outcomes keys).filter (fun o => half (c.fields.channel o.1.address) = k) =
      c.outcomes (keys.filter fun key => half (c.fields.channel key.address) = k) := by
  have hpasts := pasts_filter (fun key => decide (half (c.fields.channel key.address) = k)) [] keys
  rw [List.filter_nil] at hpasts
  unfold outcomes
  rw [hpasts, List.filter_map, List.map_map]
  refine List.map_congr_left fun past hpast => ?_
  have hk : half (c.fields.channel past.2.address) = k := by simpa using List.of_mem_filter hpast
  exact Prod.ext rfl (c.outcome_filter past.1 hk).symm

/-! ### Bounds and sums -/

theorem cyclesOf_fixed (h : c.model = .fixed) {o : Completion × Option RowState}
    (ho : o ∈ c.outcomes keys) : c.cyclesOf o = (c.fixed.of o.1.direction).toNat := by
  obtain ⟨past, -, rfl⟩ := List.mem_map.mp ho
  unfold outcome
  rw [h]
  rfl

theorem cyclesOf_rows (h : c.model = .rowBuffer) {o : Completion × Option RowState}
    (ho : o ∈ c.outcomes keys) : c.rows.cas.toNat ≤ c.cyclesOf o ∧
      c.cyclesOf o ≤ c.rows.pre.toNat + c.rows.ras.toNat + c.rows.cas.toNat := by
  obtain ⟨past, -, rfl⟩ := List.mem_map.mp ho
  unfold outcome
  rw [h]
  exact ⟨c.rows.cas_le_cycles _, c.rows.cycles_le _⟩

/-- No access takes longer than the longest one. -/
theorem cyclesOf_le {o : Completion × Option RowState} (ho : o ∈ c.outcomes keys) :
    c.cyclesOf o ≤ c.worstLatency := by
  unfold worstLatency
  cases hmodel : c.model with
  | fixed =>
    rw [c.cyclesOf_fixed hmodel ho]
    cases o.1.direction
    · exact Nat.le_max_left ..
    · exact Nat.le_max_right ..
  | rowBuffer => exact (c.cyclesOf_rows hmodel ho).2

theorem outcomes_rows (h : c.model = .rowBuffer) (keys : List Completion) :
    (c.outcomes keys).map Prod.snd = (c.fields.founds keys).map some := by
  unfold outcomes AddressFields.founds outcome
  rw [h, List.map_map, List.map_map]
  rfl

/-- The latencies of a model with open rows. -/
theorem sum_latencies (h : c.model = .rowBuffer) (keys : List Completion) :
    (c.latencies keys).sum = keys.length * c.rows.cas.toNat +
      c.fields.missed keys * c.rows.ras.toNat +
      (c.fields.founds keys).count .conflict * c.rows.pre.toNat := by
  have hcycles : c.latencies keys = (c.fields.founds keys).map c.rows.cycles := by
    unfold latencies outcomes AddressFields.founds outcome
    rw [h, List.map_map, List.map_map]
    rfl
  rw [hcycles, RowTiming.sum_cycles, c.fields.length_founds, c.fields.missed_eq]

end MemoryConfig

end MemoryReplay
