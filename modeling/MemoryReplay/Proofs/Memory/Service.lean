import Mathlib.Algebra.GroupWithZero.Nat
import MemoryReplay.Memory.Config
import MemoryReplay.Proofs.Address.Fields

/-!
# Latencies of the built-in models

What a memory may rely on once its configuration has been accepted: every access has a latency,
and no latency is longer than the configuration allows.

- `MemoryConfig.Accepted`: what `validate` says of a configuration. `MemoryConfig.Usable`: what the
  theory of replays needs of that.
- `MemoryConfig.worstLatency`: no access takes longer.
- `MemoryConfig.Serves c model`: a model that began as the configuration says.
  `Service.serves_access`, `Service.exists_access`: what it does with an access.
- `RowBuffer.after`: the open rows after an access.
-/

namespace MemoryReplay

namespace MemoryConfig

/-- What `validate` says of the queues, and of the fields of an address: the pseudo-channel ends inside
the address, the bank and the row begin there. -/
structure Accepted (c : MemoryConfig) : Prop where
  depth : 0 < c.queueDepth.toNat
  channel : c.fields.channelShift.toNat ≤ 60
  bank : c.fields.bankShift.toNat < 64
  row : c.fields.rowShift.toNat < 64
  width : 1 ≤ c.fields.bankBits.toNat ∧ c.fields.bankBits.toNat ≤ 8

theorem accepted_of_validate {c : MemoryConfig} (h : c.validate = .ok ()) : c.Accepted := by
  unfold validate at h
  by_cases hdepth : c.queueDepth = 0
  · simp [hdepth] at h
    cases h
  by_cases hbus : c.bus.bits < 8 ∨ c.bus.burstLength = 0
  · simp [hdepth, hbus] at h
    cases h
  by_cases hshift : 60 < c.fields.channelShift ∨ 64 ≤ c.fields.bankShift ∨ 64 ≤ c.fields.rowShift
  · simp [hdepth, hbus, hshift] at h
    cases h
  by_cases hbits : c.fields.bankBits = 0 ∨ 8 < c.fields.bankBits
  · simp [hdepth, hbus, hshift, hbits] at h
    cases h
  simp only [not_or, UInt32.le_iff_toNat_le, UInt32.lt_iff_toNat_lt, ← UInt32.toNat_inj,
    UInt32.reduceToNat] at hshift hbits
  obtain ⟨hchannel, hbank, hrow⟩ := hshift
  refine ⟨?_, ?_, ?_, ?_, ?_, ?_⟩
  · exact Nat.pos_of_ne_zero fun hzero => hdepth (UInt64.toNat_inj.mp hzero)
  all_goals omega

/-- A configuration with which a memory runs. -/
structure Usable (c : MemoryConfig) : Prop where
  depth : 0 < c.queueDepth.toNat
  fields : c.fields.Inside

theorem usable_of_validate {c : MemoryConfig} (h : c.validate = .ok ()) : c.Usable := by
  have haccepted := accepted_of_validate h
  have hchannel := Nat.lt_of_le_of_lt haccepted.channel (by decide : 60 < 64)
  exact ⟨haccepted.depth, hchannel, haccepted.bank, haccepted.width.2, haccepted.row⟩

/-- No access takes longer than this. -/
def worstLatency (c : MemoryConfig) : Nat :=
  match c.model with
  | .fixed => max c.fixed.read.toNat c.fixed.write.toNat
  | .rowBuffer => c.rows.pre.toNat + c.rows.ras.toNat + c.rows.cas.toNat

/-- Within so many cycles of being due at the latest a request is seen to complete. -/
def latencyBound (c : MemoryConfig) : Nat := max 1 c.worstLatency

end MemoryConfig

/-! ### Open rows -/

/-- No row takes longer to access than a conflict. -/
theorem RowTiming.latency_le {t : RowTiming} {state : RowState} {n : Nat}
    (h : t.latency state = some n) : n ≤ t.pre.toNat + t.ras.toNat + t.cas.toNat := by
  cases state with
  | hit =>
    obtain rfl := Option.some.inj h
    omega
  | conflict =>
    obtain ⟨rfl, -⟩ := Word.fits_eq_some_iff.mp h
    omega
  | cold =>
    obtain ⟨rfl, -⟩ := Word.fits_eq_some_iff.mp h
    omega

theorem RowTiming.exists_latency {t : RowTiming} (state : RowState)
    (h : t.pre.toNat + t.ras.toNat + t.cas.toNat < UInt64.size) :
    ∃ n, t.latency state = some n := by
  cases state with
  | hit => exact ⟨_, rfl⟩
  | conflict => exact ⟨_, Word.fits_eq_some_iff.mpr ⟨rfl, h⟩⟩
  | cold => exact ⟨_, Word.fits_eq_some_iff.mpr ⟨rfl, by omega⟩⟩

namespace RowBuffer

/-- The model after an access that found the row of its bank in the given state. -/
def after (model : RowBuffer) (a : UInt64) (state : RowState) : RowBuffer :=
  { model.count state with
    openRows := model.openRows.setIfInBounds (model.fields.slot a) (some (model.fields.row a)) }

theorem access_eq {model : RowBuffer} (h : model.fields.Inside) (a : UInt64) :
    model.access a = model.openRows[model.fields.slot a]? >>= fun opened =>
      (model.timing.latency (classify (model.fields.row a) opened)).map fun n =>
        (n, model.after a (classify (model.fields.row a) opened)) := by
  unfold access
  rw [h.slotOf_eq, h.rowOf?_eq]
  show (model.openRows[model.fields.slot a]? >>= _) = _
  cases model.openRows[model.fields.slot a]? with
  | none => rfl
  | some opened =>
    show (model.timing.latency _ >>= _) = (model.timing.latency _).map _
    cases model.timing.latency (classify (model.fields.row a) opened) with
    | none => rfl
    | some n => cases classify (model.fields.row a) opened <;> rfl

/-- An access that succeeds found its bank in some state, and has the latency of that state. -/
theorem access_eq_some {model model' : RowBuffer} {a : UInt64} {n : Nat}
    (h : model.fields.Inside) (hacc : model.access a = some (n, model')) :
    ∃ opened, model.openRows[model.fields.slot a]? = some opened ∧
      model.timing.latency (classify (model.fields.row a) opened) = some n ∧
      model' = model.after a (classify (model.fields.row a) opened) := by
  rw [access_eq h] at hacc
  obtain ⟨opened, hopened, hlatency⟩ := Option.bind_eq_some_iff.mp hacc
  obtain ⟨_, hn, heq⟩ := Option.map_eq_some_iff.mp hlatency
  obtain ⟨rfl, rfl⟩ := Prod.mk.inj heq
  exact ⟨opened, hopened, hn, rfl⟩

section After

variable (model : RowBuffer) (a : UInt64) (state : RowState)

@[simp] theorem timing_after : (model.after a state).timing = model.timing := by
  cases state <;> rfl

@[simp] theorem fields_after : (model.after a state).fields = model.fields := by
  cases state <;> rfl

@[simp] theorem size_after : (model.after a state).openRows.size = model.openRows.size := by
  simp [after]

/-- An access opens its row in its own bank. -/
theorem openRows_after {i : Nat} : (model.after a state).openRows[i]? =
    if model.fields.slot a = i then
      model.openRows[i]?.map fun _ => some (model.fields.row a)
    else model.openRows[i]? := by
  unfold after
  rw [Array.getElem?_setIfInBounds]
  by_cases hslot : model.fields.slot a = i
  · subst hslot
    simp only [if_true]
    split
    · next hlt => simp [hlt]
    · next hge => simp [Array.getElem?_eq_none (Nat.le_of_not_lt hge)]
  · simp [hslot]

end After

end RowBuffer

/-! ### Both models -/

/-- A model that began as a configuration says. -/
def MemoryConfig.Serves (c : MemoryConfig) : Service → Prop
  | .fixed model => c.model = .fixed ∧ model = c.fixed
  | .rows model => c.model = .rowBuffer ∧ model.timing = c.rows ∧ model.fields = c.fields ∧
      model.openRows.size = pseudoChannels * c.fields.banks

namespace Service

variable {c : MemoryConfig} {s t : Service} {a : UInt64} {direction : Direction} {n : Nat}

theorem access_fixed {model : FixedLatency}
    (h : (fixed model).access a direction = some (n, t)) :
    n = (model.of direction).toNat ∧ t = fixed model := by
  obtain ⟨rfl, rfl⟩ := Prod.mk.inj (Option.some.inj h)
  exact ⟨rfl, rfl⟩

theorem access_rows {model : RowBuffer} (hfields : model.fields.Inside)
    (h : (rows model).access a direction = some (n, t)) :
    ∃ opened, model.openRows[model.fields.slot a]? = some opened ∧
      model.timing.latency (RowBuffer.classify (model.fields.row a) opened) = some n ∧
      t = rows (model.after a (RowBuffer.classify (model.fields.row a) opened)) := by
  obtain ⟨⟨_, model'⟩, hacc, heq⟩ := Option.map_eq_some_iff.mp h
  obtain ⟨rfl, rfl⟩ := Prod.mk.inj heq
  obtain ⟨opened, hopened, hlatency, rfl⟩ := RowBuffer.access_eq_some hfields hacc
  exact ⟨opened, hopened, hlatency, rfl⟩

/-- An access takes no longer than the configuration allows, and the model serves it as before. -/
theorem serves_access (hc : c.Usable) (h : c.Serves s)
    (hacc : s.access a direction = some (n, t)) : n ≤ c.worstLatency ∧ c.Serves t := by
  cases s with
  | fixed model =>
    obtain ⟨hmodel, rfl⟩ := h
    obtain ⟨rfl, rfl⟩ := access_fixed hacc
    refine ⟨?_, hmodel, rfl⟩
    unfold MemoryConfig.worstLatency
    rw [hmodel]
    cases direction with
    | read => exact Nat.le_max_left ..
    | write => exact Nat.le_max_right ..
  | rows model =>
    obtain ⟨hmodel, htiming, hfields, hsize⟩ := h
    obtain ⟨opened, -, hlatency, rfl⟩ := access_rows (hfields ▸ hc.fields) hacc
    refine ⟨?_, hmodel, ?_, ?_, ?_⟩
    · unfold MemoryConfig.worstLatency
      rw [hmodel, ← htiming]
      exact RowTiming.latency_le hlatency
    · rw [RowBuffer.timing_after, htiming]
    · rw [RowBuffer.fields_after, hfields]
    · rw [RowBuffer.size_after, hsize]

/-- Every address is served, unless a latency leaves 64 bits. -/
theorem exists_access (hc : c.Usable) (h : c.Serves s) (hfits : c.worstLatency < UInt64.size)
    (a : UInt64) (direction : Direction) : ∃ n t, s.access a direction = some (n, t) := by
  cases s with
  | fixed model => exact ⟨_, _, rfl⟩
  | rows model =>
    obtain ⟨hmodel, htiming, hfields, hsize⟩ := h
    have hinside : model.fields.Inside := hfields ▸ hc.fields
    -- the table has a slot for every bank
    have hslot : model.fields.slot a < model.openRows.size := by
      rw [hsize, ← hfields]
      exact model.fields.slot_lt a
    unfold MemoryConfig.worstLatency at hfits
    rw [hmodel, ← htiming] at hfits
    let state := RowBuffer.classify (model.fields.row a) model.openRows[model.fields.slot a]
    obtain ⟨n, hn⟩ := RowTiming.exists_latency state hfits
    refine ⟨n, rows (model.after a state), ?_⟩
    show (model.access a).map _ = _
    rw [RowBuffer.access_eq hinside, Array.getElem?_eq_getElem hslot]
    show Option.map _ (Option.map _ (model.timing.latency _)) = _
    rw [hn]
    rfl

/-- Each access adds at most one to the model's counters. -/
theorem sum_counters_access (hc : c.Usable) (h : c.Serves s)
    (hacc : s.access a direction = some (n, t)) :
    ((LatencyModel.counters t).map Prod.snd).sum ≤
      ((LatencyModel.counters s).map Prod.snd).sum + 1 := by
  cases s with
  | fixed model =>
    obtain ⟨-, rfl⟩ := access_fixed hacc
    exact Nat.le_succ _
  | rows model =>
    obtain ⟨-, -, hfields, -⟩ := h
    obtain ⟨opened, -, -, rfl⟩ := access_rows (hfields ▸ hc.fields) hacc
    cases RowBuffer.classify (model.fields.row a) opened <;>
      simp [LatencyModel.counters, RowBuffer.after, RowBuffer.count] <;> omega

end Service

/-! ### Building a memory -/

namespace MemoryConfig

variable {c : MemoryConfig}

/-- A usable configuration describes a memory. -/
theorem exists_service (hc : c.Usable) : ∃ s, c.service = some s ∧ c.Serves s ∧
    ((LatencyModel.counters s).map Prod.snd).sum = 0 := by
  unfold service
  cases hmodel : c.model with
  | fixed => exact ⟨_, rfl, ⟨hmodel, rfl⟩, rfl⟩
  | rowBuffer =>
    have hcreate : RowBuffer.create c.rows c.fields = some
        { timing := c.rows
          fields := c.fields
          openRows := Array.replicate (pseudoChannels * c.fields.banks) none } := by
      unfold RowBuffer.create
      rw [hc.fields.banks?_eq]
      exact if_pos hc.fields.banks_le_maxBanks
    rw [hcreate]
    exact ⟨_, rfl, ⟨hmodel, rfl, rfl, Array.size_replicate⟩, rfl⟩

theorem build_eq (c : MemoryConfig) : c.build = c.service.map c.fresh := by
  unfold build
  cases c.service <;> rfl

theorem service_of_build {c : MemoryConfig} {memory : QueuedMemory Service}
    (h : c.build = some memory) : c.service = some memory.model := by
  rw [c.build_eq] at h
  obtain ⟨model, hmodel, rfl⟩ := Option.map_eq_some_iff.mp h
  exact hmodel

end MemoryConfig

end MemoryReplay
