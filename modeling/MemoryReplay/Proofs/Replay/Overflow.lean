import MemoryReplay.Proofs.Replay.RowHits
import MemoryReplay.Replay.Statistics

/-!
# Numbers that leave 64 bits

A configuration that passes its check may still have latencies that no 64-bit number holds the sum
of, or bursts longer than any such number. Nothing else stops a replay on a built-in memory.

- `MemoryConfig.leastTotal`: what the latencies of a trace add up to at least.
- `leastTotal_le`: no replay that ends with a report has a smaller total.
- `Bus.banner_eq_none_iff`: when a memory cannot be described.
- `replay_overflow_bounds`: a trace that needs more than 64 bits overflows, one with room to spare
  does not, and there is no other failure.
-/

namespace MemoryReplay

/-- What the latencies of a trace add up to at least. With open rows every row has to be opened
once, and every row but the first of its bank after another one has been closed. -/
def MemoryConfig.leastTotal (c : MemoryConfig) (trace : List Request) : Nat :=
  let banks := (trace.map fun r => c.fields.place r.address).toFinset.card
  let rows := (trace.map fun r => c.fields.rowPlace r.address).toFinset.card
  match c.model with
  | .fixed => (trace.map fun r => (c.fixed.of r.direction).toNat).sum
  | .rowBuffer => trace.length * c.rows.cas.toNat + rows * c.rows.ras.toNat +
      (rows - banks) * c.rows.pre.toNat

section

variable {c : MemoryConfig} {strategy : Strategy} {trace : List Request}
  {memory : QueuedMemory Service}

/-- With constant latencies the total of a report is that of the trace. -/
theorem RunReport.Timetable.total_fixed {start : Service} {report : RunReport}
    {last : QueuedMemory Service} {visits : List Visit}
    (h : report.Timetable c (c.queues strategy trace) start last visits) (hc : c.Usable)
    (hstart : c.service = some start) (hmodel : c.model = .fixed) :
    last.totalLatency = (trace.map fun r => (c.fixed.of r.direction).toNat).sum := by
  have hgiven : visits.map Visit.latency =
      (visits.map Visit.key).map fun key => (c.fixed.of key.direction).toNat := by
    rw [List.map_map]
    exact List.map_congr_left fun v hv =>
      h.forall_visit hc hstart (P := fun key n => n = (c.fixed.of key.direction).toNat)
        (fun o ho => c.cyclesOf_fixed hmodel ho) hv
  have hperm := h.perm_trace.map fun r => (c.fixed.of r.direction).toNat
  rw [List.map_map, List.map_map] at hperm
  rw [h.total, hgiven, ← h.keys, List.map_map]
  exact hperm.sum_eq

/-- **No report has a smaller total.** -/
theorem leastTotal_le (hc : c.Usable) (hbuild : c.build = some memory)
    (hfits : (replay strategy trace memory Silence.mk).1 ≠ .error .overflow) :
    ∃ report last, replay strategy trace memory Silence.mk = (.ok report, last, Silence.mk) ∧
      c.leastTotal trace ≤ last.totalLatency ∧ last.totalLatency < UInt64.size := by
  have hstart := MemoryConfig.service_of_build hbuild
  obtain ⟨report, last, visits, hreplay, h⟩ := exists_timetable hc hbuild hfits
  refine ⟨report, last, hreplay, ?_, h.fits⟩
  unfold MemoryConfig.leastTotal
  cases hmodel : c.model with
  | fixed => exact Nat.le_of_eq (h.total_fixed hc hstart hmodel).symm
  | rowBuffer =>
    obtain ⟨_, _, rows, hreplay', -, -, hcolds, hopened, -, htotal⟩ :=
      exists_rowCounters hc hmodel hbuild hfits
    obtain ⟨-, hsame⟩ := Prod.mk.inj (hreplay.symm.trans hreplay')
    obtain ⟨rfl, -⟩ := Prod.mk.inj hsame
    -- a row that is opened and not found cold is a conflict
    have hconflicts : (trace.map fun r => c.fields.rowPlace r.address).toFinset.card -
        (trace.map fun r => c.fields.place r.address).toFinset.card ≤ rows.conflicts := by
      omega
    rw [htotal]
    exact Nat.add_le_add (Nat.add_le_add_left (Nat.mul_le_mul_right _ hopened) _)
      (Nat.mul_le_mul_right _ hconflicts)

end

/-- A memory is described unless its bursts have too many bytes. -/
theorem Bus.banner_eq_none_iff (bus : Bus) :
    bus.banner = none ↔ UInt64.size ≤ bus.bits.toNat / 8 * bus.burstLength.toNat := by
  have hbanner : bus.banner = none ↔ bus.burstSize = none := by
    unfold banner
    cases bus.burstSize <;> simp
  rw [hbanner]
  unfold burstSize Word.mul? Word.ofNat?
  rw [UInt64.toNat_div, show (8 : UInt64).toNat = 8 from rfl]
  by_cases hfits : bus.bits.toNat / 8 * bus.burstLength.toNat < UInt64.size
  · rw [if_pos hfits]
    exact ⟨nofun, fun hle => absurd hfits (Nat.not_lt.mpr hle)⟩
  · rw [if_neg hfits]
    exact ⟨fun _ => Nat.le_of_not_lt hfits, fun _ => rfl⟩

/-- **Only numbers that leave 64 bits stop a replay on a built-in memory.** A configuration that
passes its check describes a memory. It can be shown unless a burst has `2 ^ 64` bytes or more, and
every replay on it ends with a report or leaves 64 bits. A replay does so if the latencies of its
trace add up to that much at least, and does not if one more than its requests times the longest
latency is less. -/
theorem replay_overflow_bounds (c : MemoryConfig) (hvalid : c.validate = .ok ()) :
    ∃ memory, c.build = some memory ∧
      (memory.bus.banner = none ↔ UInt64.size ≤ c.bus.bits.toNat / 8 * c.bus.burstLength.toNat) ∧
      ∀ strategy trace,
        ((∃ report last, replay strategy trace memory Silence.mk =
            (.ok report, last, Silence.mk)) ∨
          (replay strategy trace memory Silence.mk).1 = .error .overflow) ∧
        (UInt64.size ≤ c.leastTotal trace →
          (replay strategy trace memory Silence.mk).1 = .error .overflow) ∧
        ((trace.length + 1) * c.latencyBound < UInt64.size →
          (replay strategy trace memory Silence.mk).1 ≠ .error .overflow) := by
  have hc := MemoryConfig.usable_of_validate hvalid
  obtain ⟨memory, hbuild⟩ := MemoryConfig.exists_build hc
  refine ⟨memory, hbuild, ?_, fun strategy trace => ⟨?_, fun hleast => ?_, fun hfits => ?_⟩⟩
  · have hbus : memory.bus = c.bus := by
      rw [c.build_eq] at hbuild
      obtain ⟨model, -, rfl⟩ := Option.map_eq_some_iff.mp hbuild
      rfl
    rw [hbus]
    exact c.bus.banner_eq_none_iff
  · by_cases hoverflow : (replay strategy trace memory Silence.mk).1 = .error .overflow
    · exact .inr hoverflow
    · obtain ⟨report, last, hreplay, -⟩ := leastTotal_le hc hbuild hoverflow
      exact .inl ⟨report, last, hreplay⟩
  · by_contra hfits
    obtain ⟨_, _, -, hle, hlt⟩ := leastTotal_le hc hbuild hfits
    exact absurd (Nat.lt_of_le_of_lt hle hlt) (Nat.not_lt.mpr hleast)
  · exact replay_ne_overflow hc hbuild strategy trace hfits

/-- A memory on which to open a row and to read from it takes `2 ^ 64` cycles. -/
def endlessRows : MemoryConfig :=
  { model := .rowBuffer, rows := { cas := 0x8000000000000000, ras := 0x8000000000000000 } }

/-- A memory whose bursts have `2 ^ 64` bytes. -/
def endlessBursts : MemoryConfig := { bus := { bits := 0x8000000000000000, burstLength := 16 } }

/-- The one read that is replayed overflows. -/
theorem replay_overflow_bounds_endlessRows : endlessRows.validate = .ok () ∧
    UInt64.size ≤ endlessRows.leastTotal [.fresh 0 .read] ∧
    ∃ memory, endlessRows.build = some memory ∧ memory.bus.banner ≠ none ∧
      (replay .roundRobin [.fresh 0 .read] memory Silence.mk).1 = .error .overflow := by
  have hleast : UInt64.size ≤ endlessRows.leastTotal [.fresh 0 .read] := by decide
  obtain ⟨memory, hbuild, hbanner, hreplay⟩ := replay_overflow_bounds endlessRows rfl
  refine ⟨rfl, hleast, memory, hbuild, fun hnone => ?_, (hreplay .roundRobin _).2.1 hleast⟩
  exact absurd (hbanner.mp hnone) (by decide)

/-- The check bounds neither the bursts nor the latencies. -/
theorem validate_allows_overflow :
    (endlessBursts.validate = .ok () ∧
      ∃ memory, endlessBursts.build = some memory ∧ memory.bus.banner = none) ∧
    endlessRows.validate = .ok () ∧ ∃ memory, endlessRows.build = some memory ∧
      (replay .roundRobin [.fresh 0 .read] memory Silence.mk).1 = .error .overflow := by
  refine ⟨⟨rfl, _, rfl, (Bus.banner_eq_none_iff _).mpr (by decide)⟩, rfl, ?_⟩
  have hc : endlessRows.Usable := MemoryConfig.usable_of_validate rfl
  obtain ⟨memory, hbuild⟩ := MemoryConfig.exists_build hc
  refine ⟨memory, hbuild, ?_⟩
  by_contra hfits
  obtain ⟨_, _, -, hle, hlt⟩ := leastTotal_le hc hbuild hfits
  exact absurd (Nat.lt_of_le_of_lt hle hlt) (by decide)

end MemoryReplay
