import Mathlib.Data.List.Sort
import MemoryReplay.Proofs.Replay.Latencies
import MemoryReplay.Replay.Statistics

/-!
# Whose latency is recorded

Completions of one address and direction go to its requests in the order of their admission. A
request that no other one with its key overtakes, and that overtakes none, is recorded with the
latency that it was given; among the others the latencies are exchanged.

- `Word.sum?_eq_some`: a sum that is a 64-bit number is obtained. `exists_averageLatency`: so is the
  mean of a report whose latencies have such a sum.
- `dueCycle`, `InTurn`: when a request with a given latency finishes, and whether it does so before
  a later one with its key.
- `Timetable.completeCycles_eq`: the stamps of a key are the cycles in which its requests finish,
  sorted.
- `Timetable.latency_eq`: a request finished in turn is recorded with its own latency.
- `latencies_attributed`: both for a replay, and what they say of the extreme latencies.
-/

namespace MemoryReplay

/-- Numbers of which the sum is a 64-bit number are added without leaving 64 bits. -/
theorem Word.sum?_eq_some {ns : List Nat} (h : ns.sum < UInt64.size) :
    Word.sum? ns = some ns.sum := by
  suffices hfrom : ∀ total, total + ns.sum < UInt64.size →
      ns.foldlM (fun total n => Word.fits (total + n)) total = some (total + ns.sum) by
    have hsum := hfrom 0
    rw [Nat.zero_add] at hsum
    exact hsum h
  clear h
  induction ns with
  | nil => exact fun _ _ => rfl
  | cons n rest ih =>
    intro total hfits
    rw [List.sum_cons, ← Nat.add_assoc] at hfits ⊢
    have hhead : Word.fits (total + n) = some (total + n) :=
      Word.fits_eq_some_iff.mpr ⟨rfl, Nat.lt_of_le_of_lt (Nat.le_add_right ..) hfits⟩
    rw [List.foldlM_cons, hhead]
    exact ih _ hfits

/-- So the latencies of a report have a mean. -/
theorem RunReport.exists_averageLatency {report : RunReport}
    (h : report.latencies.sum < UInt64.size) : ∃ mean, report.averageLatency = some mean := by
  unfold averageLatency
  rw [Word.sum?_eq_some h]
  split
  · exact ⟨_, rfl⟩
  · exact ⟨_, rfl⟩

/-- The cycle in which a request finishes that was given a latency at its admission. -/
def dueCycle (p : Request × Nat) : Nat := p.1.issueCycle + p.2

/-- A request finishes no later than one with its key that was admitted after it. -/
def InTurn (p q : Request × Nat) : Prop := p.1.key = q.1.key → dueCycle p ≤ dueCycle q

namespace RunReport.Timetable

variable {c : MemoryConfig} {queues : Vector (List Request) channels} {start : Service}
  {report : RunReport} {last : QueuedMemory Service} {visits : List Visit}
  {older newer : List (Request × Nat)} {p : Request × Nat}

/-- When no latency is zero, a visit finishes when it is due. -/
theorem zip_dueCycles (h : report.Timetable c queues start last visits)
    (hpositive : ∀ v ∈ visits, v.latency ≠ 0) :
    ((report.requests.zip (visits.map Visit.latency)).map fun p => (p.1.key, dueCycle p)) =
      visits.map Visit.stamp := by
  have hzip := congrArg (List.map fun q : (Completion × Nat) × Nat => (q.1.1, q.1.2 + q.2))
    h.zip_latencies
  rw [List.map_map, List.map_map] at hzip
  refine hzip.trans (List.map_congr_left fun v hv => ?_)
  have hlatency : max 1 v.latency = v.latency :=
    Nat.max_eq_right (Nat.pos_of_ne_zero (hpositive v hv))
  show (v.key, v.issue + v.latency) = (v.key, v.issue + max 1 v.latency)
  rw [hlatency]

/-- **The stamps of a key are the cycles in which its requests finish, sorted.** -/
theorem completeCycles_eq (h : report.Timetable c queues start last visits)
    (hpositive : ∀ v ∈ visits, v.latency ≠ 0) (key : Completion) :
    (report.requests.filter fun r => r.key = key).map Request.completeCycle =
      (((report.requests.zip (visits.map Visit.latency)).filter fun p => p.1.key = key).map
        dueCycle).mergeSort fun m n => m ≤ n := by
  have hstamps := h.stamps
  rw [← h.zip_dueCycles hpositive] at hstamps
  have hperm := (hstamps.filter fun s => s.1 = key).map Prod.snd
  rw [List.filter_map, List.filter_map, List.map_map, List.map_map] at hperm
  have hinOrder : ((report.requests.filter fun r => r.key = key).map
      Request.completeCycle).Pairwise (· ≤ ·) := by
    refine List.pairwise_map.mpr ((h.inOrder.filter _).imp_of_mem fun {r r'} hr hr' hle => ?_)
    have hkey : r.key = key := by simpa using List.of_mem_filter hr
    have hkey' : r'.key = key := by simpa using List.of_mem_filter hr'
    exact hle (hkey.trans hkey'.symm)
  refine List.Perm.eq_of_pairwise' hinOrder (List.pairwise_mergeSort' (· ≤ ·) _) ?_
  exact hperm.trans (List.mergeSort_perm ..).symm

/-- A visit among others stands for a request among others. -/
theorem exists_dueCycle {visits : List Visit} {pairs : List (Request × Nat)}
    (hsame : visits.map Visit.stamp = pairs.map fun p => (p.1.key, dueCycle p)) {v : Visit}
    (hv : v ∈ visits) : ∃ p ∈ pairs, p.1.key = v.key ∧ dueCycle p = v.finish := by
  have hmem := List.mem_map_of_mem (f := Visit.stamp) hv
  rw [hsame] at hmem
  obtain ⟨p, hp, heq⟩ := List.mem_map.mp hmem
  obtain ⟨hkey, hdue⟩ := Prod.mk.inj heq
  exact ⟨p, hp, hkey, hdue⟩

/-- **A request finished in turn is recorded with its own latency.** -/
theorem latency_eq (h : report.Timetable c queues start last visits)
    (hpositive : ∀ v ∈ visits, v.latency ≠ 0)
    (hp : report.requests.zip (visits.map Visit.latency) = older ++ p :: newer)
    (holder : ∀ q ∈ older, InTurn q p) (hnewer : ∀ q ∈ newer, InTurn p q) :
    p.1.latency = some p.2 := by
  have hrequests : report.requests = older.map Prod.fst ++ p.1 :: newer.map Prod.fst := by
    rw [← List.map_fst_zip (Nat.le_of_eq h.length_eq), hp, List.map_append, List.map_cons]
  -- the visits stand as the requests do
  have hstamps := h.zip_dueCycles hpositive
  rw [hp, List.map_append] at hstamps
  obtain ⟨earlier, rest, hvisits, hearlier, hrest⟩ := List.map_eq_append_iff.mp hstamps.symm
  obtain ⟨v, later, rfl, hv, -⟩ := List.map_eq_cons_iff.mp hrest
  obtain ⟨hkey, hfinish⟩ := Prod.mk.inj hv
  have hsame : (older.map Prod.fst).map Request.key = earlier.map Visit.key := by
    have hkeys := congrArg (List.map Prod.fst) hearlier.symm
    rw [List.map_map, List.map_map] at hkeys
    rw [List.map_map]
    exact hkeys
  have hge : dueCycle p ≤ p.1.completeCycle := by
    refine h.le_complete hrequests hvisits hsame fun w hw hwkey => ?_
    obtain ⟨q, hq, hqkey, hqdue⟩ := exists_dueCycle hrest hw
    rw [← hqdue]
    rcases List.mem_cons.mp hq with rfl | hq
    · exact Nat.le_refl _
    · exact hnewer q hq (hwkey.symm.trans hqkey.symm)
  have hle : p.1.completeCycle ≤ dueCycle p := by
    refine h.complete_le hrequests hvisits hsame hkey (Nat.le_of_eq hfinish) fun w hw hwkey => ?_
    obtain ⟨q, hq, hqkey, hqdue⟩ := exists_dueCycle hearlier hw
    rw [← hqdue]
    exact holder q hq (hqkey.trans hwkey)
  have hcompleted : p.1.completed = true := by
    refine h.completed p.1 ?_
    rw [hrequests]
    exact List.mem_append_right _ List.mem_cons_self
  unfold Request.latency Request.stampedLatency
  rw [if_pos hcompleted, Nat.le_antisymm hle hge, dueCycle, Nat.add_sub_cancel_left]

/-! ### Statistics -/

theorem latencies_eq_map (h : report.Timetable c queues start last visits) :
    report.latencies = report.requests.map Request.stampedLatency := by
  refine List.filterMap_eq_map_iff_forall_eq_some.mpr fun r hr => ?_
  unfold Request.latency
  rw [if_pos (h.completed r hr)]

/-- If every request is finished in turn, the latencies recorded are those given. -/
theorem latencies_eq_of_inTurn (h : report.Timetable c queues start last visits)
    (hpositive : ∀ v ∈ visits, v.latency ≠ 0)
    (hturn : (report.requests.zip (visits.map Visit.latency)).Pairwise InTurn) :
    report.latencies = visits.map Visit.latency := by
  have hpairs : ∀ p ∈ report.requests.zip (visits.map Visit.latency),
      p.1.stampedLatency = p.2 := by
    intro p hmem
    obtain ⟨older, newer, hp⟩ := List.append_of_mem hmem
    rw [hp] at hturn
    obtain ⟨-, hrest, hcross⟩ := List.pairwise_append.mp hturn
    have hlatency := h.latency_eq hpositive hp (fun q hq => hcross q hq p List.mem_cons_self)
      (List.pairwise_cons.mp hrest).1
    unfold Request.latency at hlatency
    rw [if_pos (h.completed p.1 (List.of_mem_zip hmem).1)] at hlatency
    exact Option.some.inj hlatency
  calc report.latencies
      _ = report.requests.map Request.stampedLatency := h.latencies_eq_map
      _ = (report.requests.zip (visits.map Visit.latency)).map (Request.stampedLatency ∘ Prod.fst) := by
        rw [← List.map_map, List.map_fst_zip (Nat.le_of_eq h.length_eq)]
      _ = (report.requests.zip (visits.map Visit.latency)).map Prod.snd :=
        List.map_congr_left hpairs
      _ = visits.map Visit.latency := List.map_snd_zip (Nat.le_of_eq h.length_eq.symm)

/-- No more is recorded than the longest latency for each request. -/
theorem sum_latencies_le (h : report.Timetable c queues start last visits) (hc : c.Usable)
    (hstart : c.service = some start) :
    report.latencies.sum ≤ report.requests.length * c.latencyBound := by
  have hgiven : ∀ v ∈ visits, max 1 v.latency ≤ c.latencyBound := fun v hv =>
    h.forall_visit hc hstart (P := fun _ n => max 1 n ≤ c.latencyBound)
      (fun o ho => max_le_max_left 1 (c.cyclesOf_le ho)) hv
  rw [h.latencies_eq_map, h.sum_stampedLatency, h.length_eq, List.length_map,
    ← List.length_map (max 1 ·.latency)]
  refine List.sum_le_card_nsmul _ _ fun n hn => ?_
  obtain ⟨v, hv, rfl⟩ := List.mem_map.mp hn
  exact hgiven v hv

/-- The statistics of a replay exist. -/
theorem exists_statistics (h : report.Timetable c queues start last visits)
    (hpositive : ∀ v ∈ visits, v.latency ≠ 0) :
    ∃ stats, RunStatistics.ofReport report = some stats ∧
      stats.minLatency = report.latencies.min?.getD 0 ∧
      stats.maxLatency = report.latencies.max?.getD 0 := by
  have hsum : report.latencies.sum = last.totalLatency := by
    rw [h.latencies_eq_map, h.sum_stampedLatency, h.total]
    refine congrArg _ (List.map_congr_left fun v hv => ?_)
    exact Nat.max_eq_right (Nat.pos_of_ne_zero (hpositive v hv))
  obtain ⟨mean, hmean⟩ := report.exists_averageLatency (hsum ▸ h.fits)
  unfold RunStatistics.ofReport
  rw [hmean]
  exact ⟨_, rfl, rfl, rfl⟩

/-- No latency is recorded below the least one given. -/
theorem min?_given_le (h : report.Timetable c queues start last visits) :
    (visits.map Visit.latency).min?.getD 0 ≤ report.latencies.min?.getD 0 := by
  rw [h.latencies_eq_map]
  by_cases hnone : report.requests = []
  · have hkeys := h.keys
    rw [hnone, List.map_nil] at hkeys
    rw [hnone, List.map_eq_nil_iff.mp hkeys.symm]
    exact Nat.le_refl _
  · refine Tally.le_min?_getD (by simpa using hnone) fun n hn => ?_
    obtain ⟨r, hr, rfl⟩ := List.mem_map.mp hn
    have hle := h.le_complete_of_forall
      (fun _ => (visits.map Visit.latency).min?.getD 0) (fun v hv => ?_) hr
    · exact Nat.le_sub_of_add_le' hle
    · exact Nat.le_trans (Tally.min?_getD_le (List.mem_map_of_mem hv)) (Nat.le_max_right ..)

/-- No latency is recorded above the largest one given. -/
theorem le_max?_given (h : report.Timetable c queues start last visits)
    (hpositive : ∀ v ∈ visits, v.latency ≠ 0) :
    report.latencies.max?.getD 0 ≤ (visits.map Visit.latency).max?.getD 0 := by
  rw [h.latencies_eq_map]
  refine Tally.max?_getD_le_iff.mpr fun n hn => ?_
  obtain ⟨r, hr, rfl⟩ := List.mem_map.mp hn
  have hle := h.complete_le_of_forall
    (fun _ => (visits.map Visit.latency).max?.getD 0) (fun v hv => ?_) hr
  · exact Nat.sub_le_of_le_add (Nat.add_comm .. ▸ hle)
  · have hmax := Tally.max?_getD_le_iff.mp (Nat.le_refl _) _
      (List.mem_map_of_mem (f := Visit.latency) hv)
    exact Nat.max_le.mpr ⟨Nat.le_trans (Nat.pos_of_ne_zero (hpositive v hv)) hmax, hmax⟩

end RunReport.Timetable

/-- **Latencies are attributed in the order of admission.** In a replay with open rows, where an
open row takes at least a cycle, the stamps of the requests with one key are the cycles in which
they finish, sorted. So a request that is finished in turn is recorded with the latency that the
model gave it at its admission. The extreme latencies of the statistics lie within those that the
model gave, and are these if every request is finished in turn. -/
theorem latencies_attributed (c : MemoryConfig) (strategy : Strategy) (trace : List Request)
    (memory : QueuedMemory Service) (hvalid : c.validate = .ok ()) (hmodel : c.model = .rowBuffer)
    (hcas : 1 ≤ c.rows.cas.toNat) (hbuild : c.build = some memory)
    (hfits : (replay strategy trace memory Silence.mk).1 ≠ .error .overflow) :
    ∃ report last given stats,
      replay strategy trace memory Silence.mk = (.ok report, last, Silence.mk) ∧
      memory.model.serve (report.requests.map Request.key) = some (given, last.model) ∧
      RunStatistics.ofReport report = some stats ∧
      (∀ key, (report.requests.filter fun r => r.key = key).map Request.completeCycle =
        (((report.requests.zip given).filter fun p => p.1.key = key).map dueCycle).mergeSort
          fun m n => m ≤ n) ∧
      (∀ older p newer, report.requests.zip given = older ++ p :: newer →
        (∀ q ∈ older, InTurn q p) → (∀ q ∈ newer, InTurn p q) → p.1.latency = some p.2) ∧
      given.min?.getD 0 ≤ stats.minLatency ∧ stats.maxLatency ≤ given.max?.getD 0 ∧
      ((report.requests.zip given).Pairwise InTurn →
        stats.minLatency = given.min?.getD 0 ∧ stats.maxLatency = given.max?.getD 0) := by
  have hc := MemoryConfig.usable_of_validate hvalid
  have hstart := MemoryConfig.service_of_build hbuild
  obtain ⟨report, last, visits, hreplay, h⟩ := exists_timetable hc hbuild hfits
  have hpositive : ∀ v ∈ visits, v.latency ≠ 0 := by
    intro v hv
    have hle : c.rows.cas.toNat ≤ v.latency :=
      h.forall_visit hc hstart (P := fun _ n => c.rows.cas.toNat ≤ n)
        (fun o ho => (c.cyclesOf_rows hmodel ho).1) hv
    omega
  obtain ⟨stats, hstats, hmin, hmax⟩ := h.exists_statistics hpositive
  refine ⟨report, last, visits.map Visit.latency, stats, hreplay, h.served, hstats,
    h.completeCycles_eq hpositive, fun older p newer hp => h.latency_eq hpositive hp, ?_, ?_,
    fun hturn => ?_⟩
  · rw [hmin]
    exact h.min?_given_le
  · rw [hmax]
    exact h.le_max?_given hpositive
  · rw [hmin, hmax, h.latencies_eq_of_inTurn hpositive hturn]
    exact ⟨rfl, rfl⟩

/-- The stamps of both reads are the cycles in which they finish, in the other order. -/
theorem latencies_attributed_twoReads :
    (quickRows {}).validate = .ok () ∧ (quickRows {}).model = .rowBuffer ∧
    1 ≤ (quickRows {}).rows.cas.toNat ∧ (quickRows {}).build = some (quickMemory {}) ∧
    (replay .roundRobin twoReads (quickMemory {}) Silence.mk).1 ≠ .error .overflow ∧
    ∃ report last given stats,
      replay .roundRobin twoReads (quickMemory {}) Silence.mk = (.ok report, last, Silence.mk) ∧
      (quickMemory {}).model.serve (report.requests.map Request.key) = some (given, last.model) ∧
      RunStatistics.ofReport report = some stats ∧
      (report.requests.filter fun r => r.key = ⟨0, .read⟩).map Request.completeCycle =
        (((report.requests.zip given).filter fun p => p.1.key = ⟨0, .read⟩).map
          dueCycle).mergeSort (fun m n => m ≤ n) ∧
      given.min?.getD 0 ≤ stats.minLatency ∧ stats.maxLatency ≤ given.max?.getD 0 := by
  obtain ⟨report, last, given, stats, hreplay, hserve, hstats, hstamps, -, hmin, hmax, -⟩ :=
    latencies_attributed (quickRows {}) .roundRobin twoReads (quickMemory {}) rfl rfl (by decide)
      rfl replay_twoReads_ne_overflow
  exact ⟨rfl, rfl, by decide, rfl, replay_twoReads_ne_overflow, report, last, given, stats, hreplay,
    hserve, hstats, hstamps ⟨0, .read⟩, hmin, hmax⟩

/-- The second of two reads finishes before the first: both are recorded with two cycles, though the
model has given three to the first and one to the second. -/
theorem latencies_exchanged_twoReads :
    (quickRows {}).validate = .ok () ∧ (quickRows {}).model = .rowBuffer ∧
    1 ≤ (quickRows {}).rows.cas.toNat ∧ (quickRows {}).build = some (quickMemory {}) ∧
    ∃ report last given stats,
      replay .roundRobin twoReads (quickMemory {}) Silence.mk = (.ok report, last, Silence.mk) ∧
      (quickMemory {}).model.serve (report.requests.map Request.key) = some (given, last.model) ∧
      RunStatistics.ofReport report = some stats ∧
      report.requests.map Request.latency = [some 2, some 2] ∧ given = [3, 1] ∧
      stats.minLatency = 2 ∧ stats.maxLatency = 2 := by
  obtain ⟨report, last, hreplay, hrequests⟩ := exists_replay_twoReads
  have hbuild : (quickRows {}).build = some (quickMemory {}) := rfl
  obtain ⟨report', last', visits, hreplay', h⟩ := exists_timetable
    (MemoryConfig.usable_of_validate (c := quickRows {}) rfl) hbuild replay_twoReads_ne_overflow
  obtain ⟨hreport, hlast⟩ := Prod.mk.inj (hreplay'.symm.trans hreplay)
  obtain rfl : report' = report := Except.ok.inj hreport
  obtain ⟨rfl, -⟩ := Prod.mk.inj hlast
  have hserved := h.served
  rw [hrequests] at hserved
  have hgiven : visits.map Visit.latency = [3, 1] :=
    ((Prod.mk.inj (Option.some.inj hserved)).1).symm
  have hpositive : ∀ v ∈ visits, v.latency ≠ 0 := by
    intro v hv hzero
    have hmem := List.mem_map_of_mem (f := Visit.latency) hv
    rw [hgiven, hzero] at hmem
    exact absurd hmem (by decide)
  obtain ⟨stats, hstats, hmin, hmax⟩ := h.exists_statistics hpositive
  refine ⟨rfl, rfl, by decide, rfl, report', last', visits.map Visit.latency, stats, hreplay,
    h.served, hstats, ?_, hgiven, ?_, ?_⟩
  · rw [hrequests]
    rfl
  · rw [hmin, RunReport.latencies, hrequests]
    rfl
  · rw [hmax, RunReport.latencies, hrequests]
    rfl

end MemoryReplay
